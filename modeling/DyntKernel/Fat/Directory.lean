/-
  File:      DyntKernel/Fat/Directory.lean
  Subject:   READING A DIRECTORY (fs/fat32.c, build_short_name to locate_entry, fat32_open).

  A directory is a chain of clusters with entries of 32 bytes. The scan hands every 8.3 entry that
  is not deleted to a callback, with the long name of the parts in front of it or the short name.

  * `readDirectory` -- the scan, with a bound on the rounds of its outer loop; `findEntry`,
    `locateEntry`, `fat32Open` -- the searches built on it;
  * `Chain`, `Linked`, `Linked.nodup` -- the clusters of a chain, on a disk and by the entries of a
    table;
  * `chainSlots` -- the entries of a whole chain; `visitAll` -- a callback on a list of entries, up
    to the first one it accepts;
  * `run_round` -- a round of the scan, in those terms.
-/
import DyntKernel.Fat.LongNames
import DyntKernel.Fat.Table

namespace DyntKernel.Fat

open Library Prog List

/-! ## 1. Entries -/

/-- `FAT32_DIR_ATTR_DIRECTORY`. -/
def attrDirectory : UInt8 := 0x10

/-- `FAT32_NAME_MAX`. -/
def nameMax : Nat := 256

def upper (c : UInt8) : UInt8 := if 'a'.toUInt8 ≤ c ∧ c ≤ 'z'.toUInt8 then c - 32 else c

/-- The characters of a field of a short name, up to its padding. -/
def shortField (entry : Nat → UInt8) (start n : Nat) : List UInt8 :=
  (((List.range' start n).map entry).takeWhile (· ≠ 0x20)).map upper

/-- `build_short_name`; the C string ends at the first NUL that is copied. -/
def buildShortName (entry : Nat → UInt8) : List UInt8 :=
  let base := shortField entry 0 8
  let ext := if entry 8 ≠ 0x20 then '.'.toUInt8 :: shortField entry 8 3 else []
  (base ++ ext).takeWhile (· ≠ 0)

/-- An entry of a directory that is neither free nor part of a long name. -/
def Live (entry : Nat → UInt8) : Prop :=
  entry 0 ≠ 0x00 ∧ entry 0 ≠ 0xE5 ∧ entry 11 &&& attrLfn ≠ attrLfn

/-- `fat32_dirent_t`. -/
structure Dirent where
  name : List UInt8
  size : Nat
  firstCluster : Nat
  isDir : Bool
  deriving DecidableEq

def makeDirent (entry : Nat → UInt8) (name : List UInt8) : Dirent :=
  let isDir : Bool := entry 11 &&& attrDirectory ≠ 0
  { name := name
    size := if isDir then 0 else readLE entry 28 4
    firstCluster := readLE entry 20 2 <<< 16 ||| readLE entry 26 2
    isDir := isDir }

def nameMatches : List UInt8 → List UInt8 → Bool
  | a :: as, b :: bs => if upper a = upper b then nameMatches as bs else false
  | [], [] => true
  | _, _ => false

/-! ## 2. The scan -/

/-- The arguments of a call of `visit`. -/
structure Slot where
  cluster : Nat
  offset : Nat
  entry : Nat → UInt8
  name : List UInt8

/-- The name `read_directory` gives to an entry: that of the long name parts in front of it. -/
def slotName (acc : LfnAcc) (entry : Nat → UInt8) : List UInt8 :=
  if 0 < acc.length then lfnAssemble acc nameMax else buildShortName entry

/-- How the loop over the entries of a cluster is left: at its end, `end` or `found`. -/
inductive Outcome
  | more
  | last
  | found

variable {σ : Type}

/-- The loop over the `n` entries from `i` on. -/
def scanEntries (visit : Slot → σ → Bool × σ) (cluster : Nat) (buf : Nat → UInt8) :
    Nat → Nat → LfnAcc → σ → Outcome × LfnAcc × σ
  | _, 0, acc, u => (.more, acc, u)
  | i, n + 1, acc, u =>
    let entry := fun j => buf (i * 32 + j)
    if entry 0 = 0x00 then (.last, acc, u)
    else if entry 0 = 0xE5 then scanEntries visit cluster buf (i + 1) n [] u
    else if entry 11 &&& attrLfn = attrLfn then
      scanEntries visit cluster buf (i + 1) n (lfnAddPart acc entry) u
    else
      match visit ⟨cluster, i * 32, entry, slotName acc entry⟩ u with
      | (true, u) => (.found, [], u)
      | (false, u) => scanEntries visit cluster buf (i + 1) n [] u

/-- The entries of a cluster. -/
def Volume.slots (v : Volume) : Nat := v.bytesPerCluster / 32

/-- The outer loop of `read_directory`: nothing in it changes `cluster`. -/
def readDirectoryLoop (v : Volume) (cluster : Nat) (visit : Slot → σ → Bool × σ) :
    Nat → LfnAcc → σ → Io (Bool × σ)
  | 0, _, _ => .hang
  | fuel + 1, acc, u => do
    if clusterValid cluster then
      match ← blockRead (clusterToLba v cluster) v.sectorsPerCluster with
      | none => pure (false, u)
      | some buf =>
        match scanEntries visit cluster buf 0 v.slots acc u with
        | (.found, _, u) => pure (true, u)
        | (.last, _, u) => pure (false, u)
        | (.more, acc, u) => readDirectoryLoop v cluster visit fuel acc u
    else pure (false, u)

def readDirectory (v : Volume) (fuel dirCluster : Nat) (visit : Slot → σ → Bool × σ) (u : σ) :
    Io (Bool × σ) :=
  readDirectoryLoop v dirCluster visit fuel [] u

/-- `open_visit` and `locate_visit`: the entry that is found is kept. -/
def searchVisit (name : List UInt8) (s : Slot) (found : Option Slot) : Bool × Option Slot :=
  match found with
  | some _ => (true, found)
  | none => if nameMatches s.name name then (true, some s) else (false, none)

def Slot.dirent (s : Slot) : Dirent := makeDirent s.entry s.name

def locateEntry (v : Volume) (fuel dirCluster : Nat) (name : List UInt8) : Io (Option Slot) := do
  let (_, found) ← readDirectory v fuel dirCluster (searchVisit name) none
  pure found

def findEntry (v : Volume) (fuel dirCluster : Nat) (name : List UInt8) : Io (Option Dirent) := do
  let found ← locateEntry v fuel dirCluster name
  pure (found.map Slot.dirent)

/-! ## 3. Paths -/

/-- `split_component`: the component, cut to the size of the buffer, and the path behind it. -/
def splitComponent (path : List UInt8) : Option (List UInt8 × List UInt8) :=
  let p := path.dropWhile (· = '/'.toUInt8)
  if p = [] then none
  else some ((p.takeWhile (· ≠ '/'.toUInt8)).take (nameMax - 1), p.dropWhile (· ≠ '/'.toUInt8))

/-- The loop of `fat32_open`; every component takes a character, so `n` is a length. -/
def openLoop (v : Volume) (fuel : Nat) : Nat → List UInt8 → Nat → Io (Option Dirent)
  | 0, _, _ => pure none
  | n + 1, path, dirCluster => do
    match splitComponent path with
    | none => pure none
    | some (component, path) =>
      match ← findEntry v fuel dirCluster component with
      | none => pure none
      | some entry =>
        if path = [] then pure (some entry)
        else if entry.isDir then openLoop v fuel n path entry.firstCluster
        else pure none

def fat32Open (v : Volume) (fuel : Nat) (name : List UInt8) : Io (Option Dirent) :=
  openLoop v fuel name.length name v.rootCluster

/-! ## 4. The entries of a chain -/

/-- **The clusters of the chain that starts at `c`**, up to the first number that is no cluster. -/
def Chain (v : Volume) (d : Disk 512) : Nat → List Nat → Prop
  | c, [] => clusterValid c = false
  | c, x :: cs => c = x ∧ clusterValid x = true ∧ Chain v d (entryAt v d x) cs

/-- A callback on a list of entries, up to the first one it accepts. -/
def visitAll (visit : Slot → σ → Bool × σ) : List Slot → σ → Bool × σ
  | [], u => (false, u)
  | s :: l, u => if (visit s u).1 then (true, (visit s u).2) else visitAll visit l (visit s u).2

/-- The entries a scan of one cluster comes to; with the long name parts left at the end of the
    cluster, or `none` when the entry with the first byte 0 is met. -/
def clusterSlots (cluster : Nat) (buf : Nat → UInt8) : Nat → Nat → LfnAcc →
    List Slot × Option LfnAcc
  | _, 0, acc => ([], some acc)
  | i, n + 1, acc =>
    let entry := fun j => buf (i * 32 + j)
    if entry 0 = 0x00 then ([], none)
    else if entry 0 = 0xE5 then clusterSlots cluster buf (i + 1) n []
    else if entry 11 &&& attrLfn = attrLfn then
      clusterSlots cluster buf (i + 1) n (lfnAddPart acc entry)
    else
      let rest := clusterSlots cluster buf (i + 1) n []
      (⟨cluster, i * 32, entry, slotName acc entry⟩ :: rest.1, rest.2)

/-- The entries of one cluster of a directory on the disk. -/
def diskSlots (v : Volume) (d : Disk 512) (cluster : Nat) (acc : LfnAcc) :
    List Slot × Option LfnAcc :=
  clusterSlots cluster (d.sector (clusterToLba v cluster)) 0 v.slots acc

/-- **The entries of a directory**: those of all clusters of its chain, up to the end mark. -/
def chainSlots (v : Volume) (d : Disk 512) : List Nat → LfnAcc → List Slot
  | [], _ => []
  | c :: cs, acc =>
    (diskSlots v d c acc).1 ++
      match (diskSlots v d c acc).2 with
      | none => []
      | some acc => chainSlots v d cs acc

variable {v : Volume} {d : Disk 512} {c i n fuel : Nat} {acc acc' : LfnAcc} {buf : Nat → UInt8}
  {visit : Slot → σ → Bool × σ} {u : σ} {l l' : List Slot} {cs : List Nat}

/-- How a scan of a cluster is left. -/
def outcomeOf (found : Bool) (rest : Option LfnAcc) : Outcome :=
  if found then .found else if rest.isNone then .last else .more

/-- **A scan of one cluster calls the callback on its entries.** -/
theorem scanEntries_eq (visit : Slot → σ → Bool × σ) (c : Nat) (buf : Nat → UInt8) (i n : Nat)
    (acc : LfnAcc) (u : σ) : (scanEntries visit c buf i n acc u).1 =
      outcomeOf (visitAll visit (clusterSlots c buf i n acc).1 u).1 (clusterSlots c buf i n acc).2 ∧
    (scanEntries visit c buf i n acc u).2.2 = (visitAll visit (clusterSlots c buf i n acc).1 u).2 ∧
    ∀ acc', (scanEntries visit c buf i n acc u).1 = .more →
      (clusterSlots c buf i n acc).2 = some acc' →
      (scanEntries visit c buf i n acc u).2.1 = acc' := by
  induction n generalizing i acc u with
  | zero => exact ⟨rfl, rfl, fun acc' _ h => Option.some.inj h⟩
  | succ n ih =>
    rw [clusterSlots, scanEntries]
    split_ifs with hlast hdel hlfn
    · exact ⟨rfl, rfl, nofun⟩
    · exact ih _ _ _
    · exact ih _ _ _
    simp only [visitAll]
    generalize visit _ u = r
    obtain ⟨found, u'⟩ := r
    cases found with
    | true => exact ⟨rfl, rfl, nofun⟩
    | false => exact ih _ _ _

/-- The entries of a cluster are the live ones among its slots. -/
theorem mem_clusterSlots {s : Slot} (h : s ∈ (clusterSlots c buf i n acc).1) : s.cluster = c ∧
    ∃ k, i ≤ k ∧ k < i + n ∧ s.offset = k * 32 ∧ s.entry = (fun j => buf (k * 32 + j)) ∧
      Live s.entry := by
  induction n generalizing i acc with
  | zero => cases h
  | succ n ih =>
    have hlater (acc' : LfnAcc) (h : s ∈ (clusterSlots c buf (i + 1) n acc').1) : s.cluster = c ∧
        ∃ k, i ≤ k ∧ k < i + (n + 1) ∧ s.offset = k * 32 ∧
          s.entry = (fun j => buf (k * 32 + j)) ∧ Live s.entry := by
      obtain ⟨hcluster, k, hge, hlt, hrest⟩ := ih h
      exact ⟨hcluster, k, by omega, by omega, hrest⟩
    rw [clusterSlots] at h
    split_ifs at h with hlast hdel hlfn
    · cases h
    · exact hlater _ h
    · exact hlater _ h
    · rcases mem_cons.mp h with rfl | h
      · exact ⟨rfl, i, Nat.le_refl i, by omega, rfl, rfl, hlast, hdel, hlfn⟩
      · exact hlater _ h

/-- The end mark of a cluster does not depend on the long name parts in front of it. -/
theorem clusterSlots_end : (clusterSlots c buf i n acc).2 = none ↔
    ∃ k, i ≤ k ∧ k < i + n ∧ buf (k * 32) = 0 := by
  induction n generalizing i acc with
  | zero => exact ⟨nofun, fun ⟨k, h1, h2, _⟩ => by omega⟩
  | succ n ih =>
    have hlater (hused : buf (i * 32) ≠ 0) : (∃ k, i + 1 ≤ k ∧ k < i + 1 + n ∧ buf (k * 32) = 0) ↔
        ∃ k, i ≤ k ∧ k < i + (n + 1) ∧ buf (k * 32) = 0 := by
      constructor
      · intro ⟨k, hge, hlt, hzero⟩
        exact ⟨k, by omega, by omega, hzero⟩
      · intro ⟨k, hge, hlt, hzero⟩
        have hne : k ≠ i := fun heq => hused (heq ▸ hzero)
        exact ⟨k, by omega, by omega, hzero⟩
    rw [clusterSlots]
    split_ifs with hlast hdel hlfn
    · exact ⟨fun _ => ⟨i, Nat.le_refl i, by omega, hlast⟩, fun _ => rfl⟩
    · exact ih.trans (hlater hlast)
    · exact ih.trans (hlater hlast)
    · exact ih.trans (hlater hlast)

/-! ## 5. Chains -/

/-- The clusters that the links of a table lead to from `c`, up to the first number that is no
    cluster. -/
def Linked (t : Nat → Nat) : Nat → List Nat → Prop
  | c, [] => clusterValid c = false
  | c, x :: cs => c = x ∧ clusterValid x = true ∧ Linked t (t x) cs

namespace Linked

variable {t t' : Nat → Nat}

section

variable (h : Linked t c cs)
include h

theorem unique {cs' : List Nat} (h' : Linked t c cs') : cs = cs' := by
  induction cs generalizing c cs' with
  | nil =>
    cases cs' with
    | nil => rfl
    | cons x cs' =>
      obtain ⟨rfl, hvalid, -⟩ := h'
      rw [show clusterValid c = false from h] at hvalid
      cases hvalid
  | cons x cs ih =>
    obtain ⟨rfl, hvalid, hrest⟩ := h
    cases cs' with
    | nil =>
      rw [show clusterValid c = false from h'] at hvalid
      cases hvalid
    | cons y cs' =>
      obtain ⟨rfl, -, hrest'⟩ := h'
      rw [ih hrest hrest']

/-- Behind a number that is no cluster there is nothing. -/
theorem eq_nil (hc : ¬ 2 ≤ c) : cs = [] := by
  cases cs with
  | nil => rfl
  | cons y cs =>
    obtain ⟨rfl, hvalid, -⟩ := h
    exact absurd (clusterValid_ge hvalid) hc

theorem valid {x : Nat} (hx : x ∈ cs) : clusterValid x = true := by
  induction cs generalizing c with
  | nil => cases hx
  | cons y cs ih =>
    rcases mem_cons.mp hx with rfl | hx
    · exact h.2.1
    · exact ih h.2.2 hx

/-- The chain from a cluster of a chain is its end. -/
theorem suffix {x : Nat} (hx : x ∈ cs) : ∃ l r, cs = l ++ r ∧ Linked t x r := by
  induction cs generalizing c with
  | nil => cases hx
  | cons y cs ih =>
    rcases mem_cons.mp hx with rfl | hx
    · have hstart := h.1
      exact ⟨[], x :: cs, rfl, hstart ▸ h⟩
    · obtain ⟨l, r, hcs, hr⟩ := ih h.2.2 hx
      exact ⟨y :: l, r, by rw [hcs, cons_append], hr⟩

/-- **A chain that ends has no cluster twice.** -/
theorem nodup : cs.Nodup := by
  induction cs generalizing c with
  | nil => exact nodup_nil
  | cons x cs ih =>
    refine nodup_cons.mpr ⟨fun hx => ?_, ih h.2.2⟩
    obtain ⟨l, r, hcs, hr⟩ := suffix h.2.2 hx
    have hstart := h.1
    have hlen := congrArg List.length (unique h (hstart ▸ hr))
    rw [hcs, length_cons, length_append] at hlen
    omega

/-- A chain is read from its own entries. -/
theorem congr (hsame : ∀ x ∈ cs, t' x = t x) : Linked t' c cs := by
  induction cs generalizing c with
  | nil => exact h
  | cons y cs ih =>
    obtain ⟨rfl, hvalid, hrest⟩ := h
    refine ⟨rfl, hvalid, ?_⟩
    rw [hsame c mem_cons_self]
    exact ih hrest fun x hx => hsame x (mem_cons_of_mem c hx)

end

end Linked

theorem chain_iff_linked : Chain v d c cs ↔ Linked (entryAt v d) c cs := by
  induction cs generalizing c with
  | nil => exact Iff.rfl
  | cons x cs ih => exact and_congr_right fun _ => and_congr_right fun _ => ih

theorem Chain.unique {cs' : List Nat} (h : Chain v d c cs) (h' : Chain v d c cs') : cs = cs' :=
  (chain_iff_linked.mp h).unique (chain_iff_linked.mp h')

theorem Chain.valid (h : Chain v d c cs) {x : Nat} (hx : x ∈ cs) : clusterValid x = true :=
  (chain_iff_linked.mp h).valid hx

theorem Chain.nodup (h : Chain v d c cs) : cs.Nodup := (chain_iff_linked.mp h).nodup

/-! ## 6. One round of the scan -/

theorem visitAll_cons_of_true {s : Slot} (h : (visit s u).1 = true) :
    visitAll visit (s :: l) u = (true, (visit s u).2) := if_pos h

theorem visitAll_cons_of_false {s : Slot} (h : (visit s u).1 = false) :
    visitAll visit (s :: l) u = visitAll visit l (visit s u).2 := if_neg (by simp [h])

/-- What every call keeps. -/
theorem visitAll_inv {J : σ → Prop} (hvisit : ∀ s ∈ l, ∀ u, J u → J (visit s u).2) (hu : J u) :
    J (visitAll visit l u).2 := by
  induction l generalizing u with
  | nil => exact hu
  | cons s l ih =>
    have hs := hvisit s mem_cons_self u hu
    cases hfound : (visit s u).1 with
    | true => rwa [visitAll_cons_of_true hfound]
    | false =>
      rw [visitAll_cons_of_false hfound]
      exact ih (fun x hx => hvisit x (mem_cons_of_mem s hx)) hs

theorem visitAll_append_of_true (h : (visitAll visit l u).1 = true) :
    visitAll visit (l ++ l') u = visitAll visit l u := by
  induction l generalizing u with
  | nil => cases h
  | cons s l ih =>
    rw [cons_append]
    cases hs : (visit s u).1 with
    | true => rw [visitAll_cons_of_true hs, visitAll_cons_of_true hs]
    | false =>
      rw [visitAll_cons_of_false hs] at h
      rw [visitAll_cons_of_false hs, visitAll_cons_of_false hs, ih h]

theorem visitAll_append_of_false (h : (visitAll visit l u).1 = false) :
    visitAll visit (l ++ l') u = visitAll visit l' (visitAll visit l u).2 := by
  induction l generalizing u with
  | nil => rfl
  | cons s l ih =>
    rw [cons_append]
    cases hs : (visit s u).1 with
    | true =>
      rw [visitAll_cons_of_true hs] at h
      cases h
    | false =>
      rw [visitAll_cons_of_false hs] at h
      rw [visitAll_cons_of_false hs, visitAll_cons_of_false hs, ih h]

/-- One round of the outer loop. -/
theorem run_round (hvalid : clusterValid c = true)
    (hfits : d.Fits (clusterToLba v c) v.sectorsPerCluster) :
    run (readDirectoryLoop v c visit (fuel + 1) acc u) d =
      if (visitAll visit (diskSlots v d c acc).1 u).1 then
        some (visitAll visit (diskSlots v d c acc).1 u, d)
      else match (diskSlots v d c acc).2 with
        | none => some (visitAll visit (diskSlots v d c acc).1 u, d)
        | some acc' =>
          run (readDirectoryLoop v c visit fuel acc'
            (visitAll visit (diskSlots v d c acc).1 u).2) d := by
  obtain ⟨hout, hu, hacc⟩ := scanEntries_eq visit c (d.sector (clusterToLba v c)) 0 v.slots acc u
  rw [readDirectoryLoop, if_pos hvalid, run_bind_of run_blockRead, Disk.read_of_fits hfits]
  rw [← diskSlots] at hout hu hacc
  dsimp only
  generalize scanEntries visit c (d.sector (clusterToLba v c)) 0 v.slots acc u = r at hout hu hacc ⊢
  obtain ⟨out, acc', u'⟩ := r
  generalize hw : visitAll visit (diskSlots v d c acc).1 u = w at hout hu ⊢
  obtain ⟨found, u''⟩ := w
  obtain rfl : out = outcomeOf found (diskSlots v d c acc).2 := hout
  obtain rfl : u' = u'' := hu
  cases found with
  | true => rfl
  | false =>
    cases hrest : (diskSlots v d c acc).2 with
    | none => rfl
    | some rest =>
      obtain rfl : acc' = rest := hacc rest (by rw [hrest]; rfl) hrest
      rfl

theorem mem_chainSlots {s : Slot} (h : s ∈ chainSlots v d cs acc) : s.cluster ∈ cs := by
  induction cs generalizing acc with
  | nil => cases h
  | cons c cs ih =>
    rw [chainSlots] at h
    rcases mem_append.mp h with h | h
    · exact (mem_clusterSlots h).1 ▸ mem_cons_self
    cases hrest : (diskSlots v d c acc).2 with
    | none =>
      rw [hrest] at h
      cases h
    | some acc' =>
      rw [hrest] at h
      exact mem_cons_of_mem c (ih h)

theorem diskSlots_end : (diskSlots v d c acc).2 = none ↔
    ∃ k, k < v.slots ∧ d.sector (clusterToLba v c) (k * 32) = 0 := by
  rw [diskSlots, clusterSlots_end]
  simp only [Nat.zero_le, true_and, Nat.zero_add]

end DyntKernel.Fat
