/-
  File:      DyntKernel/Fat/Entries.lean
  Subject:   WRITING DIRECTORY ENTRIES (fs/fat32.c, dir_find_free_slots to create_dir_entries,
             write_dot_entries, mark_entry_deleted).

  * `encodeShortName`, `lfnPartsFor` -- the 8.3 form of a name, and the long name parts it needs;
  * `dirFindFreeSlots` -- a run of free entries, in a new cluster of the directory if there is none;
  * `writeDirEntryAt`, `createDirEntries`, `writeDotEntries`, `markEntryDeleted` -- each reads a
    cluster of the directory, changes entries in it and writes it back.
-/
import DyntKernel.Fat.Directory

namespace DyntKernel.Fat

open Library Prog

/-! ## 1. Short names -/

def validShortChar (c : UInt8) : Bool :=
  ('A'.toUInt8 ≤ c ∧ c ≤ 'Z'.toUInt8) ∨ ('0'.toUInt8 ≤ c ∧ c ≤ '9'.toUInt8) ∨ c = '_'.toUInt8 ∨
    c = '-'.toUInt8 ∨ c = '!'.toUInt8 ∨ c = '$'.toUInt8 ∨ c = '^'.toUInt8

/-- `ext_start`: the last dot of a name. -/
def lastDot : List UInt8 → Option Nat
  | [] => none
  | c :: cs =>
    match lastDot cs with
    | some i => some (i + 1)
    | none => if c = '.'.toUInt8 then some 0 else none

/-- A field of a short name, filled up with blanks. -/
def padField (n : Nat) (l : List UInt8) : List UInt8 := l ++ List.replicate (n - l.length) 0x20

/-- `encode_short_name`: eight characters up to the last dot, and three after it. -/
def encodeShortName (name : List UInt8) : Option (List UInt8) :=
  let dot := lastDot name
  let base := (name.take (min 8 (dot.getD 8))).map upper
  let ext := ((dot.elim [] fun i => name.drop (i + 1)).take 3).map upper
  if dot = some 0 then none
  else if ¬ base.all validShortChar then none
  else if base = [] then none
  else if ¬ ext.all validShortChar then none
  else some (padField 8 base ++ padField 3 ext)

def lfnChecksum (short : List UInt8) : UInt8 :=
  short.foldl (fun sum c => ((sum &&& 1) <<< 7) + (sum >>> 1) + c) 0

/-- The name is its own short form. -/
def shortIsExact (name : List UInt8) : Bool := name.all fun c => c = '.'.toUInt8 ∨ validShortChar c

/-- `lfn_parts_for`: 0 when the short name is enough, and when there is none. -/
def lfnPartsFor (name : List UInt8) : Nat :=
  if (encodeShortName name).isNone then 0
  else if shortIsExact name then 0
  else lfnParts name.length

/-! ## 2. Free entries -/

/-- The loop over the `n` entries from `i` on: the first run of `slots` free ones, by its offset. -/
def findRun (buf : Nat → UInt8) (slots : Nat) : Nat → Nat → Nat → Option Nat
  | _, 0, _ => none
  | i, n + 1, run =>
    if buf (i * 32) = 0x00 ∨ buf (i * 32) = 0xE5 then
      if run + 1 = slots then some ((i - (slots - 1)) * 32)
        else findRun buf slots (i + 1) n (run + 1)
    else findRun buf slots (i + 1) n 0

/-- The outer loop of `dir_find_free_slots`: a place, or the last cluster of the chain. -/
def findSlotsLoop (v : Volume) (slots : Nat) : Nat → Nat → Nat → Io (Sum (Nat × Nat) Nat)
  | 0, _, _ => .hang
  | fuel + 1, cluster, last => do
    if clusterValid cluster then
      match ← blockRead (clusterToLba v cluster) v.sectorsPerCluster with
      | none => pure (.inr last)
      | some buf =>
        match findRun buf slots 0 v.slots 0 with
        | some offset => pure (.inl (cluster, offset))
        | none => findSlotsLoop v slots fuel (← fatReadEntry v cluster) cluster
    else pure (.inr last)

/-- The end of `dir_find_free_slots`: a new cluster behind `last`. -/
def growDirectory (v : Volume) (last : Nat) : Io (Option (Nat × Nat)) := do
  let newcl ← allocCluster v
  if newcl = 0 then pure none
  else if ← fatWriteEntry v last newcl then
    if ← blockWrite .data (clusterToLba v newcl) v.sectorsPerCluster (fun _ => 0) then
      pure (some (newcl, 0))
    else
      freeChain v newcl
      pure none
  else
    freeChain v newcl
    pure none

def dirFindFreeSlots (v : Volume) (fuel dirCluster slots : Nat) : Io (Option (Nat × Nat)) := do
  match ← findSlotsLoop v slots fuel dirCluster dirCluster with
  | .inl place => pure (some place)
  | .inr last => growDirectory v last

/-! ## 3. Entries -/

/-- The fields of an 8.3 entry behind its name. -/
def stampEntry (buf : Nat → UInt8) (offset firstCluster size : Nat) (isDir : Bool) : Nat → UInt8 :=
  let buf := Function.update buf (offset + 11) (if isDir then attrDirectory else 0x20)
  let buf := writeLE buf (offset + 20) 2 (firstCluster >>> 16)
  let buf := writeLE buf (offset + 26) 2 firstCluster
  writeLE buf (offset + 28) 4 size

/-- A list of bytes at an offset. -/
def putBytes (buf : Nat → UInt8) (offset : Nat) (l : List UInt8) : Nat → UInt8 :=
  blit buf offset l.length fun j => l.getD j 0

def writeDirEntryAt (v : Volume) (cluster offset : Nat) (name : List UInt8)
    (firstCluster size : Nat) (isDir : Bool) : Io Bool := do
  match ← blockRead (clusterToLba v cluster) v.sectorsPerCluster with
  | none => pure false
  | some buf =>
    match encodeShortName name with
    | none => pure false
    | some short =>
      blockWrite .data (clusterToLba v cluster) v.sectorsPerCluster
        (stampEntry (putBytes buf offset short) offset firstCluster size isDir)

/-- `create_dir_entries`; `rest` is the memory behind the name. -/
def createDirEntries (v : Volume) (cluster offset : Nat) (name : List UInt8) (rest : Nat → UInt8)
    (firstCluster size : Nat) (isDir : Bool) : Io Bool := do
  if lfnPartsFor name = 0 then writeDirEntryAt v cluster offset name firstCluster size isDir
  else
    match ← blockRead (clusterToLba v cluster) v.sectorsPerCluster with
    | none => pure false
    | some buf =>
      let short := (encodeShortName name).getD []
      match lfnWriteParts (cstr name rest) name.length offset (lfnChecksum short) buf with
      | none => pure false
      | some buf =>
        blockWrite .data (clusterToLba v cluster) v.sectorsPerCluster
          (stampEntry (putBytes buf offset short) offset firstCluster size isDir)

/-- A name and a cluster in an entry of `write_dot_entries`. -/
def putDot (buf : Nat → UInt8) (offset : Nat) (name : List UInt8) (cluster : Nat) : Nat → UInt8 :=
  let buf := putBytes buf offset name
  let buf := Function.update buf (offset + 11) attrDirectory
  let buf := writeLE buf (offset + 20) 2 (cluster >>> 16)
  writeLE buf (offset + 26) 2 cluster

def writeDotEntries (v : Volume) (dirCluster parentCluster : Nat) : Io Bool :=
  blockWrite .data (clusterToLba v dirCluster) v.sectorsPerCluster
    (putDot (putDot (fun _ => 0) 0 ['.'.toUInt8] dirCluster) 32
      ['.'.toUInt8, '.'.toUInt8] parentCluster)

/-- The loop of `mark_entry_deleted` over the `n` entries above `offset`. -/
def markParts (buf : Nat → UInt8) : Nat → Nat → Nat → UInt8
  | 0, _ => buf
  | n + 1, offset =>
    if buf (offset - 32 + 11) = attrLfn then
      markParts (Function.update buf (offset - 32) 0xE5) n (offset - 32)
    else buf

def markEntryDeleted (v : Volume) (cluster offset : Nat) : Io Bool := do
  match ← blockRead (clusterToLba v cluster) v.sectorsPerCluster with
  | none => pure false
  | some buf =>
    if buf offset = 0x00 ∨ buf offset = 0xE5 then pure true
    else
      blockWrite .data (clusterToLba v cluster) v.sectorsPerCluster
        (markParts (Function.update buf offset 0xE5) (offset / 32) offset)

end DyntKernel.Fat
