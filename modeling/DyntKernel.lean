import DyntKernel.Boot.Multiboot
import DyntKernel.Exec.Relocs
import DyntKernel.Exec.Segments
import DyntKernel.Exec.Users
import DyntKernel.Fat.Aliases
import DyntKernel.Fat.AllocRace
import DyntKernel.Fat.Copies
import DyntKernel.Fat.FailedWrites
import DyntKernel.Fat.FreeSlots
import DyntKernel.Fat.Layout
import DyntKernel.Fat.Mkdir
import DyntKernel.Fat.NameSets
import DyntKernel.Fat.Paths
import DyntKernel.Fat.Remove
import DyntKernel.Fat.Scan
import DyntKernel.Fat.Walks
import DyntKernel.Fat.WellFormed
import DyntKernel.Fat.WriteAt
import DyntKernel.Input.Scancodes
import DyntKernel.Mem.BootMap
import DyntKernel.Mem.Frames
import DyntKernel.Mem.HeapCalls
import DyntKernel.Mem.Ownership
import DyntKernel.Mem.Race
import DyntKernel.Mem.Release
import DyntKernel.Mem.Translate
import DyntKernel.Scheduler.CpuTable
import DyntKernel.Scheduler.Family
import DyntKernel.Scheduler.GsBase
import DyntKernel.Scheduler.Killed
import DyntKernel.Scheduler.Lifetime
import DyntKernel.Scheduler.Links
import DyntKernel.Scheduler.Resume
import DyntKernel.Scheduler.RoundRobin
import DyntKernel.Scheduler.Sleep
import DyntKernel.Scheduler.UserRsp
import DyntKernel.Storage.Gpt
import DyntKernel.Syscall.Listing
import DyntKernel.Tty.Read
import DyntKernel.Vfs.Descriptors
import DyntKernel.Vfs.Mounts
import DyntKernel.Video.Bounds
import DyntKernel.Video.Coherent
import DyntKernel.Video.Split
