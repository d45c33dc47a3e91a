import Gcgos.Lib.Act
import Gcgos.Lib.Bytes
import Gcgos.Lib.Arm
import Gcgos.Lib.Mirror
import Gcgos.Fs.Layout
import Gcgos.Fs.Bio
import Gcgos.Fs.Bitmap
import Gcgos.Fs.Inode
import Gcgos.Fs.File
import Gcgos.Fs.Namei
import Gcgos.Fs.Locks
import Gcgos.Fs.Balance
import Gcgos.Fs.Stale
import Gcgos.Fs.Read
import Gcgos.Fs.Direct
import Gcgos.Lib.Run
import Gcgos.Lib.Pool
import Gcgos.Fs.Geometry
import Gcgos.Fs.Isolation
import Gcgos.Fs.Table
import Gcgos.Fs.BlockSet
import Gcgos.Fs.Delivery
import Gcgos.Fs.Lookup
import Gcgos.Fs.Resolve
import Gcgos.Fs.Orderly
import Gcgos.Fs.Update
import Gcgos.Fs.Cache
import Gcgos.Fs.Chunks
import Gcgos.Fs.Create
import Gcgos.Fs.Ialloc
import Gcgos.Fs.MaxFile
import Gcgos.Fs.Mknod
import Gcgos.Fs.Persist
import Gcgos.Fs.Console
import Gcgos.Fs.Volume
import Gcgos.Mkfs.Image
import Gcgos.Mkfs.Filed
import Gcgos.Mkfs.Append
import Gcgos.Mkfs.Calls
import Gcgos.Mkfs.Main
import Gcgos.Mkfs.Positions
import Gcgos.Kernel.ExecFile
import Gcgos.BlockMap
import Gcgos.Names
import Gcgos.Kernel.Syscall
import Gcgos.Kernel.Tables
import Gcgos.Kernel.Mapping
import Gcgos.Kernel.Wait
import Gcgos.Kernel.Exhaust
import Gcgos.Kernel.Chunks
import Gcgos.Kernel.Cat
import Gcgos.Kernel.UserMemory
import Gcgos.Kernel.Arrays
import Gcgos.Kernel.Transfer
import Gcgos.Kernel.AddressSpace
import Gcgos.Kernel.Fork
import Gcgos.Kernel.Tree
import Gcgos.Kernel.Reclaim
import Gcgos.Kernel.References
import Gcgos.Kernel.Locks
import Gcgos.Kernel.Return
import Gcgos.Kernel.Switch
import Gcgos.Kernel.Passing
import Gcgos.Kernel.Inside
import Gcgos.Kernel.Stores
import Gcgos.Kernel.ArgBlock
import Gcgos.Kernel.Load
import Gcgos.Kernel.ArgStack
import Gcgos.Kernel.Program
import Gcgos.Kernel.Outside
import Gcgos.Kernel.Segments
import Gcgos.Kernel.Reopen
import Gcgos.Kernel.Pipe
import Gcgos.Kernel.CatFiles
import Gcgos.Kernel.Boot
import Gcgos.Kernel.Launch
import Gcgos.Kernel.Entry
import Gcgos.Capacity
import Gcgos.Kernel.Allocator
import Gcgos.Smp.Machine
import Gcgos.Smp.Reap
import Gcgos.Smp.Wakeup
import Gcgos.Smp.Sleep
import Gcgos.FreeBlocks
import Gcgos.Card
import Gcgos.Start
import Gcgos.Lib.Numeral
import Gcgos.Lib.Tally
import Gcgos.Text.Printint
import Gcgos.Text.Printf
import Gcgos.Text.Scan
import Gcgos.Text.Rendered
import Gcgos.Text.Numbers
import Gcgos.Mkfs.Intact
