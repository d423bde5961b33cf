import Linux011.Lib.Outcome
import Linux011.Lib.RefCount
import Linux011.Lib.Run
import Linux011.Mm.Memory
import Linux011.Mm.View
import Linux011.Mm.Invariant
import Linux011.Mm.Tables
import Linux011.Mm.Pages
import Linux011.Mm.Sharing
import Linux011.Mm.Access
import Linux011.Mm.Fork
import Linux011.Mm.Counting
import Linux011.Mm.AddressSpace
import Linux011.Mm.DirtyBit
import Linux011.Mm.UserAccess
import Linux011.Mm.UserStores
import Linux011.Fs.BlockDev
import Linux011.Fs.Bitmap
import Linux011.Lib.Ownership
import Linux011.Fs.Inode
import Linux011.Fs.Zones
import Linux011.Kernel.Signal
import Linux011.Kernel.WaitQueue
import Linux011.Lib.Ring
import Linux011.Fs.Pipe
import Linux011.Lib.Chain
import Linux011.Blk.Request
import Linux011.Blk.Queues
import Linux011.Fs.FileTable
import Linux011.Fs.Descriptors
import Linux011.Fs.FileRuns
import Linux011.Kernel.Process
import Linux011.Kernel.Family
import Linux011.Kernel.Reaping
import Linux011.Fs.InodeTable
import Linux011.Fs.InodeRuns
import Linux011.Lib.Transfer
import Linux011.Path.Inodes
import Linux011.Path.Namei
import Linux011.Path.Links
import Linux011.Path.Open
import Linux011.Path.InodeRefs
import Linux011.Path.NameiRefs
import Linux011.Path.LinkRefs
import Linux011.Path.OpenRefs
import Linux011.Exec.Image
import Linux011.Fs.FileDev
import Linux011.Mm.VerifyArea
import Linux011.Malloc.Buckets
import Linux011.Malloc.Objects
import Linux011.Malloc.Lists
import Linux011.Malloc.Runs
import Linux011.Chr.Screen
import Linux011.Chr.Console
import Linux011.Chr.Cursor
import Linux011.Mm.Undo
import Linux011.Mm.ForkFailure
import Linux011.Mm.Lifecycle
import Linux011.Fs.Entries
import Linux011.Fs.Creation
import Linux011.Fs.Mkdir
import Linux011.Fs.BufferHeads
import Linux011.Fs.Sync
import Linux011.Kernel.Kill
import Linux011.Fs.Dup
import Linux011.Kernel.InterruptibleQueue
import Linux011.Kernel.Schedule
import Linux011.Kernel.ChildWait
import Linux011.Kernel.Timers
import Linux011.Kernel.TimerRuns
import Linux011.Kernel.Waiting
import Linux011.Kernel.Motors
import Linux011.Exec.Strings
import Linux011.Exec.Stack
import Linux011.Exec.Tables
import Linux011.Exec.Script
import Linux011.Exec.Execve
import Linux011.Exec.Failure
import Linux011.Fs.Truncate
import Linux011.Path.BufferRefs
import Linux011.Blk.Elevator
import Linux011.Path.Access
import Linux011.Blk.Hd
import Linux011.Blk.Transfers
import Linux011.Blk.Floppy
import Linux011.Blk.ErrorHandler
import Linux011.Fs.EmptyInode
import Linux011.Fs.Super
import Linux011.Fs.Getblk
import Linux011.Fs.PipeCopy
import Linux011.Fs.HeldZones
import Linux011.Fs.CreateBlocks
import Linux011.Lib.Doubly
import Linux011.Fs.BufferCalls
import Linux011.Fs.FileBytes
import Linux011.Kernel.Mktime
import Linux011.Kernel.Pids
import Linux011.Kernel.Who
import Linux011.Kernel.Vsprintf
import Linux011.Kernel.Number
import Linux011.Fs.MapBlocks
import Linux011.Chr.SavedCursor
import Linux011.Chr.Scroll
import Linux011.Kernel.FieldWidth
import Linux011.Kernel.FormatPointer
import Linux011.Fs.Directory
import Linux011.Mm.LoadPage
import Linux011.Chr.Respond
import Linux011.Lib.Circular
import Linux011.Lib.Terminated
import Linux011.Fs.BufferLists
import Linux011.Fs.BufferInit
import Linux011.Fs.BlockMap
import Linux011.Lib.Segment
import Linux011.Chr.Terminal
import Linux011.Chr.Picture
import Linux011.Chr.Refinement
import Linux011.Chr.Text
import Linux011.Chr.Sequences
import Linux011.Boot.Bootsect
import Linux011.Boot.Setup
import Linux011.Boot.Head
import Linux011.Exec.Credentials
import Linux011.Path.Jail
