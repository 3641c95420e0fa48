import ShellOs.Lib.WriteBack
import ShellOs.Lib.LittleEndian
import ShellOs.Lib.Store
import ShellOs.Lib.BlockTree
import ShellOs.FileSystem.Cache
import ShellOs.FileSystem.Inode
import ShellOs.FileSystem.Transparent
import ShellOs.FileSystem.BlockMap
import ShellOs.FileSystem.FreeMap
import ShellOs.FileSystem.Reserve
import ShellOs.FileSystem.Content
import ShellOs.Lib.GrowArray
import ShellOs.FileSystem.GrowableFile
import ShellOs.FileSystem.Files
import ShellOs.FileSystem.Release
import ShellOs.FileSystem.Directory
import ShellOs.FileSystem.Filesys
import ShellOs.FileSystem.TransparentCalls
import ShellOs.Lib.SlotMap
import ShellOs.FileSystem.Persistence
import ShellOs.FileSystem.FiniteMap
import ShellOs.FileSystem.OpenFiles
import ShellOs.FileSystem.DataSectors
import ShellOs.FileSystem.Device
import ShellOs.FileSystem.PartitionTable
import ShellOs.FileSystem.Room
import ShellOs.FileSystem.FailedWrite
import ShellOs.FileSystem.Reservation
import ShellOs.FileSystem.CopyOut
import ShellOs.FileSystem.StaleEntries
import ShellOs.FileSystem.FindFile
import ShellOs.FileSystem.Search
import ShellOs.FileSystem.FreeRuns
import ShellOs.FileSystem.PastEnd
import ShellOs.FileSystem.Listing
import ShellOs.FileSystem.InodeLifetime
import ShellOs.FileSystem.NamesAgree
import ShellOs.FileSystem.Cursors
import ShellOs.FileSystem.Commands
import ShellOs.FileSystem.Fragmentation
import ShellOs.FileSystem.SplitPath
import ShellOs.FileSystem.ClockHand
import ShellOs.FileSystem.TableRefinement
import ShellOs.Kernel.Aging
import ShellOs.Kernel.VariableStore
import ShellOs.Kernel.ScriptLines
import ShellOs.Kernel.FreeFrames
import ShellOs.Kernel.OneLiner
import ShellOs.Kernel.PageFault
import ShellOs.Paging.CommandLine
import ShellOs.Paging.Replacement
import ShellOs.Paging.VariableMap
import ShellOs.Paging.Preload
import ShellOs.Paging.Exec
import ShellOs.Paging.Scheduler
import ShellOs.Paging.Turn
import ShellOs.Paging.Completion
import ShellOs.Paging.Policies
import ShellOs.Paging.Livelock
import ShellOs.Lib.BlockOrder
import ShellOs.FileSystem.Placement
import ShellOs.Kernel.RoundRobin
import ShellOs.Kernel.FramePlaces
import ShellOs.Kernel.LastFrame
import ShellOs.Kernel.WholeLines
import ShellOs.FileSystem.Accounting
import ShellOs.FileSystem.SameFiles
import ShellOs.FileSystem.Gaps
import ShellOs.FileSystem.Refinement
import ShellOs.FileSystem.Restart
import ShellOs.Lib.NaturalMerge
import ShellOs.FileSystem.ListRefinement
