import TagAos.Conc.Run
import TagAos.Conc.Schedule
import TagAos.Conc.RwSem
import TagAos.Conc.WaitQueue
import TagAos.Conc.Census
import TagAos.Conc.Simulation
import TagAos.Conc.Trace
import TagAos.RobinHood.Table
import TagAos.Hashmap.Map
import TagAos.Hashmap.Probing
import TagAos.Hashmap.Refine
import TagAos.Hashmap.Sip
import TagAos.Bytes.Word
import TagAos.Tag.Exec
import TagAos.Tag.Receive
import TagAos.Tag.Send
import TagAos.Tag.System
import TagAos.Tag.Discipline
import TagAos.Tag.Ownership
import TagAos.Tag.Progress
import TagAos.Tag.Epoch
import TagAos.Tag.Message
import TagAos.Tag.Delivery
import TagAos.Tag.AwakeAll
import TagAos.Tag.Exit
import TagAos.Tag.Reclaim
import TagAos.Tag.Renaming
import TagAos.Tag.Slab
import TagAos.Tag.Integrity
import TagAos.Tag.Reaches
import TagAos.Tag.Dropped
import TagAos.Tag.Linked
import TagAos.Tag.Leak
import TagAos.Tag.Generations
import TagAos.Tag.Reuse
import TagAos.Tag.Residue
import TagAos.Tag.Interrupted
import TagAos.Registry.Bitmask
import TagAos.Registry.Calls
import TagAos.Registry.Locks
import TagAos.Registry.Consistency
import TagAos.Registry.Orphans
import TagAos.Registry.Serial
import TagAos.Registry.Allocator
import TagAos.Registry.Growth
import TagAos.Registry.Create
import TagAos.Registry.HashTable
import TagAos.Device.Text
import TagAos.Device.Read
import TagAos.Device.Rows
import TagAos.Device.Offset
import TagAos.Device.Sequential
import TagAos.Device.Buffer
import TagAos.Syscall.Paging
import TagAos.Syscall.PageWalk
import TagAos.Syscall.Discovery
import TagAos.Syscall.ScanReads
import TagAos.Syscall.Search
import TagAos.Syscall.Module
import TagAos.Service.DevRead
import TagAos.Service.System
import TagAos.Service.Locks
import TagAos.Service.Refinement
import TagAos.Service.Lifetime
import TagAos.Service.Waiting
import TagAos.Service.Visit
import TagAos.Service.Audit
import TagAos.Service.Queue
import TagAos.Service.Permission
import TagAos.Service.Accounts
import TagAos.Service.Unload
import TagAos.Service.Drain
import TagAos.Service.OneTag
import TagAos.Service.ReadSees
import TagAos.Service.Refs
import TagAos.Service.Slab
import TagAos.Service.Names
import TagAos.Service.CreateDelete
import TagAos.Service.Beside
import TagAos.Service.Counters
