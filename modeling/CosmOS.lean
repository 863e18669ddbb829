import CosmOS.Mm.DeferredRecycle
import CosmOS.Mm.TlbShootdownSafety
import CosmOS.Mm.TlbGenerationSafety
import CosmOS.Sched.LockOrder
import CosmOS.Proc.Orphans
import CosmOS.Cred.Privileges
import CosmOS.PageCache.Eviction
import CosmOS.PageCache.Refinement
import CosmOS.Mm.MapFixed
import CosmOS.Task.Exact
import CosmOS.Task.Exec
import CosmOS.Signal.Hint
import CosmOS.BlockIo.Refinement
import CosmOS.BlockIo.Coherence
import CosmOS.Vfs.Coherence
import CosmOS.Vfs.InodeCache
import CosmOS.Vfs.StatCache
import CosmOS.Vfs.Lookup
import CosmOS.Vfs.Isolation
import CosmOS.PageCache.LockOrder
import CosmOS.Sync.FsSleepMutexKill
import CosmOS.Mm.FrameMerges
import CosmOS.Mm.BitmapLayout
import CosmOS.Mm.HeapWindowRuns
import CosmOS.Sync.FutexTokens
import CosmOS.Sync.WaitSlots
import CosmOS.Fs.Pipe
