import MmorpgServer.RingBuffer.Overwrite
import MmorpgServer.TimeWheel.Lost
import MmorpgServer.MinHeap.Callbacks
import MmorpgServer.MinHeap.Queue
import MmorpgServer.SkipList.Handlers
import MmorpgServer.SkipList.Leak
import MmorpgServer.Timers.Agreement
import MmorpgServer.Timers.Clock
import MmorpgServer.PagePool.Runs
import MmorpgServer.ThreadPool.Shutdown
import MmorpgServer.ConnPool.Sharing
import MmorpgServer.DBConn.Atomicity
import MmorpgServer.ConnPool.Wakeups
import MmorpgServer.ThreadPool.Wakeups
import MmorpgServer.TimeWheel.Conservation
import MmorpgServer.Redis.Handshake
import MmorpgServer.TimeWheel.Cancel
import MmorpgServer.TimeWheel.Lock
import MmorpgServer.TimeWheel.RealTime
import MmorpgServer.PagePool.Ownership
import MmorpgServer.ConnPool.FailedInit
import MmorpgServer.FixedPool.Cells
import MmorpgServer.Redis.Ownership
import MmorpgServer.Redis.Databases
import MmorpgServer.Redis.Replies
import MmorpgServer.Redis.RoundTrip
import MmorpgServer.ConnPool.Repeats
import MmorpgServer.ConnPool.Teardown
import MmorpgServer.ThreadPool.Teardown
import MmorpgServer.PagePool.Capacity
import MmorpgServer.PagePool.Chains
import MmorpgServer.PagePool.Blocks
import MmorpgServer.PagePool.Requests
import MmorpgServer.Redis.Mget
import MmorpgServer.TimeWheel.Cascade
import MmorpgServer.Redis.Pipeline
import MmorpgServer.Redis.Callbacks
import MmorpgServer.Redis.PubSub
import MmorpgServer.Coroutine.Runs
import MmorpgServer.Redis.SplitArgs
import MmorpgServer.Redis.SdsRep
import MmorpgServer.FixedPool.Counters
import MmorpgServer.FreeList.Runs
