import LTest.Blocking.Mutex
import LTest.Blocking.ReaderWriter
import LTest.Blocking.Wakeups
import LTest.Codegen.Instrumentation
import LTest.Lincheck.FailureCache
import LTest.Lincheck.Prefix
import LTest.Scheduler.Agreement
import LTest.Scheduler.DeadlockRollback
import LTest.Scheduler.DualWakeup
import LTest.Scheduler.Minimization
import LTest.Scheduler.Pct
import LTest.Scheduler.ThreadTables
import LTest.Scheduler.WholeRound
import LTest.Scheduler.Workload
import LTest.Specs.BoundedQueue
import LTest.Specs.FollySharedMutex
import LTest.Specs.LibcoroSharedMutex
import LTest.Specs.RingBuffer
import LTest.Storage.Moves
import LTest.Storage.Refinement
import LTest.Tla.Enumeration
import LTest.Tla.Rounds
import LTest.Wmm.Atomicity
import LTest.Wmm.Consistency
import LTest.Wmm.HappensBefore
import LTest.Wmm.Initial
import LTest.Wmm.RaceFree
import LTest.Wmm.Snapshot
import LTest.Lincheck.Wgl
import LTest.Wmm.SeqCst
