import QubitLock.Library.Run
import QubitLock.Library.Threads
import QubitLock.Library.Simulation
import QubitLock.Library.Refinement
import QubitLock.Library.OrderedMap
import QubitLock.Library.Fifo
import QubitLock.Library.Calls
import QubitLock.Library.Holders
import QubitLock.Monitor.WaiterRegistry
import QubitLock.Monitor.RegistryQueue
import QubitLock.Monitor.Timer
import QubitLock.Monitor.Memory
import QubitLock.Monitor.Wakers
import QubitLock.Monitor.Resources
import QubitLock.Monitor.Client
import QubitLock.Monitor.Ownership
import QubitLock.Monitor.Progress
import QubitLock.Monitor.Core
import QubitLock.Monitor.InnerLocks
import QubitLock.Monitor.InnerAtomicity
import QubitLock.Monitor.Handshake
import QubitLock.Monitor.Broadcast
import QubitLock.Monitor.Calls
import QubitLock.Monitor.History
import QubitLock.Monitor.Permits
import QubitLock.Monitor.Conduct
import QubitLock.Monitor.TimedWait
import QubitLock.Monitor.Expiry
import QubitLock.Monitor.Poison
import QubitLock.Blocking.Program
import QubitLock.Blocking.Calls
import QubitLock.Blocking.Broadcast
import QubitLock.Blocking.Suspension
import QubitLock.Blocking.Notification
import QubitLock.Blocking.WakeSource
import QubitLock.Blocking.Progress
import QubitLock.Blocking.Permits
import QubitLock.Blocking.Atomicity
import QubitLock.Blocking.Outcome
import QubitLock.Blocking.Expiry
import QubitLock.Blocking.GuardSlot
import QubitLock.Blocking.Panics
import QubitLock.Blocking.DeadlineForms
import QubitLock.Tokio.Program
import QubitLock.Tokio.Calls
import QubitLock.Tokio.Broadcast
import QubitLock.Tokio.Permits
import QubitLock.Tokio.Outcome
import QubitLock.Tokio.Atomicity
import QubitLock.Tokio.Expiry
import QubitLock.Tokio.Progress
import QubitLock.Tokio.Refinement
import QubitLock.RegistryOwnership
import QubitLock.TimerExpiry
import QubitLock.PrivateLocks
import QubitLock.Lock.Program
import QubitLock.Lock.Isolation
import QubitLock.Lock.Poison
import QubitLock.Lock.Operations
import QubitLock.Lock.Progress
import QubitLock.Queue.State
import QubitLock.Queue.Program
import QubitLock.Queue.Operations
import QubitLock.Queue.Progress
import QubitLock.Blocking.ProvidedMethods
