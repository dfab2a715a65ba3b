import TinyFile.Splice
import TinyFile.Machine
import TinyFile.Fairness
import TinyFile.ShmSegment
import TinyFile.SegmentAccess
import TinyFile.FlatBuffer
import TinyFile.ShmManager
import TinyFile.Acquisition
import TinyFile.ClientAccounting
import TinyFile.PoolLayout
import TinyFile.ResponseSize
import TinyFile.GrantableSize
import TinyFile.Allocator
import TinyFile.Transfer
import TinyFile.ChunkLoop
import TinyFile.TransferCorrect
import TinyFile.HostilePeer
import TinyFile.System
import TinyFile.SystemInvariant
import TinyFile.Exclusivity
import TinyFile.ClientPool
import TinyFile.WaitGraph
import TinyFile.InFlight
import TinyFile.CircularWait
import TinyFile.Servicer
import TinyFile.ServicerBookkeeping
import TinyFile.Service
import TinyFile.SoundScheduler
import TinyFile.Delivery
import TinyFile.CreditOrder
import TinyFile.CreditAccounting
import TinyFile.ByteFairness
import TinyFile.RawBuffer
import TinyFile.Messages
import TinyFile.SharedView
import TinyFile.CyclicScan
import TinyFile.RoundRobin
import TinyFile.RoundRobinFairness
import TinyFile.RoundRobinShare
import TinyFile.ConditionVariable
import TinyFile.Wakeup
import TinyFile.ServiceSteps
import TinyFile.Handshake
import TinyFile.CreditRace
import TinyFile.PriorityShare
import TinyFile.WorkerPool
import TinyFile.ClientLife
import TinyFile.Departure
import TinyFile.Registry
import TinyFile.RegistryRefinement
import TinyFile.Flow
import TinyFile.RequestFlow
import TinyFile.QueueRoom
import TinyFile.TransferLength
import TinyFile.FairRun
import TinyFile.NoFault
import TinyFile.Whereabouts
import TinyFile.Work
import TinyFile.Completion
import TinyFile.Filing
import TinyFile.ServiceFlow
import TinyFile.Dismissal
import TinyFile.ByteCap
import TinyFile.NamedObjects
import TinyFile.NamedSemaphores
import TinyFile.SemaphoreLinks
import TinyFile.SemaphoreHandles
import TinyFile.SemaphoreRefinement
import TinyFile.ClientCode
import TinyFile.ClientRefinement
import TinyFile.App
import TinyFile.HeldResults
import TinyFile.AppChecks
import TinyFile.ScheduledSystem
import TinyFile.ScheduledRefinement
