import ConcurrentProgramming.Framework.Transition
import ConcurrentProgramming.Framework.LockQueue
import ConcurrentProgramming.Framework.LockManager
import ConcurrentProgramming.Framework.VersionHistory
import ConcurrentProgramming.Framework.FirstSeen
import ConcurrentProgramming.Framework.Linearizability
import ConcurrentProgramming.Framework.SortedLinks
import ConcurrentProgramming.Framework.Threads
import ConcurrentProgramming.Framework.Sequential
import ConcurrentProgramming.Framework.ArrivalLog
import ConcurrentProgramming.Framework.FifoMutex
import ConcurrentProgramming.Framework.ThreadWork
import ConcurrentProgramming.Framework.CInt
import ConcurrentProgramming.Framework.Decimal
import ConcurrentProgramming.Framework.Progress
import ConcurrentProgramming.Framework.ClientHistory
import ConcurrentProgramming.Project1.Trie
import ConcurrentProgramming.Project1.TriePrefixes
import ConcurrentProgramming.Project1.Search
import ConcurrentProgramming.Project1.Handshake
import ConcurrentProgramming.Project2.DirectedGraph
import ConcurrentProgramming.Project2.LockTable
import ConcurrentProgramming.Project2.LockSpec
import ConcurrentProgramming.Project2.UnlockSpec
import ConcurrentProgramming.Project2.LockClients
import ConcurrentProgramming.Project2.LockInvariant
import ConcurrentProgramming.Project2.LockProperties
import ConcurrentProgramming.Project2.NoOvertaking
import ConcurrentProgramming.Project2.Transaction
import ConcurrentProgramming.Project2.TransactionLocks
import ConcurrentProgramming.Project2.Serializability
import ConcurrentProgramming.Project2.Overflow
import ConcurrentProgramming.Project2.Rollback
import ConcurrentProgramming.Project2.Marking
import ConcurrentProgramming.Project2.MarkingProperties
import ConcurrentProgramming.Project2.TransactionProgress
import ConcurrentProgramming.Project2.RecordTotal
import ConcurrentProgramming.Project2.TestResult
import ConcurrentProgramming.Project3.WFSnapshot
import ConcurrentProgramming.Project3.AtomicSnapshot
import ConcurrentProgramming.Project3.SplitRegisters
import ConcurrentProgramming.Project3.WaitFreeScan
import ConcurrentProgramming.Lab04.PrimeCount
import ConcurrentProgramming.Lab04.PrimeCond
import ConcurrentProgramming.Lab04.CondRounds
import ConcurrentProgramming.Lab04.PrimeSplit
import ConcurrentProgramming.Lab04.PrimeMt
import ConcurrentProgramming.Lab07.ThreadPool
import ConcurrentProgramming.Lab10.ClhLock
import ConcurrentProgramming.Lab10.ClhInvariant
import ConcurrentProgramming.Lab10.ClhProperties
import ConcurrentProgramming.Lab11.ListSet
import ConcurrentProgramming.Lab11.NodeHeap
import ConcurrentProgramming.Lab11.SortedNodes
import ConcurrentProgramming.Lab11.FineGrained
import ConcurrentProgramming.Lab11.HandOverHand
import ConcurrentProgramming.Lab11.FineSteps
import ConcurrentProgramming.Lab11.FineProperties
import ConcurrentProgramming.Lab11.Optimistic
import ConcurrentProgramming.Lab11.OptimisticInvariant
import ConcurrentProgramming.Lab11.OptimisticSteps
import ConcurrentProgramming.Lab11.OptimisticProperties
import ConcurrentProgramming.Lab11.CoarseGrained
import ConcurrentProgramming.Lab11.KeyList
import ConcurrentProgramming.Lab11.CoarseInvariant
import ConcurrentProgramming.Lab11.CoarseSteps
import ConcurrentProgramming.Lab11.CoarseProperties
import ConcurrentProgramming.Lab11.FineSequential
import ConcurrentProgramming.Lab11.ListAgreement
import ConcurrentProgramming.Lab11.Sentinels
import ConcurrentProgramming.Lab13.ConcurrentQueue
import ConcurrentProgramming.Lab13.TicketOrder
import ConcurrentProgramming.Lab13.SlotOwnership
import ConcurrentProgramming.Lab13.ProducerConsumer
import ConcurrentProgramming.Lab13.QueueLaws
import ConcurrentProgramming.Lab13.TicketProgress
import ConcurrentProgramming.Lab13.ProgramInvariant
import ConcurrentProgramming.Lab13.ProgramProperties
import ConcurrentProgramming.Project1.MemoryProperties
import ConcurrentProgramming.Project1.ProgramProperties
import ConcurrentProgramming.Project3.MainProperties
