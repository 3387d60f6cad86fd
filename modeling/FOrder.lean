import FOrder.Futurerd.BagRuns
import FOrder.Futurerd.NonblockClosure
import FOrder.Futurerd.NonblockRows
import FOrder.Futurerd.NonblockRuns
import FOrder.Futurerd.ReachGen
import FOrder.Futurerd.StructuredExact
import FOrder.Lib.TwoOrders
import FOrder.OrderMaint.Omrd
import FOrder.OrderMaint.SplitFaithful
import FOrder.OrderMaint.Query
import FOrder.Rdtool.Arena
import FOrder.Rdtool.OrderOk
import FOrder.Rdtool.OwnFuture
import FOrder.Rdtool.PrecedesSound
import FOrder.Rdtool.SearchExact
import FOrder.Rdtool.StackRuns
import FOrder.Shadow.CheckMemRaces
import FOrder.Shadow.Clear
import FOrder.Shadow.Instrument
import FOrder.Shadow.RaceDetectorRaces
import FOrder.Suspend.DequePoolKept
import FOrder.Suspend.Wakeups
import FOrder.Futurerd.NonblockChain
import FOrder.Rdtool.Stack
import FOrder.Rdtool.StackExact
import FOrder.Rdtool.HashFormed
import FOrder.Rdtool.HashMerge
import FOrder.Rdtool.GroupMerge
import FOrder.Lib.SeriesParallel
import FOrder.Futurerd.NonblockSound
import FOrder.Futurerd.NonblockSoundSync
import FOrder.Futurerd.NonblockSoundRuns
import FOrder.OrderMaint.Label
import FOrder.Futurerd.BitvectorMemory
import FOrder.Futurerd.Bitsums
import FOrder.Lib.Streaks
import FOrder.Futurerd.BitsumsGet
import FOrder.Futurerd.BitsumsMerge
import FOrder.Futurerd.BitsumsSweep
import FOrder.Futurerd.BitsumsSquish
import FOrder.Futurerd.BitsumsExact
import FOrder.Futurerd.BitsumsWide
import FOrder.Lib.StreakGroups
import FOrder.Lib.Simulation
import FOrder.Lib.StoreBuffer
import FOrder.Suspend.TheProtocol
import FOrder.Suspend.TheProtocolKept
import FOrder.Suspend.TheProtocolOwner
import FOrder.Suspend.TheProtocolThief
import FOrder.Suspend.TheProtocolRuns
import FOrder.OrderMaint.Batcher
import FOrder.OrderMaint.BatcherLocks
import FOrder.OrderMaint.BatcherSafe
import FOrder.OrderMaint.BatcherLists
import FOrder.OrderMaint.BatcherRuns
import FOrder.OrderMaint.BatcherTraces
import FOrder.Futurerd.Detector
import FOrder.Futurerd.DetectorChecks
import FOrder.Futurerd.DetectorRaces
import FOrder.Futurerd.DetectorRuns
import FOrder.Futurerd.DetectorSystem
import FOrder.Rdtool.DetectorSystem
