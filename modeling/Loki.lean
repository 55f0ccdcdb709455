import Loki.Diem.TrustedState
import Loki.Diem.SafetyRules.EpochCoherence
import Loki.Diem.SafetyRules.ExtensionCheck
import Loki.Diem.Agreement.ThreeChain
import Loki.Diem.Agreement.TwoChain
import Loki.Diem.BlockStorage.HighestCertificates
import Loki.Diem.CoreMempool.GetBlock
import Loki.Diem.CoreMempool.Readiness
import Loki.Diem.LeaderReputation
import Loki.Diem.CrusaderFuzzer
import Loki.Fisco.Agreement
import Loki.Fisco.Scheduler.KeyLocks
import Loki.Fisco.Executor.ParallelExecution
import Loki.Fisco.Scheduler.SchedulerImpl
import Loki.Fisco.TxPool
import Loki.Fisco.Executor.ScaleLength
import Loki.Fisco.BlockValidator
import Loki.Fisco.NewView
import Loki.Fisco.FuzzEngine
import Loki.Fabric.Serializability
import Loki.Fabric.CrashFreedom
import Loki.Fabric.PolicyCompleteness
import Loki.Fabric.ProposalVerifier
import Loki.Fabric.Assembler
import Loki.Fisco.NotifySealer
import Loki.Fisco.Scheduler.DAGExecute
import Loki.Fisco.DownloadRequestQueue
import Loki.Fisco.DownloadingQueue
import Loki.Fabric.BlockCutter
import Loki.Diem.CoreMempool.Accounting
import Loki.Geth.TrieEncoding
import Loki.Fabric.VarUint64
import Loki.Fabric.PayloadsBuffer
