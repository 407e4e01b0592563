import Gookv.AdminReplay
import Gookv.BackwardScan
import Gookv.BoundaryTerms
import Gookv.Cleanup
import Gookv.CliTokens
import Gookv.CommitVerdict
import Gookv.ConflictCheck
import Gookv.DeleteRange
import Gookv.ForwardScan
import Gookv.GcTask
import Gookv.GcTermination
import Gookv.LatchWakeup
import Gookv.LeaseFresh
import Gookv.LockAllocation
import Gookv.LockTtl
import Gookv.LogRecovery
import Gookv.LogWriter
import Gookv.PdBootstrap
import Gookv.PdDeadlock
import Gookv.PdIds
import Gookv.PdMembership
import Gookv.PdProposals
import Gookv.PdRecovery
import Gookv.PdRegionMap
import Gookv.PdSnapshotLog
import Gookv.PdSnapshotState
import Gookv.PessimisticTxn
import Gookv.Rpn
import Gookv.ProposalAcks
import Gookv.RaftKeys
import Gookv.RawCas
import Gookv.RawReplication
import Gookv.RawTtl
import Gookv.ReadBack
import Gookv.ReadIndexBatcher
import Gookv.RegionCache
import Gookv.RegionMembership
import Gookv.Retries
import Gookv.SnapshotInstall
import Gookv.SnapshotRead
import Gookv.SnapshotWire
import Gookv.SplitCheck
import Gookv.SplitHandover
import Gookv.SplitMerge
import Gookv.TableScanRows
import Gookv.TsoIncreasing
import Gookv.TsoRanges
import Gookv.TxnHandle
import Gookv.WriteConflict
import Gookv.WriteReader
