import Vprogs.Smt.PrunedHistory
import Vprogs.Smt.MemberIndex
import Vprogs.Lane.BundleRun
import Vprogs.Canonical.NodeLookup
import Vprogs.Scheduler.OrphanPruning
import Vprogs.Scheduler.Restart
import Vprogs.Scheduler.Checkpoints
import Vprogs.Scheduler.Restored
import Vprogs.Scheduler.PauseConflict
import Vprogs.Merkle.StreamingBuilder
import Vprogs.Abi.HostOutputs
import Vprogs.Runtime.SignedPrefix
import Vprogs.Runtime.LockCodec
import Vprogs.Runtime.TxRoundTrip
import Vprogs.Runtime.Threshold
import Vprogs.Aggregate.BundleSafety
import Vprogs.Bridge.Mirror
import Vprogs.Bridge.HonestBundle
import Vprogs.Storage.RingWindow
import Vprogs.Storage.WriteWorker
import Vprogs.Prover.Receipts
import Vprogs.Wallet.FundingExact
