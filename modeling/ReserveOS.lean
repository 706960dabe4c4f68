import ReserveOS.Correctness.AddressSlots
import ReserveOS.Correctness.Atomicity
import ReserveOS.Correctness.AutoClaim
import ReserveOS.Correctness.Checkpoints
import ReserveOS.Correctness.DrainOrder
import ReserveOS.Correctness.FaceValue
import ReserveOS.Correctness.FeeReport
import ReserveOS.Correctness.FeeSplit
import ReserveOS.Correctness.FetchWindow
import ReserveOS.Correctness.Filter
import ReserveOS.Correctness.FinalizedGuard
import ReserveOS.Correctness.ForkPath
import ReserveOS.Correctness.HeaderIndex
import ReserveOS.Correctness.Headers
import ReserveOS.Correctness.Inventory
import ReserveOS.Correctness.Keyvault
import ReserveOS.Correctness.Limiter
import ReserveOS.Correctness.MineOne
import ReserveOS.Correctness.Observers
import ReserveOS.Correctness.PeerRecords
import ReserveOS.Correctness.Reconstruction
import ReserveOS.Correctness.Reorg
import ReserveOS.Correctness.Retarget
import ReserveOS.Correctness.RunAlone
import ReserveOS.Correctness.Scores
import ReserveOS.Correctness.Slashing
import ReserveOS.Correctness.Template
import ReserveOS.Correctness.TipCoherence
import ReserveOS.Correctness.TxRoot
import ReserveOS.Correctness.VoteMessage
import ReserveOS.Network.CatchUp
import ReserveOS.Network.OneChain
import ReserveOS.Network.Progress
import ReserveOS.Network.Sessions
import ReserveOS.Network.TxRelay
