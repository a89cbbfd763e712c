import Tos.Concurrent.Worker
import Tos.Crypto.Ecies
import Tos.Utils.RangeDifference
import Tos.Utils.RangeLowest
import Tos.Rlp.Plan
import Tos.Rlp.Index
import Tos.Rlp.Iteration
import Tos.Sdag.Work
import Tos.Sdag.Check
import Tos.Sdag.Switch
import Tos.Sdag.Restart
import Tos.Storage.HexPrefixCodec
import Tos.Storage.TrieRoot
import Tos.Storage.TrieWrap
import Tos.Storage.OverlayAux
import Tos.Eth.Signing
import Tos.Eth.Memo
import Tos.Eth.Modexp
import Tos.Transport.Link
import Tos.Transport.TimeData
import Tos.Transport.Eviction
import Tos.Transport.Ban
import Tos.Transport.Sampling
import Tos.Tvm.Termination
import Tos.Tvm.StackFrame
import Tos.Tvm.Results
import Tos.Account.Identifiers
import Tos.Account.Persistence
