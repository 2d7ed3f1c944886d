import NimbleChain.HotStuff.Cache
import NimbleChain.HotStuff.LockSafety
import NimbleChain.HotStuff.FastSafety
import NimbleChain.HotStuff.ExecutionOrder
import NimbleChain.HotStuff.BlockEncoding
import NimbleChain.HotStuff.EventLoop
import NimbleChain.HotStuff.VoteOrder
import NimbleChain.HotStuff.ViewChange
import NimbleChain.HotStuff.Voting
import NimbleChain.HotStuff.Pruning
import NimbleChain.HotStuff.CommandExecution
import NimbleChain.HotStuff.WireSafety
import NimbleChain.HotStuff.ViewDuration
import NimbleChain.HotStuff.LeaderRotation
import NimbleChain.HotStuff.Handel
import NimbleChain.HotStuff.Welford
import NimbleChain.Tendermint.FilePV
import NimbleChain.Tendermint.ProposerRotation
import NimbleChain.Tendermint.LightDetector
import NimbleChain.Tendermint.Wal
import NimbleChain.Tendermint.BlockStore
import NimbleChain.Tendermint.BlockTime
import NimbleChain.Tendermint.EvidenceSoundness
import NimbleChain.Tendermint.FramePadding
import NimbleChain.Tendermint.SecretStream
import NimbleChain.Tendermint.FirstTimeout
import NimbleChain.Tendermint.Spc
import NimbleChain.Tendermint.PccController
