import Xrpl.Consensus.Stability
import Xrpl.Consensus.ValidationsTrust
import Xrpl.Consensus.DisputeRuns
import Xrpl.Ledger.DirectoryRuns
import Xrpl.NFT.Repair
import Xrpl.SHAMap.DeltaExact
import Xrpl.SHAMap.GetProofPath
import Xrpl.SHAMap.Traversal
import Xrpl.Overlay.Squelching
import Xrpl.Amendments.Voting
import Xrpl.MPT.SupplyRuns
import Xrpl.MPT.SandboxRuns
import Xrpl.Validators.Revocation
import Xrpl.Ledger.SkipList
import Xrpl.Validators.NegativeUNLRuns
import Xrpl.Basics.IntrusiveRefCounts
import Xrpl.Core.JobQueue
import Xrpl.TxQ.FeeSeries
import Xrpl.TxQ.Limit
import Xrpl.NodeStore.Codec
import Xrpl.Consensus.CensorshipDetector
import Xrpl.Protocol.PathSet
import Xrpl.Protocol.Canonicality
