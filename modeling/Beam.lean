import Beam.Lib.BitString
import Beam.Lib.MountainRange
import Beam.Lib.BigEndian
import Beam.Lib.SortedMerge
import Beam.RadixTree.Basic
import Beam.RadixTree.Shape
import Beam.RadixTree.Goto
import Beam.RadixTree.Split
import Beam.RadixTree.Delete
import Beam.RadixTree.Traverse
import Beam.RadixTree.FiniteSet
import Beam.RadixTree.Hash
import Beam.RadixTree.Canonical
import Beam.RadixTree.HashTree
import Beam.RadixTree.Entries
import Beam.Utxo.Tree
import Beam.Node.Assets
import Beam.Merkle.Mmr
import Beam.Merkle.MmrSpec
import Beam.Merkle.Stores
import Beam.Merkle.CompactMmr
import Beam.Merkle.DistributedMmr
import Beam.Merkle.FixedMmr
import Beam.Merkle.Agreement
import Beam.Core.UintBig
import Beam.Core.CutThrough
import Beam.Core.Emission
import Beam.Core.Difficulty
import Beam.Lib.ByteStream
import Beam.Core.Aes
import Beam.P2p.ProtocolBase
import Beam.P2p.MsgReader
import Beam.P2p.MsgSerializer
import Beam.Core.Proto
import Beam.Core.ProtoRoundTrip
import Beam.Utxo.Key
import Beam.Utxo.Serialize
import Beam.Core.TxCompare
import Beam.Node.StemTimer
import Beam.Lib.MergeStack
import Beam.Node.Rollback
import Beam.Node.RecentStates
import Beam.Io.BufferChain
import Beam.Core.UintBigMul
import Beam.Node.StreamMmr
import Beam.Utxo.Compact
import Beam.Core.Target
import Beam.Merkle.ProofPath
import Beam.Merkle.MultiProof
import Beam.Merkle.HardProof
import Beam.Core.PeerManager
import Beam.Core.PeerManagerInv
import Beam.Core.PeerUpdate
