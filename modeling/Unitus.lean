import Unitus.Lib.Except
import Unitus.Lib.EStateM
import Unitus.Arith.BaseUint
import Unitus.Arith.Compact
import Unitus.Primitives.Transaction
import Unitus.Primitives.Serialize
import Unitus.Primitives.PureHeader
import Unitus.Chain.BlockIndex
import Unitus.Chain.Params
import Unitus.Pow.NextWork
import Unitus.Pow.Retarget
import Unitus.AuxPow.Check
import Unitus.Validation.Headers
import Unitus.Lib.MerkleTree
import Unitus.Lib.MerkleMutation
import Unitus.Consensus.Merkle
import Unitus.Consensus.MerkleCorrect
import Unitus.AuxPow.MerkleBranch
import Unitus.AuxPow.Complete
import Unitus.Consensus.Mutation
import Unitus.Script.Script
import Unitus.Script.SigHash
import Unitus.Script.ScriptNum
import Unitus.Script.Interpreter
import Unitus.Script.Verify
import Unitus.Script.SoftFork
import Unitus.Script.SigHashCorrect
import Unitus.Script.SigHashOld
import Unitus.Container.Prevector
import Unitus.Container.PrevectorCorrect
import Unitus.Consensus.VersionBits
import Unitus.Consensus.VersionBitsCorrect
import Unitus.Lib.Codec
import Unitus.Primitives.Block
import Unitus.Primitives.Unserialize
import Unitus.Primitives.SerializeCorrect
import Unitus.Primitives.VarInt
import Unitus.Script.SignatureEncoding
import Unitus.Script.ScriptNumCorrect
import Unitus.Script.FindAndDeleteCorrect
import Unitus.Arith.BaseUintCorrect
import Unitus.Arith.CompactCorrect
import Unitus.Chain.Work
import Unitus.Primitives.Coins
import Unitus.Validation.TxInputs
import Unitus.Primitives.Compressor
import Unitus.Primitives.CompressorCorrect
import Unitus.Validation.TxInputsCorrect
import Unitus.Primitives.CoinsSerialize
import Unitus.Lib.Lists
import Unitus.Primitives.CoinsSerializeCorrect
import Unitus.Net.BlockEncodings
import Unitus.Chain.CChain
import Unitus.Chain.CChainCorrect
import Unitus.Net.RollingBloom
import Unitus.Net.RollingBloomCorrect
import Unitus.Chain.SkipList
import Unitus.Chain.SkipListCorrect
import Unitus.Cache.CuckooCache
import Unitus.Cache.Setup
import Unitus.Cache.CuckooCacheCorrect
import Unitus.Net.MerkleBlock
import Unitus.Net.MerkleBlockCorrect
import Unitus.Net.MerkleBlockSound
import Unitus.Util.StrEncodings
import Unitus.Util.StrEncodingsCorrect
import Unitus.Address.Base58
import Unitus.Lib.Radix
import Unitus.Address.Base58Correct
import Unitus.Address.AddressCorrect
import Unitus.Coins.CoinsViewCache
import Unitus.Lib.AList
import Unitus.Lib.Snapshots
import Unitus.Coins.CoinsViewCacheCorrect
import Unitus.Coins.CoinsStackRefines
