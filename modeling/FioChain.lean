import FioChain.Types
import FioChain.Lib.OrderStatistic
import FioChain.ForkDatabase.Model
import FioChain.ForkDatabase.Index
import FioChain.ForkDatabase.Remove
import FioChain.ForkDatabase.Invariant
import FioChain.ForkDatabase.AdvanceRoot
import FioChain.ForkDatabase.Run
import FioChain.ForkDatabase.Branch
import FioChain.Controller.SwitchForks
import FioChain.BlockHeaderState.Model
import FioChain.BlockHeaderState.Step
import FioChain.Lib.AListEntries
import FioChain.BlockHeaderState.Invariant
import FioChain.BlockHeaderState.Run
import FioChain.BlockHeaderState.Irreversibility
import FioChain.BlockHeaderState.Schedule
import FioChain.BlockHeaderState.Wrap
import FioChain.Lib.NatBits
import FioChain.Lib.MerkleLevels
import FioChain.Merkle.Model
import FioChain.Merkle.Depth
import FioChain.Merkle.Refinement
import FioChain.ResourceLimits.Model
import FioChain.ResourceLimits.Totals
import FioChain.Lib.ExceptFold
import FioChain.Authority.Checker
import FioChain.Authority.RequiredKeys
import FioChain.Lib.MixedRadix
import FioChain.Lib.ListOrder
import FioChain.Names.Model
import FioChain.Names.RoundTrip
import FioChain.Lib.Decimal
import FioChain.Asset.Model
import FioChain.Asset.Symbol
import FioChain.Lib.ListSplit
import FioChain.Asset.Read
import FioChain.Asset.RoundTrip
import FioChain.Abi.Model
import FioChain.Abi.Asymmetry
import FioChain.Lib.KeyedList
import FioChain.ContractTable.Model
import FioChain.ContractTable.Effect
import FioChain.ContractTable.Invariant
import FioChain.Lib.IntrusiveList
import FioChain.ProtocolFeature.Model
import FioChain.ProtocolFeature.Invariant
import FioChain.ProtocolFeature.Run
import FioChain.Fioio.NameFormat
import FioChain.ResourceLimits.Accumulator
import FioChain.Authority.Ideal
import FioChain.Authority.Monotone
import FioChain.Authority.Locality
import FioChain.Authority.Refinement
import FioChain.Lib.RoundRobin
import FioChain.ProducerPlugin.NextBlockTime
import FioChain.Lib.DigitCarry
import FioChain.Lib.SwapReverse
import FioChain.Fioio.Base58
import FioChain.Fioio.Base58Decode
import FioChain.Fioio.KeyOps
import FioChain.Lib.SortedIndex
import FioChain.ContractTable.IteratorCache
import FioChain.ContractTable.Iterators
import FioChain.ContractTable.CacheInvariant
import FioChain.ContractTable.Navigation
import FioChain.History.Model
import FioChain.History.Retention
