import Flurbo.Library.Fallible
import Flurbo.Library.Rounding
import Flurbo.Library.Bits
import Flurbo.Library.Elimination
import Flurbo.Library.Enclosure
import Flurbo.Library.Holdings
import Flurbo.Library.Run
import Flurbo.Library.Mean
import Flurbo.Contracts.Evm
import Flurbo.Contracts.Dependencies
import Flurbo.Contracts.QuoteMath
import Flurbo.Contracts.LmsrCost
import Flurbo.Contracts.FactoredLogMath
import Flurbo.Contracts.FactoredCost.Maximum
import Flurbo.Contracts.FactoredCost.Permutation
import Flurbo.Contracts.FactoredCost.Monotone
import Flurbo.Contracts.FactoredQuote.Priced
import Flurbo.Library.Spread
import Flurbo.Contracts.FundedPricingEngine.Reserve
import Flurbo.Contracts.FundedPricingEngine.ReserveExact
import Flurbo.Contracts.FundedPricingEngine.Distance
import Flurbo.Contracts.Tally
import Flurbo.Contracts.Pools.Solvency
import Flurbo.Contracts.Pools.Settlement
import Flurbo.Contracts.Pools.BiasUpdate
import Flurbo.Contracts.Pools.Ledgers
import Flurbo.Contracts.Pools.Receipts
import Flurbo.Contracts.Pools.FundedReserve
import Flurbo.Contracts.Pools.RateLimits
import Flurbo.Contracts.Pools.Redemption
import Flurbo.Sdk.Evolution
import Flurbo.Sdk.Chain
import Flurbo.Sdk.Release
import Flurbo.Sdk.Nonces
import Flurbo.Sdk.FileJournal
import Flurbo.Sdk.WorstCase
import Flurbo.Library.Account
import Flurbo.Server.StarterFunds
import Flurbo.Server.PaidOnce
import Flurbo.Sdk.Reservation
import Flurbo.Library.Program
import Flurbo.Server.AgentWallets
import Flurbo.Server.ExclusiveWallets
import Flurbo.Server.AgentState
import Flurbo.Server.AgentChanges
import Flurbo.Server.Proposals
import Flurbo.Server.Lifecycle
import Flurbo.Server.OneProposal
import Flurbo.Contracts.LmsrQuote
import Flurbo.Core.ReferenceLedger
import Flurbo.Server.SettlementRules
import Flurbo.Server.SettlementEvidence
import Flurbo.Server.CaptureHistory
import Flurbo.Server.Collection
import Flurbo.Server.SnapshotRetention
import Flurbo.Server.FrozenProposal
import Flurbo.Server.OneAnswer
import Flurbo.Server.AccessDecisions
import Flurbo.Server.NoticeOnce
import Flurbo.Server.ProposerGuard
import Flurbo.Server.PairSensitivity
import Flurbo.Cre.ObservationBlock
import Flurbo.Server.SemanticExact
import Flurbo.Server.PayoutExact
import Flurbo.Server.PilotComplete
import Flurbo.Server.Readers.Csv
import Flurbo.Server.Readers.JsonStrict
import Flurbo.Server.Readers.DecimalsExact
import Flurbo.Server.SnapshotConflict
import Flurbo.Server.EvaluationOrder
import Flurbo.Server.CaptureRuns
import Flurbo.Server.DueActions
import Flurbo.Sdk.Distribution
import Flurbo.Sdk.RequestScheduler
import Flurbo.Sdk.U256
import Flurbo.Library.Rlp
import Flurbo.Sdk.Signer
import Flurbo.Sdk.Abi
import Flurbo.Sdk.HexText
import Flurbo.Sdk.AbiCalls
import Flurbo.Sdk.AbiExact
import Flurbo.Sdk.SigningRequest
import Flurbo.Sdk.SigningExact
import Flurbo.Library.JsonNormal
import Flurbo.Server.Readers.NumberText
import Flurbo.Server.CanonicalText
import Flurbo.Library.Machine
import Flurbo.Sdk.Native
import Flurbo.Sdk.NativeExact
import Flurbo.Sdk.NativePlan
import Flurbo.Contracts.Resolvers.Delivery
import Flurbo.Contracts.Resolvers.Reviewers
import Flurbo.Contracts.Resolvers.Eligibility
import Flurbo.Contracts.ReferencePool.Accounting
