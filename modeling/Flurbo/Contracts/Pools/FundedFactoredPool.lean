import Flurbo.Contracts.FundedPricingEngine.Reserve
import Flurbo.Contracts.Pools.FactoredPool

open Evm Except
open FactoredQuote (Quote)

namespace Pools

namespace FundedFactoredPool

structure UpdatePolicy where
  updater           : Address
  maxBiasMovement   : ℕ
  epochFundingLimit : ℕ
  epochSeconds      : ℕ
  minUpdateInterval : ℕ
  deriving DecidableEq

structure Update where
  chainId          : ℕ
  pool             : Address
  expectedRevision : ℕ
  deadline         : ℕ
  maxFunding       : ℕ
  bias             : List Factor

-- The storage that `FundedFactoredPool` adds to what all pools have.
structure Pricing where
  revision          : ℕ
  lastUpdateAt      : ℕ
  updateCount       : ℕ
  fundingEpoch      : ℕ
  epochFundingSpent : ℕ
  pricingReserve    : ℕ
  storedBias        : List Factor

-- The immutables, with the id of the chain that the pool is on.
structure FundedConfig extends Config where
  policy  : UpdatePolicy
  chainId : ℕ
  deriving DecidableEq

variable {D : Dependencies}

def construct (D : Dependencies) (chain : Chain) (self token : Address) (events b closeTime : ℕ)
    (order : List ℕ) (resolver : Address) (rulesHash : ℕ) (policy : UpdatePolicy) :
    Sol FundedConfig := do
  let cfg ← FactoredPool.construct D chain self token events b closeTime order resolver rulesHash
  revertIf (policy.updater = 0 ∨ policy.maxBiasMovement = 0 ∨ policy.maxBiasMovement > b ∨
    policy.epochFundingLimit = 0 ∨ policy.epochSeconds = 0 ∨ policy.minUpdateInterval = 0 ∨
    policy.minUpdateInterval > policy.epochSeconds) .invalidConfiguration
  return { cfg with policy, chainId := chain.chainId }

variable (cfg : FundedConfig)

def initial : Storage D Pricing :=
  Storage.initial ⟨0, 0, 0, 0, 0, cfg.requiredFunding, []⟩

def requiredCollateral (s : Storage D Pricing) : ℕ :=
  let actual := Pools.requiredCollateral s
  if s.resolved then actual
  else if s.ext.pricingReserve > actual then s.ext.pricingReserve else actual

def priceTrade (s : Storage D Pricing) (scope mask quantity limit : ℕ) (isBuy : Bool) :
    Sol (Quote × ℕ) := do
  let (quote, reserve) ← FundedPricingEngine.quote D.prb (market cfg.toConfig s) s.ext.storedBias
    scope mask quantity isBuy
  revertIf (isBuy ∧ quote.collateral > limit) .maxCostExceeded
  revertIf (¬ isBuy ∧ quote.collateral < limit) .minProceedsNotMet
  return (quote, reserve)

def afterTrade (reserve : ℕ) (s : Storage D Pricing) : Sol (Storage D Pricing) := do
  let revision ← checkedAdd 256 s.ext.revision 1
  return { s with ext := { s.ext with pricingReserve := reserve, revision } }

def virtuals : Virtuals D Pricing where
  requiredCollateral := requiredCollateral
  priceTrade         := priceTrade cfg
  afterTrade         := afterTrade

variable (msg : Msg cfg.self)

-- What an update asks for: the reserve under the new bias, and the collateral to be added for it.
def assess (proposal : Update) (w : World D Pricing) : Sol (ℕ × ℕ) := do
  let reserve ← FundedPricingEngine.reserve D.prb (market cfg.toConfig w.pool) proposal.bias
  let movement ← FundedPricingEngine.movement w.pool.ext.storedBias proposal.bias
  revertIf (movement > cfg.policy.maxBiasMovement) .movementLimit
  let balance := w.balance cfg.self
  return (reserve, if reserve > balance then truncate 128 (reserve - balance) else 0)

-- The first update has no predecessor to wait for.
def requireInterval (ext : Pricing) (timestamp : ℕ) : Sol Unit :=
  if ext.updateCount ≠ 0 then do
    let earliest ← checkedAdd 256 ext.lastUpdateAt cfg.policy.minUpdateInterval
    revertIf (timestamp < earliest) .updateTooSoon
  else
    return ()

-- `updateBias` up to its final check.
def updateBiasUnchecked (proposal : Update) (w : World D Pricing) : Sol (World D Pricing × ℕ) := do
  let ext := w.pool.ext
  revertIf (msg.sender ≠ cfg.policy.updater) .unauthorizedUpdater
  requireOpen cfg.toConfig w.pool msg.timestamp
  requireCovered (virtuals cfg) cfg.toConfig w
  revertIf (proposal.chainId ≠ cfg.chainId ∨ proposal.pool ≠ cfg.self) .invalidUpdateDomain
  revertIf (proposal.expectedRevision ≠ ext.revision) .staleUpdate
  revertIf (msg.timestamp > proposal.deadline) .expiredDeadline
  requireInterval cfg ext msg.timestamp
  let (reserve, added) ← assess cfg proposal w
  let epoch ← checkedDiv msg.timestamp cfg.policy.epochSeconds
  let spent := if epoch = ext.fundingEpoch then ext.epochFundingSpent else 0
  revertIf (added > proposal.maxFunding ∨ spent + added > cfg.policy.epochFundingLimit) .fundingLimit
  let pricing : Pricing :=
    { revision          := ← checkedAdd 256 ext.revision 1
      updateCount       := ← checkedAdd 256 ext.updateCount 1
      lastUpdateAt      := msg.timestamp
      fundingEpoch      := epoch
      epochFundingSpent := ← checkedAdd 128 spent added
      pricingReserve    := reserve
      storedBias        := proposal.bias }
  let token ← (if added ≠ 0 then transferExact D.collateral cfg.self msg.sender added true w.token
    else return w.token)
  return (⟨token, { w.pool with ext := pricing }⟩, added)

def updateBias (proposal : Update) (w : World D Pricing) : Sol (World D Pricing × ℕ) := do
  let (w, added) ← updateBiasUnchecked cfg msg proposal w
  requireCovered (virtuals cfg) cfg.toConfig w
  return (w, added)

inductive Call (D : Dependencies)
  | base (call : FactoredPool.Call D)
  | updateBias (proposal : Update)

def step (w : World D Pricing) (call : Msg cfg.self × Call D) : Sol (World D Pricing) :=
  match call.2 with
  | .base c              => FactoredPool.step (virtuals cfg) cfg.toConfig w (call.1, c)
  | .updateBias proposal => Prod.fst <$> updateBias cfg call.1 proposal w

end FundedFactoredPool

end Pools
