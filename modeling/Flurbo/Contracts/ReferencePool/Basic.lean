import Flurbo.Contracts.LmsrQuote
import Flurbo.Contracts.Pools.FactoredFunding
import Flurbo.Library.Run

-- The reference pool. It keeps one liability for each terminal state of its events, its resolver is
-- trusted, and claims on single events can be wrapped into receipts.

open Evm Except

namespace ReferencePool

structure Config where
  self                : Address
  collateral          : Address
  collateralDecimals  : ℕ
  stateCount          : ℕ
  liquidity           : ℕ
  requiredFunding     : ℕ
  closesAt            : ℕ
  resolver            : Address
  settlementRulesHash : ℕ
  deriving DecidableEq

structure Storage (D : Dependencies) where
  funded           : Bool
  resolved         : Bool
  resolvedState    : ℕ
  stateLiabilities : List ℕ
  holdings         : Address → ℕ → ℕ
  baseTokens       : ℕ → Option (BaseToken D)

-- The pool with the collateral token it is in.
structure World (D : Dependencies) where
  token : D.collateral.State
  pool  : Storage D

variable {D : Dependencies}

def World.balance (w : World D) (account : Address) : ℕ :=
  D.collateral.balanceOf w.token account

def construct (D : Dependencies) (chain : Chain) (self token : Address) (events b closeTime : ℕ)
    (resolver : Address) (rulesHash : ℕ) : Sol Config := do
  revertIf (¬ chain.hasCode token ∨ events = 0 ∨ events > 3 ∨ closeTime ≤ chain.timestamp ∨
    resolver = 0 ∨ rulesHash = 0) .invalidConfiguration
  let decimals := D.collateral.decimals
  let n := 1 <<< events
  let initial ← LmsrCost.bounds D.prb (List.replicate n 0) (← QuoteMath.toWad b decimals)
  let requiredFunding ← QuoteMath.fromWadUp initial.upperWad decimals
  return ⟨self, token, decimals, n, b, requiredFunding, closeTime, resolver, rulesHash⟩

def Storage.initial (cfg : Config) : Storage D where
  funded           := false
  resolved         := false
  resolvedState    := 0
  stateLiabilities := List.replicate cfg.stateCount 0
  holdings         := fun _ _ => 0
  baseTokens       := fun _ => none

def World.initial (cfg : Config) (token : D.collateral.State) : World D :=
  ⟨token, Storage.initial cfg⟩

def requiredCollateral (s : Storage D) : Sol ℕ :=
  if s.resolved then nth s.stateLiabilities s.resolvedState
  else return s.stateLiabilities.foldl (fun required liability =>
    if liability > required then liability else required) 0

section Definitions

variable (cfg : Config)

def requireCovered (w : World D) : Sol Unit := do
  let required ← requiredCollateral w.pool
  revertIf (w.balance cfg.self < required) .uncoveredLiability

def requireOpen (s : Storage D) (timestamp : ℕ) : Sol Unit := do
  revertIf (¬ s.funded) .notFunded
  revertIf (s.resolved ∨ timestamp ≥ cfg.closesAt) .closed

def market (s : Storage D) : LmsrQuote.Market :=
  ⟨s.stateLiabilities, cfg.liquidity, cfg.collateralDecimals⟩

def transferExact (trader : Address) (amount : ℕ) (incoming : Bool) (token : D.collateral.State) :
    Sol D.collateral.State :=
  Pools.transferExact D.collateral cfg.self trader amount incoming token

variable (msg : Msg cfg.self)

-- The check of the coverage is a parameter. The contract's is `requireCovered`.
variable (check : World D → Sol Unit)

def requireTrading (deadline : ℕ) (w : World D) : Sol Unit := do
  requireOpen cfg w.pool msg.timestamp
  revertIf (msg.timestamp > deadline) .expiredDeadline
  check w

def fund (w : World D) : Sol (World D) := do
  revertIf w.pool.funded .alreadyFunded
  revertIf (msg.timestamp ≥ cfg.closesAt) .closed
  let token ← transferExact cfg msg.sender cfg.requiredFunding true w.token
  let w : World D := ⟨token, { w.pool with funded := true }⟩
  check w
  return w

def quoteBuy (mask quantity timestamp : ℕ) (w : World D) : Sol ℕ := do
  requireOpen cfg w.pool timestamp
  check w
  let quote ← LmsrQuote.buy (market cfg w.pool) mask quantity D.prb (2 ^ 128 - 1)
  return quote.collateral

def quoteSell (mask quantity timestamp : ℕ) (w : World D) : Sol ℕ := do
  requireOpen cfg w.pool timestamp
  check w
  let quote ← LmsrQuote.sell (market cfg w.pool) mask quantity D.prb 0
  return quote.collateral

def buy (mask quantity maxCost deadline : ℕ) (w : World D) : Sol (World D × ℕ) := do
  requireTrading cfg msg check deadline w
  let quote ← LmsrQuote.buy (market cfg w.pool) mask quantity D.prb maxCost
  let held ← checkedAdd 128 (w.pool.holdings msg.sender mask) quantity
  let token ← transferExact cfg msg.sender quote.collateral true w.token
  let w : World D := ⟨token, { w.pool with
    holdings := Holdings.set w.pool.holdings msg.sender mask held
    stateLiabilities := quote.liabilitiesAfter }⟩
  check w
  return (w, quote.collateral)

def sell (mask quantity minProceeds deadline : ℕ) (w : World D) : Sol (World D × ℕ) := do
  requireTrading cfg msg check deadline w
  revertIf (w.pool.holdings msg.sender mask < quantity) .insufficientHoldings
  let quote ← LmsrQuote.sell (market cfg w.pool) mask quantity D.prb minProceeds
  let held ← checkedSub (w.pool.holdings msg.sender mask) quantity
  let token ← transferExact cfg msg.sender quote.collateral false w.token
  let w : World D := ⟨token, { w.pool with
    holdings := Holdings.set w.pool.holdings msg.sender mask held
    stateLiabilities := quote.liabilitiesAfter }⟩
  check w
  return (w, quote.collateral)

def resolve (terminalState : ℕ) (w : World D) : Sol (World D) := do
  revertIf (msg.sender ≠ cfg.resolver) .unauthorizedResolver
  revertIf (¬ w.pool.funded) .notFunded
  revertIf w.pool.resolved .alreadyResolved
  revertIf (msg.timestamp < cfg.closesAt) .notClosed
  revertIf (terminalState ≥ w.pool.stateLiabilities.length) .invalidOutcome
  return { w with pool := { w.pool with resolvedState := terminalState, resolved := true } }

def burned (liabilities : List ℕ) (mask quantity : ℕ) : Sol (List ℕ) :=
  (List.range liabilities.length).mapM fun i => do
    let liability ← nth liabilities i
    if mask &&& 1 <<< i ≠ 0 then checkedSub liability quantity else return liability

def redeem (mask quantity : ℕ) (w : World D) : Sol (World D × ℕ) := do
  revertIf (¬ w.pool.resolved) .notResolved
  let n := w.pool.stateLiabilities.length
  revertIf (mask = 0 ∨ mask ≥ 1 <<< n - 1) .invalidMask
  revertIf (quantity = 0) .invalidQuantity
  revertIf (w.pool.holdings msg.sender mask < quantity) .insufficientHoldings
  check w
  let held ← checkedSub (w.pool.holdings msg.sender mask) quantity
  let stateLiabilities ← burned w.pool.stateLiabilities mask quantity
  let paid := if mask &&& 1 <<< w.pool.resolvedState ≠ 0 then quantity else 0
  let token ← (if mask &&& 1 <<< w.pool.resolvedState ≠ 0 then
      transferExact cfg msg.sender quantity false w.token
    else return w.token)
  let w : World D := ⟨token, { w.pool with
    holdings := Holdings.set w.pool.holdings msg.sender mask held, stateLiabilities }⟩
  check w
  return (w, paid)

section Receipts

variable (eventIndex : ℕ) (outcome : Bool)

def baseMask : Sol ℕ := do
  let bit := 1 <<< eventIndex
  revertIf (bit ≥ cfg.stateCount) .invalidBaseEvent
  return (List.range cfg.stateCount).foldl (fun mask state =>
    if decide (state &&& bit ≠ 0) = outcome then mask ||| 1 <<< state else mask) 0

-- A new token is at the address `created`.
def createBaseToken (created : Address) (w : World D) : Sol (World D × Address) := do
  let mask ← baseMask cfg eventIndex outcome
  match w.pool.baseTokens mask with
  | some token => return (w, token.address)
  | none       =>
    let baseTokens := Function.update w.pool.baseTokens mask (some ⟨created, D.receipt.initial⟩)
    return ({ w with pool := { w.pool with baseTokens } }, created)

def baseToken (mask : ℕ) (s : Storage D) : Sol (BaseToken D) :=
  match s.baseTokens mask with
  | some token => return token
  | none       => .error .baseTokenNotCreated

def wrapBase (quantity : ℕ) (w : World D) : Sol (World D) := do
  let mask ← baseMask cfg eventIndex outcome
  let token ← baseToken mask w.pool
  revertIf (quantity = 0) .invalidQuantity
  revertIf (w.pool.holdings msg.sender mask < quantity) .insufficientHoldings
  let held ← checkedSub (w.pool.holdings msg.sender mask) quantity
  let holdings := Holdings.set w.pool.holdings msg.sender mask held
  let escrowed ← checkedAdd 128 (holdings token.address mask) quantity
  let holdings := Holdings.set holdings token.address mask escrowed
  let state ← D.receipt.mint token.state msg.sender quantity
  let baseTokens := Function.update w.pool.baseTokens mask (some { token with state })
  return { w with pool := { w.pool with holdings, baseTokens } }

def unwrapBase (quantity : ℕ) (w : World D) : Sol (World D) := do
  let mask ← baseMask cfg eventIndex outcome
  let token ← baseToken mask w.pool
  revertIf (quantity = 0) .invalidQuantity
  let state ← D.receipt.burn token.state msg.sender quantity
  let escrowed ← checkedSub (w.pool.holdings token.address mask) quantity
  let holdings := Holdings.set w.pool.holdings token.address mask escrowed
  let held ← checkedAdd 128 (holdings msg.sender mask) quantity
  let holdings := Holdings.set holdings msg.sender mask held
  let baseTokens := Function.update w.pool.baseTokens mask (some { token with state })
  return { w with pool := { w.pool with holdings, baseTokens } }

end Receipts

-- Collateral moves between other accounts, or into the pool as a donation.
def moveCollateral (token : D.collateral.State) (w : World D) : Sol (World D) := do
  revertIf (D.collateral.balanceOf token cfg.self < w.balance cfg.self) .token
  return { w with token }

def moveReceipts (mask : ℕ) (state : D.receipt.State) (w : World D) : Sol (World D) := do
  let token ← baseToken mask w.pool
  revertIf (D.receipt.totalSupply state ≠ D.receipt.totalSupply token.state) .token
  let baseTokens := Function.update w.pool.baseTokens mask (some { token with state })
  return { w with pool := { w.pool with baseTokens } }

end Definitions

-- Besides calls to the pool, the collateral and the receipts may change through calls to their own
-- contracts. Nobody but the pool can take collateral from it, and only the pool mints and burns
-- receipts.
inductive Action (D : Dependencies)
  | fund
  | buy (mask quantity maxCost deadline : ℕ)
  | sell (mask quantity minProceeds deadline : ℕ)
  | resolve (terminalState : ℕ)
  | redeem (mask quantity : ℕ)
  | createBaseToken (eventIndex : ℕ) (outcome : Bool) (created : Address)
  | wrapBase (eventIndex : ℕ) (outcome : Bool) (quantity : ℕ)
  | unwrapBase (eventIndex : ℕ) (outcome : Bool) (quantity : ℕ)
  | collateral (token : D.collateral.State)
  | receipts (mask : ℕ) (state : D.receipt.State)

abbrev Call (D : Dependencies) (cfg : Config) := Msg cfg.self × Action D

def act (cfg : Config) (check : World D → Sol Unit) (msg : Msg cfg.self) (w : World D) :
    Action D → Sol (World D)
  | .fund                                          => fund cfg msg check w
  | .buy mask quantity maxCost deadline            =>
    Prod.fst <$> buy cfg msg check mask quantity maxCost deadline w
  | .sell mask quantity minProceeds deadline       =>
    Prod.fst <$> sell cfg msg check mask quantity minProceeds deadline w
  | .resolve terminalState                         => resolve cfg msg terminalState w
  | .redeem mask quantity                          => Prod.fst <$> redeem cfg msg check mask quantity w
  | .createBaseToken eventIndex outcome created    =>
    Prod.fst <$> createBaseToken cfg eventIndex outcome created w
  | .wrapBase eventIndex outcome quantity          => wrapBase cfg msg eventIndex outcome quantity w
  | .unwrapBase eventIndex outcome quantity        => unwrapBase cfg msg eventIndex outcome quantity w
  | .collateral token                              => moveCollateral cfg token w
  | .receipts mask state                           => moveReceipts mask state w

def step (cfg : Config) (check : World D → Sol Unit) (w : World D) (call : Call D cfg) :
    Sol (World D) :=
  act cfg check call.1 w call.2

end ReferencePool
