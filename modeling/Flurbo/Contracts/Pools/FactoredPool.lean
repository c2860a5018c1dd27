import Flurbo.Contracts.Pools.Action

open Evm Except
open FactoredCost (project)
open FactoredQuote (Quote)

namespace Pools

variable {D : Dependencies} {ε : Type}

section Uniform

variable (cfg : Config)

-- What `FactoredPool` and `PilotPool` override alike, and what they inherit from `FactoredTrading`.

def requiredCollateral (s : Storage D ε) : ℕ :=
  if s.resolved then s.remainingPayout else s.maximumLiability

def priceTrade (s : Storage D ε) (scope mask quantity limit : ℕ) (isBuy : Bool) :
    Sol (Quote × ℕ) :=
  if isBuy then do
    return (← FactoredQuote.buy (market cfg s) scope mask quantity D.prb limit, 0)
  else do
    return (← FactoredQuote.sell (market cfg s) scope mask quantity D.prb limit, 0)

def uniform : Virtuals D ε where
  requiredCollateral := requiredCollateral
  priceTrade         := priceTrade cfg
  afterTrade _ s     := return s

end Uniform

namespace FactoredPool

-- The constructor of `FactoredPool` with those it inherits.
def construct (D : Dependencies) (chain : Chain) (self token : Address) (events b closeTime : ℕ)
    (order : List ℕ) (resolver : Address) (rulesHash : ℕ) : Sol Config := do
  let requiredFunding ← requiredFunding D chain token events b closeTime order
  revertIf (resolver = 0 ∨ rulesHash = 0) .invalidConfiguration
  return ⟨self, token, D.collateral.decimals, events, b, requiredFunding, closeTime, order,
    resolver, rulesHash⟩

variable (V : Virtuals D ε) (cfg : Config) (msg : Msg cfg.self)

def resolve (terminalState : ℕ) (w : World D ε) : Sol (World D ε) := do
  revertIf (msg.sender ≠ cfg.resolver) .unauthorizedResolver
  revertIf (¬ w.pool.funded) .notFunded
  revertIf w.pool.resolved .alreadyResolved
  revertIf (msg.timestamp < cfg.closesAt) .notClosed
  revertIf (terminalState >>> cfg.eventCount ≠ 0) .invalidOutcome
  let payout ← w.pool.storedFactors.foldlM (fun payout f => do
    checkedAdd 128 payout (← nth f.values (project f.scope terminalState))) 0
  return { w with pool := { w.pool with
    remainingPayout := payout, resolvedState := terminalState, resolved := true } }

-- The entries of the claim's outcomes go down by the quantity.
def burnTable (mask quantity : ℕ) (f : Factor) : Sol Factor := do
  return { f with values := ← (List.range f.values.length).mapM fun j => do
    let value ← nth f.values j
    if mask &&& 1 <<< j ≠ 0 then checkedSub value quantity else return value }

def burnLiability (scope mask quantity : ℕ) (storedFactors : List Factor) : Sol (List Factor) :=
  onTable scope (burnTable mask quantity) (.error .missingFactor) storedFactors

-- The payment of a claim that won.
def payWinner (scope mask quantity : ℕ) (w : World D ε) : Sol (World D ε × ℕ) :=
  if mask &&& 1 <<< project scope w.pool.resolvedState ≠ 0 then do
    let remainingPayout ← checkedSub w.pool.remainingPayout quantity
    let token ← transferExact D.collateral cfg.self msg.sender quantity false w.token
    return (⟨token, { w.pool with remainingPayout }⟩, quantity)
  else
    return (w, 0)

def redeem (scope mask quantity : ℕ) (w : World D ε) : Sol (World D ε × ℕ) := do
  revertIf (¬ w.pool.resolved) .notResolved
  requireCovered V cfg w
  let positions ← FactoredPositions.debit w.pool.positions msg.sender scope mask quantity
  let storedFactors ← burnLiability scope mask quantity w.pool.storedFactors
  let (w, paid) ← payWinner cfg msg scope mask quantity
    { w with pool := { w.pool with positions, storedFactors } }
  requireCovered V cfg w
  return (w, paid)

inductive Call (D : Dependencies)
  | action (a : Action D)
  | resolve (terminalState : ℕ)
  | redeem (scope mask quantity : ℕ)

-- Calls under the pool's own virtual functions.
def step (w : World D ε) (call : Msg cfg.self × Call D) : Sol (World D ε) :=
  match call.2 with
  | .action a                   => act V cfg call.1 w a
  | .resolve terminalState      => resolve cfg call.1 terminalState w
  | .redeem scope mask quantity => Prod.fst <$> redeem V cfg call.1 scope mask quantity w

end FactoredPool

end Pools
