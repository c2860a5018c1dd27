import Flurbo.Contracts.Pools.FactoredPool

open Evm Except
open FactoredCost (project)

namespace Pools

namespace PilotPool

-- The storage that `PilotPool` adds to what all pools have.
structure Void where
  voidMask : ℕ

variable {D : Dependencies}

-- The constructor of `PilotPool` with those it inherits.
def construct (D : Dependencies) (chain : Chain) (self token : Address) (events b closeTime : ℕ)
    (order : List ℕ) (resolver : Address) (rulesHash : ℕ) : Sol Config := do
  let requiredFunding ← requiredFunding D chain token events b closeTime order
  revertIf (chain.chainId ≠ 10143 ∨ events < 2 ∨ events > 4 ∨ ¬ chain.hasCode resolver ∨
    rulesHash = 0) .invalidConfiguration
  return ⟨self, token, D.collateral.decimals, events, b, requiredFunding, closeTime, order,
    resolver, rulesHash⟩

def initial : Storage D Void := Storage.initial ⟨0⟩

variable (cfg : Config) (msg : Msg cfg.self)

-- The terminal states that agree with the known outcomes, in the order of the source's loops.
def completions (yesMask invalidMask : ℕ) : List ℕ :=
  let known := (1 <<< cfg.eventCount - 1) ^^^ invalidMask
  (List.range (1 <<< cfg.eventCount)).filter (· &&& known = yesMask)

def resolve (yesMask invalidMask : ℕ) (w : World D Void) : Sol (World D Void) := do
  revertIf (msg.sender ≠ cfg.resolver) .unauthorizedResolver
  revertIf (¬ w.pool.funded ∨ w.pool.resolved ∨ msg.timestamp < cfg.closesAt ∨
    yesMask &&& invalidMask ≠ 0 ∨ (yesMask ||| invalidMask) >>> cfg.eventCount ≠ 0) .invalidSettlement
  let states := completions cfg yesMask invalidMask
  let total ← states.foldlM (fun total state =>
    w.pool.storedFactors.foldlM (fun total f => do
      checkedAdd 256 total (← nth f.values (project f.scope state))) total) 0
  let count := states.length
  -- The mean cannot exceed the maximum pre-resolution liability. Round reserve UP.
  let mean ← checkedDiv (← checkedSub (← checkedAdd 256 total count) 1) count
  return { w with pool := { w.pool with
    remainingPayout := truncate 128 mean, resolvedState := yesMask, ext := ⟨invalidMask⟩,
    resolved := true } }

def payoutFraction (scope mask : ℕ) (s : Storage D Void) : Sol (ℕ × ℕ) := do
  revertIf (¬ s.resolved) .notResolved
  let _ ← FactoredPositions.key scope mask
  revertIf (scope >>> cfg.eventCount ≠ 0) .invalidClaim
  let states := completions cfg s.resolvedState s.ext.voidMask
  return ((states.filter fun state => mask &&& 1 <<< project scope state ≠ 0).length, states.length)

-- A table that is missing is skipped.
def burnLiability (scope mask quantity : ℕ) (storedFactors : List Factor) : Sol (List Factor) :=
  onTable scope (FactoredPool.burnTable mask quantity) (return []) storedFactors

def redeem (scope mask quantity : ℕ) (w : World D Void) : Sol (World D Void × ℕ) := do
  let (numerator, denominator) ← payoutFraction cfg scope mask w.pool
  requireCovered (uniform cfg) cfg w
  let positions ← FactoredPositions.debit w.pool.positions msg.sender scope mask quantity
  let storedFactors ← burnLiability scope mask quantity w.pool.storedFactors
  -- Round individual payouts DOWN. Split redemption cannot increase a payout.
  let paid := truncate 128 (← checkedDiv (← checkedMul 256 quantity numerator) denominator)
  let remainingPayout ← checkedSub w.pool.remainingPayout paid
  let token ← (if paid ≠ 0 then transferExact D.collateral cfg.self msg.sender paid false w.token
    else return w.token)
  let w : World D Void := ⟨token, { w.pool with positions, storedFactors, remainingPayout }⟩
  requireCovered (uniform cfg) cfg w
  return (w, paid)

inductive Call (D : Dependencies)
  | action (a : Action D)
  | resolve (yesMask invalidMask : ℕ)
  | redeem (scope mask quantity : ℕ)

def step (w : World D Void) (call : Msg cfg.self × Call D) : Sol (World D Void) :=
  match call.2 with
  | .action a                    => act (uniform cfg) cfg call.1 w a
  | .resolve yesMask invalidMask => resolve cfg call.1 yesMask invalidMask w
  | .redeem scope mask quantity  => Prod.fst <$> redeem cfg call.1 scope mask quantity w

end PilotPool

end Pools
