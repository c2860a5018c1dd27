import Flurbo.Contracts.FactoredCost.Basic

open Evm Except
open FactoredCost (popcount)

namespace FactoredQuote

-- A snapshot of a pool. All amounts are collateral atoms.
structure Market where
  events    : ℕ
  liquidity : ℕ
  decimals  : ℕ
  factors   : List Factor
  order     : List ℕ

structure Quote where
  collateral        : ℕ
  factorsAfter      : List Factor
  maxLiabilityAfter : ℕ
  deriving DecidableEq, Repr

def toWad (factors : List Factor) (scale : ℕ) : Sol (List Factor) := do
  revertIf (factors.length > 64) .tooManyFactors
  factors.mapM fun f => do
    revertIf (f.values.length > 8) .invalidValues
    return ⟨f.scope, ← f.values.mapM (checkedMul 256 · scale)⟩

-- The values of all tables of the scope, added up.
def merge (factors : List Factor) (scope states : ℕ) : Sol (List ℕ) :=
  factors.foldlM (fun values f =>
    if f.scope = scope then
      (List.range states).mapM fun j => do checkedAdd 128 (← nth values j) (← nth f.values j)
    else
      return values) (List.replicate states 0)

-- The new value of one entry.
def shift (mask quantity : ℕ) (isBuy : Bool) (value j : ℕ) : Sol ℕ :=
  if mask &&& 1 <<< j ≠ 0 then
    if isBuy then
      checkedAdd 128 value quantity
    else do
      revertIf (value < quantity) .insufficientLiability
      checkedSub value quantity
  else
    return value

def update (factors : List Factor) (scope mask quantity states : ℕ) (isBuy : Bool) :
    Sol (List Factor) := do
  let hits := (factors.filter (·.scope = scope)).length
  let count ← checkedSub (factors.length + 1) hits
  revertIf (count > 64) .tooManyFactors
  let values ← merge factors scope states
  let values ← (List.range states).mapM fun j => do shift mask quantity isBuy (← nth values j) j
  return factors.filter (·.scope ≠ scope) ++ [⟨scope, values⟩]

variable (market : Market) (scope mask quantity : ℕ) (isBuy : Bool)

def updatedFactors : Sol (List Factor) := do
  revertIf (quantity = 0 ∨ quantity > market.liquidity) .invalidQuantity
  let size := popcount scope
  revertIf (scope = 0 ∨ scope >>> market.events ≠ 0 ∨ size > 3) .invalidScope
  let states := 1 <<< size
  let full := 1 <<< states - 1
  revertIf (mask = 0 ∨ mask ≥ full) .invalidMask
  update market.factors scope mask quantity states isBuy

-- The collateral of a trade from the costs before and after it.
def collateral (before after : QuoteMath.CostBounds) (decimals : ℕ) : Sol ℕ :=
  if isBuy then QuoteMath.buyFromBounds before after decimals
  else QuoteMath.sellFromBounds before after decimals

variable (prb : PRBMath)

def price (before : QuoteMath.CostBounds) (factorsAfter : List Factor) : Sol Quote := do
  let scale ← QuoteMath.scale market.decimals
  let b ← checkedMul 256 market.liquidity scale
  let afterWad ← toWad factorsAfter scale
  let (after, maximum) ← FactoredCost.boundsAndMax prb market.events b afterWad market.order
  let collateral ← collateral isBuy before after market.decimals
  return ⟨collateral, factorsAfter, ← QuoteMath.fromWadUp maximum market.decimals⟩

def simulate : Sol Quote := do
  revertIf (quantity = 0 ∨ quantity > market.liquidity) .invalidQuantity
  let scale ← QuoteMath.scale market.decimals
  let b ← checkedMul 256 market.liquidity scale
  let beforeWad ← toWad market.factors scale
  let before ← FactoredCost.bounds prb market.events b beforeWad market.order
  let factorsAfter ← updatedFactors market scope mask quantity isBuy
  let quote ← price market isBuy prb before factorsAfter
  revertIf (quote.collateral = 0 ∨ isBuy ∧ quote.collateral > quantity) .unquotableTrade
  return quote

def buy (maxCost : ℕ) : Sol Quote := do
  let quote ← simulate market scope mask quantity true prb
  revertIf (quote.collateral > maxCost) .maxCostExceeded
  return quote

def sell (minProceeds : ℕ) : Sol Quote := do
  let quote ← simulate market scope mask quantity false prb
  revertIf (quote.collateral < minProceeds) .minProceedsNotMet
  return quote

end FactoredQuote
