import Flurbo.Contracts.FactoredQuote.Basic

-- Pricing under a bias. The payouts of the market and the bias are separate lists of tables, of
-- which only the former are ever paid.

open Evm Except
open FactoredQuote (Market Quote)

namespace FundedPricingEngine

def lowest (values : List ℕ) : ℕ :=
  values.foldl (fun low v => if v < low then v else low) (2 ^ 128 - 1)

def highest (values : List ℕ) : ℕ :=
  values.foldl (fun high v => if v > high then v else high) 0

-- `last` is the scope of the previous table.
def canonicalFrom : Option ℕ → List Factor → Sol Unit
  | _, []         => return ()
  | last, f :: fs => do
    revertIf (f.scope = 0 ∨ last.any (· ≥ f.scope) ∨ f.values.length = 0 ∨ f.values.length > 8)
      .nonCanonicalBias
    revertIf (lowest f.values ≠ 0) .nonCanonicalBias
    canonicalFrom (some f.scope) fs

def canonical (bias : List Factor) : Sol Unit := do
  revertIf (bias.length > 64) .tooManyFactors
  canonicalFrom none bias

section Reserve

variable (prb : PRBMath) (market : Market) (bias : List Factor)

def cost : Sol QuoteMath.CostBounds := do
  canonical bias
  revertIf (market.factors.length + bias.length > 64) .tooManyFactors
  let b ← QuoteMath.toWad market.liquidity market.decimals
  let joined ← FactoredQuote.toWad (market.factors ++ bias) (← QuoteMath.scale market.decimals)
  FactoredCost.bounds prb market.events b joined market.order

def reflectTable (s : ℕ × List Factor) (f : Factor) : Sol (ℕ × List Factor) := do
  let high := highest f.values
  let sumMax ← checkedAdd 256 s.1 high
  let values ← f.values.mapM (checkedSub high ·)
  return (sumMax, s.2 ++ [⟨f.scope, values⟩])

-- The sum of the tables' maxima, and the tables reflected at them.
def reflect (tables : List Factor) : Sol (ℕ × List Factor) :=
  tables.foldlM reflectTable (0, [])

def reserveFromCost (bounds : QuoteMath.CostBounds) : Sol ℕ := do
  let tables ← FactoredQuote.toWad bias (← QuoteMath.scale market.decimals)
  let (sumMax, reflected) ← reflect tables
  let b ← QuoteMath.toWad market.liquidity market.decimals
  let maximum ← FactoredCost.maxLiability market.events b reflected market.order
  let minimum ← checkedSub sumMax maximum
  QuoteMath.fromWadUp (← checkedSub bounds.upperWad minimum) market.decimals

def reserve : Sol ℕ := do
  reserveFromCost market bias (← cost prb market bias)

def maximum : Sol ℕ := do
  let b ← QuoteMath.toWad market.liquidity market.decimals
  let factors ← FactoredQuote.toWad market.factors (← QuoteMath.scale market.decimals)
  let maximum ← FactoredCost.maxLiability market.events b factors market.order
  QuoteMath.fromWadUp maximum market.decimals

def quote (scope mask quantity : ℕ) (isBuy : Bool) : Sol (Quote × ℕ) := do
  let before ← cost prb market bias
  let factorsAfter ← FactoredQuote.updatedFactors market scope mask quantity isBuy
  let market := { market with factors := factorsAfter }
  let after ← cost prb market bias
  let collateral ← FactoredQuote.collateral isBuy before after market.decimals
  revertIf (collateral = 0 ∨ isBuy ∧ collateral > quantity) .unquotableTrade
  let maxLiabilityAfter ← maximum market
  return (⟨collateral, factorsAfter, maxLiabilityAfter⟩, ← reserveFromCost market bias after)

end Reserve

section Movement

-- An entry of a table, or zero without one.
def entryOrZero : Option Factor → ℕ → Sol ℤ
  | none, _   => return 0
  | some f, k => do return (← nth f.values k : ℕ)

-- The range of the differences between two aligned tables, one of which may be missing.
def localRange (old new : Option Factor) : Sol ℕ := do
  let size (f : Factor) := f.values.length
  let count := ((old <|> new).map size).getD 0
  revertIf (old.isSome ∧ new.any (size · ≠ count)) .nonCanonicalBias
  let deltas ← (List.range count).mapM fun k => do
    return (← entryOrZero new k) - (← entryOrZero old k)
  let low := deltas.foldl (fun low delta => if delta < low then delta else low) (2 ^ 255 - 1)
  let high := deltas.foldl (fun high delta => if delta > high then delta else high) (-2 ^ 255)
  revertIf (high - low < -2 ^ 255 ∨ high - low > 2 ^ 255 - 1) .panic
  return (high - low).toNat

-- The loop of `movement` on the tables not yet taken. Every round takes at least one of them.
def movementFrom : ℕ → List Factor → List Factor → ℕ → Sol ℕ
  | _, [], [], span                    => return span
  | 0, _, _, _                         => .error .panic
  | fuel + 1, o :: old, [], span       => do
    movementFrom fuel old [] (← checkedAdd 256 span (← localRange (some o) none))
  | fuel + 1, [], n :: new, span       => do
    movementFrom fuel [] new (← checkedAdd 256 span (← localRange none (some n)))
  | fuel + 1, o :: old, n :: new, span => do
    let takeOld := o.scope ≤ n.scope
    let takeNew := n.scope ≤ o.scope
    let span ← checkedAdd 256 span
      (← localRange (if takeOld then some o else none) (if takeNew then some n else none))
    movementFrom fuel (if takeOld then old else o :: old) (if takeNew then new else n :: new) span

def movement (old new : List Factor) : Sol ℕ := do
  canonical old
  canonical new
  movementFrom (old.length + new.length) old new 0

end Movement

end FundedPricingEngine
