import Flurbo.Contracts.FactoredCost.Permutation
import Flurbo.Contracts.FactoredCost.Maximum
import Flurbo.Contracts.FactoredQuote.Update

-- What a quote guarantees about the cost and the liability of the tables that it leads to.

open Evm Except
open FactoredCost (popcount maximumLiability)
open QuoteMath (CostBounds wadPerAtom)

namespace Factor

variable {f : Factor} {s x : ℕ}

def scaleBy (s : ℕ) (f : Factor) : Factor := ⟨f.scope, f.values.map (· * s)⟩

theorem valueAt_scaleBy : (f.scaleBy s).valueAt x = f.valueAt x * s := by
  simp only [valueAt, scaleBy]
  rw [show 0 = 0 * s by simp, List.getD_map (f := (· * s))]
  simp

end Factor

theorem liability_scaleBy (factors : List Factor) (s x : ℕ) :
    liability (factors.map (·.scaleBy s)) x = liability factors x * s := by
  simp [liability, List.map_map, Function.comp_def, Factor.valueAt_scaleBy, List.sum_map_mul_right]

namespace FactoredQuote

variable {prb : PRBMath} {market : Market} {factors factors' wads : List Factor} {scale x r : ℕ}
  {c before after : CostBounds} {scope mask quantity limit : ℕ} {isBuy : Bool} {quote : Quote}

theorem maximumLiability_scaleBy (events : ℕ) (factors : List Factor) (s : ℕ) :
    maximumLiability events (factors.map (·.scaleBy s)) = maximumLiability events factors * s := by
  have h := Finset.apply_sup_eq_sup_comp (s := Finset.range (2 ^ events)) (f := liability factors)
    (· * s) (fun a b => (Nat.mul_max_mul_right ..).symm) (by simp)
  rw [maximumLiability, maximumLiability, h]
  exact Finset.sup_congr rfl fun x _ => liability_scaleBy factors s x

theorem toWad_eq_ok (h : toWad factors scale = .ok wads) : wads = factors.map (·.scaleBy scale) := by
  simp only [toWad, bind_eq_ok] at h
  have ⟨_, _, h⟩ := h
  refine mapM_eq_map h fun f wad hf => ?_
  simp only [bind_eq_ok, pure_eq_ok, ok.injEq] at hf
  have ⟨_, _, values, hv, hf⟩ := hf
  have := mapM_eq_map hv fun v r hr => (checkedMul_eq_ok.mp hr).right.symm
  rw [← hf, this, Factor.scaleBy]

-- Tables whose conversion passes validation can be converted.
theorem toWad_ok {events b : ℕ} {order : List ℕ}
    (h : FactoredCost.Valid events b (factors.map (·.scaleBy scale)) order) :
    toWad factors scale = .ok (factors.map (·.scaleBy scale)) := by
  have hl : factors.length ≤ 64 := by simpa using h.length_le
  have hb := h.liquidity.right
  rw [toWad, revertIf_ok (not_lt.mpr hl), ok_bind]
  refine mapM_ok fun f hf => ?_
  have hwf := h.wellFormed _ (List.mem_map_of_mem hf)
  have hsize : f.values.length ≤ 8 := by
    have hlen : f.values.length = 2 ^ popcount f.scope := by simpa [Factor.scaleBy] using hwf.length_eq
    exact hlen ▸ Nat.pow_le_pow_right (by decide) hwf.size_le
  have hvalues : f.values.mapM (checkedMul 256 · scale) = .ok (f.values.map (· * scale)) := by
    refine mapM_ok fun v hv => checkedMul_eq_ok.mpr ⟨?_, rfl⟩
    have := hwf.values_le (v * scale) (List.mem_map_of_mem hv)
    omega
  rw [revertIf_ok (not_lt.mpr hsize), ok_bind, hvalues]
  rfl

-- The cost of a market with the given tables.
def costOf (prb : PRBMath) (market : Market) (factors : List Factor) : Sol CostBounds :=
  FactoredCost.bounds prb market.events (market.liquidity * wadPerAtom market.decimals)
    (factors.map (·.scaleBy (wadPerAtom market.decimals))) market.order

theorem costOf_perm (hp : factors.Perm factors') (h : costOf prb market factors = .ok c) :
    costOf prb market factors' = .ok c :=
  FactoredCost.bounds_perm (hp.map _) h

-- Upper costs cover the liability of all tables, in WAD.
theorem costOf_upper_ge (h : costOf prb market factors = .ok c) :
    maximumLiability market.events factors * wadPerAtom market.decimals ≤ c.upperWad :=
  maximumLiability_scaleBy market.events factors _ ▸ FactoredCost.bounds_upper_ge h

theorem costOf_lower_le_upper (h : costOf prb market factors = .ok c) : c.lowerWad ≤ c.upperWad :=
  FactoredCost.bounds_lower_le_upper h

theorem costOf_valid (h : costOf prb market factors = .ok c) :
    FactoredCost.Valid market.events (market.liquidity * wadPerAtom market.decimals)
      (factors.map (·.scaleBy (wadPerAtom market.decimals))) market.order := by
  simp only [costOf, FactoredCost.bounds, bind_eq_ok] at h
  have ⟨_, hv, _⟩ := h
  exact (FactoredCost.validate_eq_ok.mp hv).left

-- The collateral of a trade, from the costs around it.
def Charged (isBuy : Bool) (scale : ℕ) (before after : CostBounds) (collateral : ℕ) : Prop :=
  if isBuy then
    before.lowerWad ≤ after.upperWad ∧ collateral = (after.upperWad - before.lowerWad) ⌈/⌉ scale
  else
    after.upperWad ≤ before.lowerWad ∧ collateral = (before.lowerWad - after.upperWad) / scale

-- What a trader pays makes up for the growth of the upper cost, and what a trader receives is at
-- most its decline, so a balance that covers the upper cost keeps doing so.
theorem Charged.covers {balance balance' offset collateral : ℕ}
    (h : Charged isBuy scale before after collateral) (hs : 0 < scale)
    (hb : before.lowerWad ≤ before.upperWad) (hm : Moved isBuy collateral balance balance')
    (hc : before.upperWad ≤ (balance + offset) * scale) :
    after.upperWad ≤ (balance' + offset) * scale := by
  cases isBuy
  case false =>
    obtain ⟨hle, rfl⟩ := h
    have hdiv := Nat.div_mul_le_self (before.lowerWad - after.upperWad) scale
    have hm : balance = balance' + (before.lowerWad - after.upperWad) / scale := by
      simpa [Moved] using hm.symm
    rw [hm] at hc
    simp only [Nat.add_mul] at hc ⊢
    omega
  case true  =>
    obtain ⟨hle, rfl⟩ := h
    have hceil := Rounding.le_mul_ceilDiv (n := after.upperWad - before.lowerWad) hs
    have hm : balance' = balance + (after.upperWad - before.lowerWad) ⌈/⌉ scale := by
      simpa [Moved] using hm
    rw [mul_comm] at hceil
    rw [hm]
    simp only [Nat.add_mul] at hc ⊢
    omega

-- A quote for a trade, under tables `bias` that are priced but never paid.
structure Priced (prb : PRBMath) (market : Market) (bias : List Factor) (scope mask quantity : ℕ)
    (isBuy : Bool) (before after : CostBounds) (quote : Quote) : Prop where
  updated    : updatedFactors market scope mask quantity isBuy = .ok quote.factorsAfter
  before_eq  : costOf prb market (market.factors ++ bias) = .ok before
  after_eq   : costOf prb market (quote.factorsAfter ++ bias) = .ok after
  charged    : Charged isBuy (wadPerAtom market.decimals) before after quote.collateral
  pos        : 0 < quote.collateral
  maximum_eq : quote.maxLiabilityAfter = maximumLiability market.events quote.factorsAfter
  maximum_lt : quote.maxLiabilityAfter < 2 ^ 128

-- Rounding the maximum of tables in whole atoms loses nothing.
theorem fromWadUp_maximum {events b decimals : ℕ} {order : List ℕ} {maximum : ℕ}
    (hv : FactoredCost.Valid events b (factors.map (·.scaleBy (wadPerAtom decimals))) order)
    (hm : FactoredCost.evaluateMax (factors.map (·.scaleBy (wadPerAtom decimals))) order = .ok maximum)
    (hr : QuoteMath.fromWadUp maximum decimals = .ok r) :
    r = maximumLiability events factors ∧ r < 2 ^ 128 := by
  rw [hv.evaluateMax_eq, maximumLiability_scaleBy, ok.injEq, mul_comm] at hm
  have ⟨_, hlt, hr⟩ := QuoteMath.fromWadUp_eq_ok.mp hr
  rw [← hm, Rounding.mul_ceilDiv_cancel QuoteMath.wadPerAtom_pos] at hr hlt
  exact ⟨hr.symm, hr ▸ hlt⟩

theorem collateral_eq_ok {decimals : ℕ} (h : collateral isBuy before after decimals = .ok r) :
    Charged isBuy (wadPerAtom decimals) before after r := by
  cases isBuy
  case false =>
    have ⟨_, _, h₁, h₂⟩ := QuoteMath.sellFromBounds_eq_ok h
    exact ⟨h₁, h₂⟩
  case true  =>
    have ⟨_, _, h₁, h₂⟩ := QuoteMath.buyFromBounds_eq_ok h
    exact ⟨h₁, h₂⟩

theorem simulate_eq_ok (h : simulate market scope mask quantity isBuy prb = .ok quote) :
    ∃ before after, Priced prb market [] scope mask quantity isBuy before after quote := by
  simp only [simulate, price, FactoredCost.boundsAndMax, bind_eq_ok, pure_eq_ok, ok.injEq,
    QuoteMath.scale_eq_ok, checkedMul_eq_ok, revertIf_eq_ok] at h
  obtain ⟨_, _, _, ⟨_, rfl⟩, _, ⟨_, rfl⟩, _, hw, before, hb, after, hu, _, ⟨_, ⟨_, rfl⟩, _, ⟨_, rfl⟩,
    _, hw', _, ⟨_, hv, c, he, maximum, hm, rfl⟩, _, hc, _, hr, rfl⟩, _, hn, rfl⟩ := h
  cases toWad_eq_ok hw
  cases toWad_eq_ok hw'
  obtain ⟨hr, hlt⟩ := fromWadUp_maximum (FactoredCost.validate_eq_ok.mp hv).left hm hr
  refine ⟨before, c, hu, by simpa [costOf] using hb, ?_, collateral_eq_ok hc, by omega, hr, hlt⟩
  simp [costOf, FactoredCost.bounds, hv, he]

theorem buy_eq_ok (h : buy market scope mask quantity prb limit = .ok quote) :
    ∃ before after, Priced prb market [] scope mask quantity true before after quote := by
  simp only [buy, bind_eq_ok, pure_eq_ok, ok.injEq] at h
  obtain ⟨_, h, _, _, rfl⟩ := h
  exact simulate_eq_ok h

theorem sell_eq_ok (h : sell market scope mask quantity prb limit = .ok quote) :
    ∃ before after, Priced prb market [] scope mask quantity false before after quote := by
  simp only [sell, bind_eq_ok, pure_eq_ok, ok.injEq] at h
  obtain ⟨_, h, _, _, rfl⟩ := h
  exact simulate_eq_ok h

end FactoredQuote
