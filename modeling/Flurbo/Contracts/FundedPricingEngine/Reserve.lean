import Flurbo.Contracts.FactoredQuote.Priced
import Flurbo.Contracts.FundedPricingEngine.Basic

open Evm Except
open FactoredCost (maximumLiability)
open FactoredQuote (Market Quote Priced costOf)
open QuoteMath (CostBounds wadPerAtom)

namespace FundedPricingEngine

-- The minimum over all terminal states, by enumeration.
def minimumLiability (events : ℕ) (factors : List Factor) : ℕ :=
  (Finset.range (2 ^ events)).inf' ⟨0, by simp⟩ (liability factors)

variable {prb : PRBMath} {market : Market} {bias factors tables reflected : List Factor}
  {events b s x r sum : ℕ} {order : List ℕ} {c before after : CostBounds} {isBuy : Bool}
  {scope mask quantity : ℕ} {quote : Quote}

theorem minimumLiability_le (h : x < 2 ^ events) : minimumLiability events factors ≤ liability factors x :=
  Finset.inf'_le _ (Finset.mem_range.mpr h)

theorem minimumLiability_attained (events : ℕ) (factors : List Factor) :
    ∃ x < 2 ^ events, minimumLiability events factors = liability factors x := by
  have ⟨x, hx, h⟩ := Finset.exists_mem_eq_inf' (s := Finset.range (2 ^ events)) ⟨0, by simp⟩
    (liability factors)
  exact ⟨x, Finset.mem_range.mp hx, h⟩

theorem minimumLiability_nil : minimumLiability events [] = 0 := by
  have ⟨_, _, h⟩ := minimumLiability_attained events []
  rw [h]
  rfl

theorem minimumLiability_scaleBy :
    minimumLiability events (factors.map (·.scaleBy s)) = minimumLiability events factors * s := by
  apply le_antisymm
  · have ⟨x, hx, h⟩ := minimumLiability_attained events factors
    rw [h, ← liability_scaleBy]
    exact minimumLiability_le hx
  · have ⟨x, hx, h⟩ := minimumLiability_attained events (factors.map (·.scaleBy s))
    rw [h, liability_scaleBy]
    exact Nat.mul_le_mul_right s (minimumLiability_le hx)

-- Dropping the bias from a total leaves at least the total without it.
theorem maximumLiability_append_ge (events : ℕ) (factors bias : List Factor) :
    maximumLiability events factors + minimumLiability events bias ≤
      maximumLiability events (factors ++ bias) := by
  have ⟨x, hx, h⟩ := Finset.exists_mem_eq_sup (Finset.range (2 ^ events)) ⟨0, by simp⟩
    (liability factors)
  have hb : minimumLiability events bias ≤ liability bias x :=
    minimumLiability_le (Finset.mem_range.mp hx)
  have ha := Finset.le_sup (f := liability (factors ++ bias)) hx
  have hl : liability (factors ++ bias) x = liability factors x + liability bias x := by
    simp [liability]
  rw [maximumLiability, h]
  unfold maximumLiability
  omega

theorem minimumLiability_le_upper (h : costOf prb market (factors ++ bias) = .ok c) :
    minimumLiability market.events bias * wadPerAtom market.decimals ≤ c.upperWad :=
  calc minimumLiability market.events bias * wadPerAtom market.decimals
    _ ≤ maximumLiability market.events (factors ++ bias) * wadPerAtom market.decimals :=
      Nat.mul_le_mul_right _ <|
        (Nat.le_add_left ..).trans (maximumLiability_append_ge market.events factors bias)
    _ ≤ c.upperWad := FactoredQuote.costOf_upper_ge h

section Reflect

def reflectAt (f : Factor) : Factor := ⟨f.scope, f.values.map (highest f.values - ·)⟩

theorem highest_eq (f : Factor) : highest f.values = f.maximum := by
  suffices h : ∀ m, f.values.foldl (fun high v => if v > high then v else high) m = max m f.maximum by
    simpa [highest] using h 0
  unfold Factor.maximum
  induction f.values
  case nil               => simp
  case cons v values hi =>
    intro m
    have hv : (if v > m then v else m) = max m v := by split <;> omega
    rw [List.foldl_cons, List.foldr_cons, hi, hv, max_assoc]

theorem reflect_eq_ok (h : reflect tables = .ok (sum, reflected)) :
    sum = (tables.map (·.maximum)).sum ∧ reflected = tables.map reflectAt := by
  suffices hs : ∀ s, tables.foldlM reflectTable s = .ok (sum, reflected) →
      sum = s.1 + (tables.map (·.maximum)).sum ∧ reflected = s.2 ++ tables.map reflectAt by
    simpa using hs (0, []) h
  clear h
  induction tables
  case nil               => rintro s h; cases h; simp
  case cons f tables hi =>
    intro s h
    simp only [List.foldlM_cons, reflectTable, bind_eq_ok, checkedAdd_eq_ok, pure_eq_ok, ok.injEq] at h
    obtain ⟨_, ⟨_, ⟨_, rfl⟩, values, hv, rfl⟩, h⟩ := h
    have hv := mapM_eq_map hv fun v r hr => (checkedSub_eq_ok.mp hr).right.symm
    obtain ⟨h₁, h₂⟩ := hi _ h
    simp [h₁, h₂, hv, reflectAt, highest_eq, add_assoc]

-- Where a table is read, reflecting it complements its value.
theorem liability_reflect (h : FactoredCost.Valid events b (tables.map reflectAt) order) (x : ℕ) :
    liability (tables.map reflectAt) x + liability tables x = (tables.map (·.maximum)).sum := by
  have hwf := h.wellFormed
  have he := h.events_le
  clear h
  induction tables
  case nil               => rfl
  case cons f tables hi =>
    rw [List.map_cons, List.forall_mem_cons] at hwf
    have hp : FactoredCost.project f.scope x < f.values.length := by
      simpa [reflectAt] using hwf.left.project_lt he x
    have hv : (reflectAt f).valueAt x + f.valueAt x = f.maximum := by
      have hm := Factor.le_maximum (List.getElem_mem hp)
      simp only [Factor.valueAt, reflectAt, highest_eq]
      rw [List.getD_eq_getElem _ _ hp, List.getD_eq_getElem _ _ (by simpa using hp), List.getElem_map]
      omega
    have := hi hwf.right
    simp only [liability, List.map_cons, List.sum_cons] at this ⊢
    omega

-- The smallest value of a sum of tables is found by maximising the sum of the reflected ones.
theorem maximumLiability_reflect (h : FactoredCost.Valid events b (tables.map reflectAt) order) :
    maximumLiability events (tables.map reflectAt) + minimumLiability events tables =
      (tables.map (·.maximum)).sum := by
  have ⟨x, hx, hmax⟩ := Finset.exists_mem_eq_sup (Finset.range (2 ^ events)) ⟨0, by simp⟩
    (liability (tables.map reflectAt))
  have ⟨y, hy, hmin⟩ := minimumLiability_attained events tables
  have h₁ := liability_reflect h x
  have h₂ := liability_reflect h y
  have h₃ : minimumLiability events tables ≤ liability tables x :=
    minimumLiability_le (Finset.mem_range.mp hx)
  have h₄ := Finset.le_sup (f := liability (tables.map reflectAt)) (Finset.mem_range.mpr hy)
  unfold maximumLiability
  omega

end Reflect

-- The reserve is the part of the upper cost that exceeds the smallest bias.
theorem reserveFromCost_eq_ok (h : reserveFromCost market bias c = .ok r) :
    minimumLiability market.events bias * wadPerAtom market.decimals ≤ c.upperWad ∧ r < 2 ^ 128 ∧
      r = (c.upperWad - minimumLiability market.events bias * wadPerAtom market.decimals) ⌈/⌉
        wadPerAtom market.decimals := by
  simp only [reserveFromCost, FactoredCost.maxLiability, bind_eq_ok, QuoteMath.scale_eq_ok,
    checkedSub_eq_ok] at h
  obtain ⟨_, ⟨_, rfl⟩, tables, ht, ⟨sum, reflected⟩, hr, b, _, maximum, ⟨_, hv, hm⟩, _, ⟨_, rfl⟩,
    _, ⟨hle, rfl⟩, hu⟩ := h
  cases FactoredQuote.toWad_eq_ok ht
  obtain ⟨rfl, rfl⟩ := reflect_eq_ok hr
  have hv := (FactoredCost.validate_eq_ok.mp hv).left
  have hsum := maximumLiability_reflect hv
  rw [hv.evaluateMax_eq, ok.injEq] at hm
  rw [minimumLiability_scaleBy] at hsum
  dsimp only at hm hle hu
  have hmin : ((bias.map (·.scaleBy (wadPerAtom market.decimals))).map (·.maximum)).sum - maximum =
      minimumLiability market.events bias * wadPerAtom market.decimals := by omega
  rw [hmin] at hle hu
  obtain ⟨_, hlt, hr⟩ := QuoteMath.fromWadUp_eq_ok.mp hu
  exact ⟨hle, hr ▸ hlt, hr.symm⟩

theorem cost_eq_ok (h : cost prb market bias = .ok c) :
    canonical bias = .ok () ∧ costOf prb market (market.factors ++ bias) = .ok c := by
  simp only [cost, bind_eq_ok, QuoteMath.scale_eq_ok, QuoteMath.toWad_eq_ok] at h
  obtain ⟨_, hb, _, _, _, ⟨_, _, rfl⟩, _, ⟨_, rfl⟩, joined, hj, h⟩ := h
  cases FactoredQuote.toWad_eq_ok hj
  exact ⟨hb, h⟩

theorem reserve_eq_ok (h : reserve prb market bias = .ok r) :
    ∃ c, cost prb market bias = .ok c ∧ reserveFromCost market bias c = .ok r := by
  simpa [reserve] using h

theorem quote_eq_ok (h : FundedPricingEngine.quote prb market bias scope mask quantity isBuy = .ok (quote, r)) :
    ∃ before after, Priced prb market bias scope mask quantity isBuy before after quote ∧
      reserveFromCost { market with factors := quote.factorsAfter } bias after = .ok r := by
  simp only [FundedPricingEngine.quote, maximum, FactoredCost.maxLiability, bind_eq_ok,
    revertIf_eq_ok, pure_eq_ok, ok.injEq, QuoteMath.scale_eq_ok, Prod.mk.injEq] at h
  obtain ⟨before, hb, _, hu, after, ha, _, hc, _, hn, _, ⟨_, _, _, ⟨_, rfl⟩, _, hw, maximum,
    ⟨_, hv, hm⟩, hr⟩, _, hres, rfl, rfl⟩ := h
  cases FactoredQuote.toWad_eq_ok hw
  obtain ⟨hr, hlt⟩ := FactoredQuote.fromWadUp_maximum (FactoredCost.validate_eq_ok.mp hv).left hm hr
  exact ⟨before, after, ⟨hu, (cost_eq_ok hb).right, (cost_eq_ok ha).right,
    FactoredQuote.collateral_eq_ok hc, Nat.pos_of_ne_zero (not_or.mp hn).left, hr, hlt⟩, hres⟩

end FundedPricingEngine
