import Flurbo.Contracts.Dependencies
import Flurbo.Contracts.FactoredCost.Width
import Flurbo.Contracts.FundedPricingEngine.Reserve

-- Whenever the cost of a market under a bias is known, so is the reserve, and it is exact.

open Evm Except
open FactoredCost (maximumLiability)
open FactoredQuote (Market costOf)
open LmsrCost (WAD)
open QuoteMath (CostBounds wadPerAtom)

namespace FundedPricingEngine

variable {prb : PRBMath} {market : Market} {bias factors tables : List Factor} {f : Factor}
  {events b w r : ℕ} {order : List ℕ} {c : CostBounds}

-- The highest value is never exceeded, so that only the sum of the maxima can overflow.
theorem foldlM_reflectTable (s : ℕ × List Factor)
    (h : s.1 + (tables.map (·.maximum)).sum < 2 ^ 256) :
    tables.foldlM reflectTable s =
      .ok (s.1 + (tables.map (·.maximum)).sum, s.2 ++ tables.map reflectAt) := by
  induction tables generalizing s
  case nil               => simp
  case cons f tables hi =>
    rw [List.map_cons, List.sum_cons, ← add_assoc] at h
    have hvalues : f.values.mapM (checkedSub (highest f.values) ·) = .ok (reflectAt f).values := by
      refine mapM_ok fun v hv => checkedSub_eq_ok.mpr ⟨?_, rfl⟩
      exact highest_eq f ▸ Factor.le_maximum hv
    have hsum : checkedAdd 256 s.1 (highest f.values) = .ok (s.1 + f.maximum) := by
      rw [highest_eq]
      exact checkedAdd_eq_ok.mpr ⟨by omega, rfl⟩
    have hstep : reflectTable s f = .ok (s.1 + f.maximum, s.2 ++ [reflectAt f]) := by
      rw [reflectTable, hsum, ok_bind, hvalues]
      rfl
    rw [List.foldlM_cons, hstep, ok_bind, hi _ h]
    simp [add_assoc]

theorem reflect_ok (h : (tables.map (·.maximum)).sum < 2 ^ 256) :
    reflect tables = .ok ((tables.map (·.maximum)).sum, tables.map reflectAt) := by
  simpa [reflect] using foldlM_reflectTable (0, []) (by simpa using h)

theorem reflectAt_maximum_le (f : Factor) : (reflectAt f).maximum ≤ f.maximum := by
  refine Factor.maximum_le <| List.forall_mem_map.mpr fun v _ => ?_
  exact highest_eq f ▸ Nat.sub_le ..

theorem wellFormed_reflectAt (h : f.WellFormed events b) : (reflectAt f).WellFormed events b where
  scope_lt  := h.scope_lt
  size_le   := h.size_le
  length_eq := by simpa [reflectAt] using h.length_eq
  values_le := by
    refine List.forall_mem_map.mpr fun v _ => (Nat.sub_le ..).trans ?_
    rw [highest_eq]
    exact Factor.maximum_le h.values_le

theorem valid_reflectAt (h : FactoredCost.Valid events b tables order) :
    FactoredCost.Valid events b (tables.map reflectAt) order where
  events_pos := h.events_pos
  events_le  := h.events_le
  liquidity  := h.liquidity
  length_le  := by simpa using h.length_le
  order_perm := h.order_perm
  wellFormed := List.forall_mem_map.mpr fun f hf => wellFormed_reflectAt (h.wellFormed f hf)
  sum_maxima := by
    refine le_trans ?_ h.sum_maxima
    rw [List.map_map]
    exact List.sum_le_sum fun f _ => reflectAt_maximum_le f

-- Reflecting a table keeps its scope, so that the reflected tables span no more than the graph, and
-- their maximum can be found.
theorem maxLiability_reflectAt (h : FactoredCost.validate events b factors order = .ok w)
    (hs : tables.Sublist factors) :
    FactoredCost.maxLiability events b (tables.map reflectAt) order =
      .ok (maximumLiability events (tables.map reflectAt)) := by
  have ⟨hv, hw⟩ := FactoredCost.validate_eq_ok.mp h
  have hreflected := valid_reflectAt (hv.sublist hs)
  have hscopes : (tables.map reflectAt).map (·.scope) = tables.map (·.scope) := by
    rw [List.map_map]
    rfl
  have hwithin : FactoredCost.Within ((tables.map reflectAt).map (·.scope)) (factors.map (·.scope)) :=
    FactoredCost.Within.of_subset (hscopes ▸ (hs.map Factor.scope).subset)
  have ⟨w', _, hw'⟩ := hreflected.validate_ok hv hwithin hw
  rw [FactoredCost.maxLiability, hw', ok_bind, hreflected.evaluateMax_eq]

-- Costs are far from the limit of an amount.
theorem costOf_upper_lt (h : costOf prb market factors = .ok c) : c.upperWad < 2 ^ 128 := by
  simp only [costOf, FactoredCost.bounds, FactoredCost.evaluateBounds, bind_eq_ok,
    FactoredLogMath.cost_eq_ok] at h
  obtain ⟨_, _, _, _, log, _, hlog, hb, rfl⟩ := h
  have hle : market.liquidity * wadPerAtom market.decimals * log.upper ≤
      10 ^ 27 * FactoredLogMath.maxLog := Nat.mul_le_mul hb.right hlog.bound
  have hceil : (market.liquidity * wadPerAtom market.decimals * log.upper) ⌈/⌉ WAD ≤ 128 * 10 ^ 27 := by
    rw [Rounding.ceilDiv_le_iff (by decide)]
    exact hle.trans (by decide)
  exact hceil.trans_lt (by decide)

-- What `reserveFromCost` computes, step by step: the tables can be converted, reflected and
-- maximised, and the difference of the sums is the exact minimum of the bias.
structure ExactReserve (market : Market) (bias : List Factor) (c : CostBounds) (r : ℕ) : Prop where
  reflected : ∃ tables sum reflected maximum,
    FactoredQuote.toWad bias (wadPerAtom market.decimals) = .ok tables ∧
    reflect tables = .ok (sum, reflected) ∧
    FactoredCost.maxLiability market.events (market.liquidity * wadPerAtom market.decimals) reflected
      market.order = .ok maximum ∧
    maximum ≤ sum ∧
    sum - maximum = minimumLiability market.events bias * wadPerAtom market.decimals
  minimum_le : minimumLiability market.events bias * wadPerAtom market.decimals ≤ c.upperWad
  reserve_eq : r = (c.upperWad - minimumLiability market.events bias * wadPerAtom market.decimals) ⌈/⌉
    wadPerAtom market.decimals
  maximum_le : maximumLiability market.events market.factors ≤ r

theorem reserve_covers (hmin : minimumLiability market.events bias * wadPerAtom market.decimals ≤ c.upperWad)
    (h : costOf prb market (market.factors ++ bias) = .ok c) :
    maximumLiability market.events market.factors ≤
      (c.upperWad - minimumLiability market.events bias * wadPerAtom market.decimals) ⌈/⌉
        wadPerAtom market.decimals := by
  have hs : 0 < wadPerAtom market.decimals := QuoteMath.wadPerAtom_pos
  have hupper := FactoredQuote.costOf_upper_ge h
  have happ := Nat.mul_le_mul_right (wadPerAtom market.decimals) <|
    maximumLiability_append_ge market.events market.factors bias
  have hceil := Rounding.le_mul_ceilDiv (d := wadPerAtom market.decimals)
    (n := c.upperWad - minimumLiability market.events bias * wadPerAtom market.decimals) hs
  rw [Nat.add_mul] at happ
  refine Nat.le_of_mul_le_mul_left ?_ hs
  calc wadPerAtom market.decimals * maximumLiability market.events market.factors
    _ ≤ c.upperWad - minimumLiability market.events bias * wadPerAtom market.decimals := by
      rw [mul_comm]
      omega
    _ ≤ _ := hceil

theorem costOf_validate (h : costOf prb market factors = .ok c) :
    ∃ w, FactoredCost.validate market.events (market.liquidity * wadPerAtom market.decimals)
      (factors.map (·.scaleBy (wadPerAtom market.decimals))) market.order = .ok w := by
  simp only [costOf, FactoredCost.bounds, bind_eq_ok] at h
  exact h.imp fun w hw => hw.left

theorem cost_supported (h : cost prb market bias = .ok c) : market.decimals ≤ 18 := by
  simp only [cost, bind_eq_ok, QuoteMath.scale_eq_ok] at h
  obtain ⟨_, _, _, _, _, _, _, ⟨hd, _⟩, _⟩ := h
  exact hd

-- A market whose cost under a bias can be computed has a reserve, and it is exact.
theorem reserveFromCost_exact (h : cost prb market bias = .ok c) :
    ∃ r, reserveFromCost market bias c = .ok r ∧ ExactReserve market bias c r := by
  let scale := wadPerAtom market.decimals
  let tables := bias.map (·.scaleBy scale)
  let sum := (tables.map (·.maximum)).sum
  have hd := cost_supported h
  have hc := (cost_eq_ok h).right
  have ⟨w, hv⟩ := costOf_validate hc
  have hvalid := (FactoredCost.validate_eq_ok.mp hv).left
  have hsub : tables.Sublist ((market.factors ++ bias).map (·.scaleBy scale)) := by
    rw [List.map_append]
    exact List.sublist_append_right ..
  have hbias := hvalid.sublist hsub
  have hmax := maxLiability_reflectAt hv hsub
  have hb := hvalid.liquidity.right
  have hsum : sum < 2 ^ 256 := by
    have := hbias.sum_maxima
    omega
  have hdual := maximumLiability_reflect (valid_reflectAt hbias)
  have hminimum : sum - maximumLiability market.events (tables.map reflectAt) =
      minimumLiability market.events bias * scale := by
    rw [← minimumLiability_scaleBy]
    exact Nat.sub_eq_of_eq_add' hdual.symm
  have hle := minimumLiability_le_upper hc
  have hup : QuoteMath.fromWadUp (c.upperWad - minimumLiability market.events bias * scale)
      market.decimals =
        .ok ((c.upperWad - minimumLiability market.events bias * scale) ⌈/⌉ scale) := by
    refine QuoteMath.fromWadUp_eq_ok.mpr ⟨hd, ?_, rfl⟩
    refine lt_of_le_of_lt ?_ (costOf_upper_lt hc)
    rw [Rounding.ceilDiv_le_iff QuoteMath.wadPerAtom_pos]
    exact (Nat.sub_le ..).trans (Nat.le_mul_of_pos_left _ QuoteMath.wadPerAtom_pos)
  have htables := FactoredQuote.toWad_ok hbias
  have hreflect := reflect_ok hsum
  have hmle : maximumLiability market.events (tables.map reflectAt) ≤ sum := by omega
  refine ⟨_, ?_, ⟨tables, sum, tables.map reflectAt, _, htables, hreflect, hmax, hmle, hminimum⟩, hle, rfl,
    reserve_covers hle hc⟩
  have hscale : QuoteMath.scale market.decimals = .ok scale := QuoteMath.scale_eq_ok.mpr ⟨hd, rfl⟩
  have hliquidity : QuoteMath.toWad market.liquidity market.decimals = .ok (market.liquidity * scale) :=
    QuoteMath.toWad_eq_ok.mpr ⟨hd, by omega, rfl⟩
  rw [reserveFromCost, hscale, ok_bind, htables, ok_bind, hreflect, ok_bind]
  dsimp only
  rw [hliquidity, ok_bind, hmax, ok_bind, checkedSub_eq_ok.mpr ⟨hmle, hminimum⟩, ok_bind,
    checkedSub_eq_ok.mpr ⟨hle, rfl⟩, ok_bind, hup]

-- A market of two events in a token of six decimals, under a bias that overlaps its only table.

def overlapMarket : Market := ⟨2, 10 ^ 6, 6, [⟨3, [0, 500000, 0, 0]⟩], [1, 0]⟩

def overlapBias : List Factor := [⟨1, [0, 100000]⟩, ⟨2, [0, 30000]⟩, ⟨3, [0, 7, 7, 9]⟩]

theorem reserveFromCost_exact_overlap :
    let c : CostBounds := ⟨1588424194867635181, 1588424194867640305⟩
    cost Dependencies.testnet.prb overlapMarket overlapBias = .ok c ∧
      ∃ r, reserveFromCost overlapMarket overlapBias c = .ok r ∧
        ExactReserve overlapMarket overlapBias c r :=
  have h : cost Dependencies.testnet.prb overlapMarket overlapBias =
      .ok ⟨1588424194867635181, 1588424194867640305⟩ := by decide +kernel
  ⟨h, reserveFromCost_exact h⟩

end FundedPricingEngine
