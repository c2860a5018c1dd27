import Flurbo.Contracts.FactoredCost.Factors

open Evm Except Elimination
open LmsrCost (WAD)

namespace FactoredCost

variable {events b width : ℕ} {factors factors' : List Factor} {order : List ℕ}

-- The maximum over all terminal states, by enumeration.
def maximumLiability (events : ℕ) (factors : List Factor) : ℕ :=
  (Finset.range (2 ^ events)).sup (liability factors)

theorem le_maximumLiability {x : ℕ} (h : x < 2 ^ events) :
    liability factors x ≤ maximumLiability events factors :=
  Finset.le_sup (f := liability factors) (Finset.mem_range.mpr h)

theorem maximumLiability_nil : maximumLiability events [] = 0 := by
  have h : liability [] = fun _ => 0 := rfl
  simp [maximumLiability, h]

theorem maximumLiability_perm (h : factors.Perm factors') :
    maximumLiability events factors = maximumLiability events factors' := by
  rw [maximumLiability, liability_perm h, maximumLiability]

theorem Valid.marginal_maxPlus (h : Valid events b factors order) :
    maxPlus.marginal order (total (factors.map (·.localFn id))) (fun _ => false) =
      maximumLiability events factors := by
  rw [marginal_maxPlus_bitmap h.order_perm]
  exact Finset.sup_congr rfl fun x _ => total_localFn h.scope_lt id x

-- Entries are exact, and their grade keeps them away from overflow.
def Exact (g a x : ℕ) : Prop := a = x ∧ a ≤ g

theorem Exact.add {g h a b x y : ℕ} (ha : Exact g a x) (hb : Exact h b y) (hw : g + h < 2 ^ 256) :
    (exactKernel.add a b).Holds False (Exact (g + h) · (x + y)) := by
  obtain ⟨rfl, ha⟩ := ha
  obtain ⟨rfl, hb⟩ := hb
  exact holds_false_iff.mpr ⟨_, checkedAdd_eq_ok.mpr ⟨by omega, rfl⟩, rfl, by omega⟩

theorem Exact.reduce {g a b x y : ℕ} (ha : Exact g a x) (hb : Exact g b y) :
    (exactKernel.reduce a b).Holds False (Exact g · (maxPlus.join x y)) := by
  obtain ⟨rfl, ha⟩ := ha
  obtain ⟨rfl, hb⟩ := hb
  refine holds_false_iff.mpr ⟨_, rfl, ?_, ?_⟩
  · simp only [maxPlus]; split <;> omega
  · split <;> omega

def exactInterpretation : Interpretation False exactKernel maxPlus ℕ where
  Rel              := Exact
  Within g         := g < 2 ^ 256
  step             := 0
  anti h hw        := h.trans_lt hw
  zero             := ⟨rfl, le_rfl⟩
  add ha hb hw     := ha.add hb hw
  reduce ha hb _   := ha.reduce hb

theorem loaded_exact (f : Factor) :
    Loaded exactInterpretation id (·.maximum) f ⟨f.scope, true, f.values⟩ where
  active := rfl
  scope  := rfl
  values := List.forall₂_same.mpr fun _ hv => ⟨rfl, Factor.le_maximum hv⟩

theorem Valid.evaluateMax_eq (h : Valid events b factors order) :
    evaluateMax factors order = .ok (maximumLiability events factors) := by
  have hw : exactInterpretation.Within
      ((factors.map (·.maximum)).sum + events • exactInterpretation.step) := by
    have := h.sum_maxima
    have := h.liquidity
    simp [exactInterpretation]
    omega
  have ht : List.Forall₂ (Loaded exactInterpretation id (·.maximum)) factors
      (factors.map fun f => ⟨f.scope, true, f.values⟩) :=
    List.forall₂_map_right_iff.mpr <| List.forall₂_same.mpr fun f _ => loaded_exact f
  have ⟨_, he, hr⟩ := holds_false_iff.mp (h.evaluate_holds exactInterpretation ht hw)
  rw [evaluateMax, he, hr.left, h.marginal_maxPlus]

-- Max-sum elimination agrees with enumeration, whatever the order of the events and the factors.
theorem evaluateMax_eq_maximum (h : validate events b factors order = .ok width) :
    (∀ f ∈ factors, ∀ x, f.values[project f.scope x]? = some (f.valueAt x)) ∧
    evaluateMax factors order =
      .ok ((Finset.range (2 ^ events)).sup fun x => (factors.map (·.valueAt x)).sum) ∧
    ∀ factors' order' b' width', factors.Perm factors' →
      validate events b' factors' order' = .ok width' →
        evaluateMax factors' order' = evaluateMax factors order := by
  have hv := (validate_eq_ok.mp h).left
  refine ⟨fun f hf x => ?_, hv.evaluateMax_eq, fun factors' order' b' width' hp h' => ?_⟩
  · exact (hv.wellFormed f hf).getElem?_valueAt hv.events_le x
  · have hv' := (validate_eq_ok.mp h').left
    rw [hv.evaluateMax_eq, hv'.evaluateMax_eq, maximumLiability_perm hp]

-- Two tables of one scope, a constant and an event in no table.
theorem evaluateMax_eq_maximum_three_events :
    evaluateMax [⟨1, [1, 2]⟩, ⟨3, [0, 4, 2, 3]⟩, ⟨1, [3, 0]⟩, ⟨0, [5]⟩] [1, 2, 0] = .ok 11 ∧
      evaluateMax [⟨0, [5]⟩, ⟨1, [3, 0]⟩, ⟨1, [1, 2]⟩, ⟨3, [0, 4, 2, 3]⟩] [0, 1, 2] = .ok 11 :=
  have h₁ : validate 3 (10 ^ 12) [⟨1, [1, 2]⟩, ⟨3, [0, 4, 2, 3]⟩, ⟨1, [3, 0]⟩, ⟨0, [5]⟩] [1, 2, 0] =
      .ok 1 := by decide +kernel
  have h₂ : validate 3 (10 ^ 12) [⟨0, [5]⟩, ⟨1, [3, 0]⟩, ⟨1, [1, 2]⟩, ⟨3, [0, 4, 2, 3]⟩] [0, 1, 2] =
      .ok 1 := by decide +kernel
  have ⟨_, hm, hp⟩ := evaluateMax_eq_maximum h₁
  have hv := hm.trans <| by decide +kernel
  ⟨hv, (hp _ _ _ _ (by decide) h₂).trans hv⟩

section Upper

variable {prb : PRBMath} {c : QuoteMath.CostBounds}

-- Scaled by the liquidity, the upper end of an entry covers the partial maximum that it stands for.
-- This needs no assumption about the exponential and the logarithm.
def CoversUpper (b : ℕ) (a : FactoredLogMath.LogBounds) (x : ℕ) : Prop := x * WAD ≤ a.upper * b

theorem CoversUpper.add {a a' : FactoredLogMath.LogBounds} {x y : ℕ} (ha : CoversUpper b a x)
    (hb : CoversUpper b a' y) :
    ((logKernel prb).add a a').Holds True (CoversUpper b · (x + y)) := by
  rw [holds_true_iff]
  intro r hr
  obtain ⟨_, _, _, he⟩ := FactoredLogMath.add_eq_ok.mp hr
  rw [CoversUpper, he, add_mul, add_mul]
  exact Nat.add_le_add ha hb

theorem CoversUpper.reduce {a a' : FactoredLogMath.LogBounds} {x y : ℕ} (ha : CoversUpper b a x)
    (hb : CoversUpper b a' y) :
    ((logKernel prb).reduce a a').Holds True (CoversUpper b · (maxPlus.join x y)) := by
  rw [holds_true_iff]
  intro r hr
  obtain ⟨h₁, h₂⟩ := FactoredLogMath.logSumExp_upper_ge hr
  have h₁ := Nat.mul_le_mul_right b h₁
  have h₂ := Nat.mul_le_mul_right b h₂
  unfold CoversUpper at *
  cases le_total x y
  case inl h => simpa [maxPlus, h] using hb.trans h₂
  case inr h => simpa [maxPlus, h] using ha.trans h₁

theorem CoversUpper.zero : CoversUpper b (logKernel prb).zero 0 := by
  simp [CoversUpper]

def upperInterpretation (prb : PRBMath) (b : ℕ) :
    Interpretation True (logKernel prb) maxPlus ℕ where
  Rel _ a x        := CoversUpper b a x
  Within _         := True
  step             := 0
  anti _ _         := trivial
  zero             := CoversUpper.zero
  add ha hb _      := ha.add hb
  reduce ha hb _   := ha.reduce hb

theorem forall₂_loaded_upper {tables : List (Table FactoredLogMath.LogBounds)}
    (h : factors.mapM (normalizeFactor b) = .ok tables) :
    List.Forall₂ (Loaded (upperInterpretation prb b) id fun _ => 0) factors tables := by
  refine (mapM_eq_ok.mp h).imp fun f t ht => ?_
  simp only [normalizeFactor, bind_eq_ok, mapM_eq_ok, pure_eq_ok, ok.injEq] at ht
  obtain ⟨values, hv, ht⟩ := ht
  subst ht
  refine ⟨rfl, rfl, hv.imp fun v a hn => ?_⟩
  obtain ⟨hb, _, ha⟩ := FactoredLogMath.normalize_eq_ok.mp hn
  have := Rounding.le_mul_ceilDiv (n := v * WAD) (d := b) (by omega)
  rw [mul_comm b] at this
  rwa [ha]

-- The conservative upper cost is never below what can be owed.
theorem bounds_upper_ge (h : bounds prb events b factors order = .ok c) :
    maximumLiability events factors ≤ c.upperWad := by
  simp only [bounds, evaluateBounds, bind_eq_ok] at h
  obtain ⟨_, hv, tables, ht, log, he, hc⟩ := h
  have hv := (validate_eq_ok.mp hv).left
  have hm := hv.evaluate_holds (upperInterpretation prb b) (forall₂_loaded_upper ht) trivial
  have hm : maximumLiability events factors * WAD ≤ log.upper * b :=
    hv.marginal_maxPlus ▸ holds_true_iff.mp hm log he
  obtain ⟨_, _, hc⟩ := FactoredLogMath.cost_eq_ok.mp hc
  have hu := Rounding.le_mul_ceilDiv (n := b * log.upper) (d := WAD) (by decide)
  rw [hc]
  apply Nat.le_of_mul_le_mul_right (c := WAD) _ (by decide)
  calc maximumLiability events factors * WAD
    _ ≤ b * log.upper                 := by rwa [mul_comm b]
    _ ≤ (b * log.upper) ⌈/⌉ WAD * WAD := by rwa [mul_comm _ WAD]

theorem bounds_lower_le_upper (h : bounds prb events b factors order = .ok c) :
    c.lowerWad ≤ c.upperWad := by
  simp only [bounds, evaluateBounds, bind_eq_ok, FactoredLogMath.cost_eq_ok] at h
  obtain ⟨_, _, _, _, log, _, hl, _, hc⟩ := h
  rw [hc]
  exact (Nat.div_le_div_right (Nat.mul_le_mul_left b hl.le)).trans
    (Rounding.div_le_ceilDiv (by decide))

end Upper

end FactoredCost
