import Flurbo.Contracts.FactoredCost.Basic

open Evm Except

def Factor.maximum (f : Factor) : ℕ := f.values.foldr max 0

theorem Factor.le_maximum {f : Factor} {v : ℕ} (h : v ∈ f.values) : v ≤ f.maximum := by
  unfold maximum
  generalize f.values = vs at h
  induction vs
  case nil          => simp at h
  case cons w vs hi =>
    cases List.mem_cons.mp h
    case inl h => simp [h]
    case inr h => exact (hi h).trans (le_max_right _ _)

theorem Factor.maximum_le {f : Factor} {n : ℕ} (h : ∀ v ∈ f.values, v ≤ n) : f.maximum ≤ n := by
  unfold maximum
  generalize f.values = vs at h
  induction vs
  case nil          => simp
  case cons w vs hi =>
    have ⟨hw, hvs⟩ := List.forall_mem_cons.mp h
    exact max_le hw (hi hvs)

-- What the validator requires of one factor.
structure Factor.WellFormed (events b : ℕ) (f : Factor) : Prop where
  scope_lt  : f.scope < 2 ^ events
  size_le   : FactoredCost.popcount f.scope ≤ 3
  length_eq : f.values.length = 2 ^ FactoredCost.popcount f.scope
  values_le : ∀ v ∈ f.values, v ≤ 100 * b

theorem Factor.WellFormed.scope_lt_word {events b : ℕ} {f : Factor} (h : f.WellFormed events b)
    (he : events ≤ 32) : f.scope < 2 ^ 32 :=
  h.scope_lt.trans_le (Nat.pow_le_pow_right (by decide) he)

namespace FactoredCost

-- What the validator requires of a graph, apart from its induced width.
structure Valid (events b : ℕ) (factors : List Factor) (order : List ℕ) : Prop where
  events_pos  : 0 < events
  events_le   : events ≤ 32
  liquidity   : 10 ^ 12 ≤ b ∧ b ≤ 10 ^ 27
  length_le   : factors.length ≤ 64
  order_perm  : order.Perm (List.range events)
  wellFormed  : ∀ f ∈ factors, f.WellFormed events b
  sum_maxima  : (factors.map (·.maximum)).sum ≤ 100 * b

variable {events b : ℕ} {factors : List Factor} {order : List ℕ} {f : Factor} {r seen s : ℕ}

theorem validateOrder_eq_ok {u : Unit} :
    validateOrder events order seen = .ok u ↔
      (∀ v ∈ order, v < events ∧ seen.testBit v = false) ∧ order.Nodup := by
  induction order generalizing seen
  case nil             => simp [validateOrder]
  case cons v order hi =>
    have hv (w : ℕ) : (seen ||| 2 ^ v).testBit w = false ↔ seen.testBit w = false ∧ v ≠ w := by
      simp [Nat.testBit_or, Nat.testBit_two_pow]
    simp only [validateOrder, Nat.one_shiftLeft, bind_eq_ok, revertIf_eq_ok, hi, hv,
      Bits.and_two_pow_ne_zero, List.nodup_cons, List.forall_mem_cons]
    grind

theorem order_perm_iff :
    order.Perm (List.range events) ↔
      order.length = events ∧ (∀ v ∈ order, v < events) ∧ order.Nodup := by
  constructor
  case mp =>
    intro h
    exact ⟨by simpa using h.length_eq, fun v hv => by simpa using h.mem_iff.mp hv,
      h.nodup_iff.mpr List.nodup_range⟩
  case mpr =>
    rintro ⟨hl, hv, hd⟩
    apply List.Subperm.perm_of_length_le
    · exact List.subperm_of_subset hd fun v h => List.mem_range.mpr (hv v h)
    · simp [hl]

theorem foldlM_maximum (hb : b ≤ 10 ^ 27) {vs : List ℕ} {m : ℕ} :
    vs.foldlM (fun maximum value => do
      revertIf (value > (← checkedMul 256 100 b)) .invalidValues
      return if value > maximum then value else maximum) m = .ok r ↔
    (∀ v ∈ vs, v ≤ 100 * b) ∧ max m (vs.foldr max 0) = r := by
  induction vs generalizing m
  case nil          => simp
  case cons v vs hi =>
    have hm : 100 * b < 2 ^ 256 := by omega
    have hv : (if v > m then v else m) = max m v := by split <;> omega
    simp only [List.foldlM_cons, bind_eq_ok, checkedMul_eq_ok, revertIf_eq_ok, pure_eq_ok, ok.injEq,
      List.forall_mem_cons, List.foldr_cons]
    constructor
    case mp =>
      rintro ⟨_, ⟨_, ⟨_, rfl⟩, _, h, rfl⟩, hr⟩
      obtain ⟨h₁, h₂⟩ := hi.mp hr
      exact ⟨⟨not_lt.mp h, h₁⟩, by rw [← h₂, hv, max_assoc]⟩
    case mpr =>
      rintro ⟨⟨h, h₁⟩, h₂⟩
      exact ⟨_, ⟨_, ⟨hm, rfl⟩, (), not_lt.mpr h, rfl⟩, hi.mpr ⟨h₁, by rw [hv, max_assoc, h₂]⟩⟩

theorem validateFactor_eq_ok (hb : b ≤ 10 ^ 27) :
    validateFactor events b f = .ok r ↔ f.WellFormed events b ∧ f.maximum = r := by
  simp only [validateFactor, bind_eq_ok, revertIf_eq_ok, foldlM_maximum hb, Nat.one_shiftLeft]
  have hs : f.scope >>> events ≠ 0 ↔ ¬ f.scope < 2 ^ events := by
    rw [Nat.shiftRight_eq_div_pow, ne_eq, Nat.div_eq_zero_iff_lt (Nat.two_pow_pos _)]
  constructor
  case mp =>
    rintro ⟨_, h₁, _, h₂, h₃, hr⟩
    simp only [hs, not_or, not_not, gt_iff_lt] at h₁ h₂
    exact ⟨⟨h₁.left, not_lt.mp h₁.right, h₂, h₃⟩, by simpa [Factor.maximum] using hr⟩
  case mpr =>
    rintro ⟨h, hr⟩
    exact ⟨(), by simp [hs, h.scope_lt, h.size_le], (), by simp [h.length_eq], h.values_le,
      by simpa [Factor.maximum] using hr⟩

theorem validateFactors_eq_ok (hb : b ≤ 10 ^ 27) :
    validateFactors events b factors = .ok r ↔
      (∀ f ∈ factors, f.WellFormed events b) ∧ (factors.map (·.maximum)).sum < 2 ^ 256 ∧
        (factors.map (·.maximum)).sum = r := by
  suffices h : ∀ s, s < 2 ^ 256 → (factors.foldlM (fun sumMaxima f => do
      checkedAdd 256 sumMaxima (← validateFactor events b f)) s = .ok r ↔
      (∀ f ∈ factors, f.WellFormed events b) ∧ s + (factors.map (·.maximum)).sum < 2 ^ 256 ∧
        s + (factors.map (·.maximum)).sum = r) by
    simpa [validateFactors] using h 0 (by decide)
  induction factors
  case nil               => intro s hs; simp; omega
  case cons f factors hi =>
    intro s hs
    simp only [List.foldlM_cons, bind_eq_ok, validateFactor_eq_ok hb, checkedAdd_eq_ok,
      List.forall_mem_cons, List.map_cons, List.sum_cons]
    constructor
    case mp =>
      rintro ⟨_, ⟨_, ⟨hf, rfl⟩, hlt, rfl⟩, h⟩
      obtain ⟨h₁, h₂, h₃⟩ := (hi _ hlt).mp h
      exact ⟨⟨hf, h₁⟩, by omega, by omega⟩
    case mpr =>
      rintro ⟨⟨hf, h₁⟩, h₂, h₃⟩
      have hlt : s + f.maximum < 2 ^ 256 := by omega
      exact ⟨_, ⟨_, ⟨hf, rfl⟩, hlt, rfl⟩, (hi _ hlt).mpr ⟨h₁, by omega, by omega⟩⟩

theorem validate_eq_ok :
    validate events b factors order = .ok r ↔
      Valid events b factors order ∧ validateWidth order (factors.map (·.scope)) 0 = .ok r := by
  simp only [validate, bind_eq_ok, revertIf_eq_ok, checkedMul_eq_ok, validateOrder_eq_ok, not_or,
    not_lt, not_not]
  constructor
  case mp =>
    rintro ⟨_, he, _, hb, _, hl, _, ho, _, ⟨hv, hd⟩, _, hf, _, ⟨_, rfl⟩, _, hs, hw⟩
    obtain ⟨hf, _, hr⟩ := (validateFactors_eq_ok hb.right).mp hf
    refine ⟨⟨by omega, he.right, hb, hl, ?_, hf, hr ▸ hs⟩, hw⟩
    exact order_perm_iff.mpr ⟨ho, fun v h => (hv v h).left, hd⟩
  case mpr =>
    rintro ⟨h, hw⟩
    obtain ⟨ho, hv, hd⟩ := order_perm_iff.mp h.order_perm
    have hs := h.sum_maxima
    have hb := h.liquidity
    have hf := (validateFactors_eq_ok hb.right).mpr ⟨h.wellFormed, by omega, rfl⟩
    exact ⟨(), ⟨h.events_pos.ne', h.events_le⟩, (), hb, (), h.length_le, (), ho, (),
      ⟨fun v hm => ⟨hv v hm, by simp⟩, hd⟩, _, hf, _, ⟨by omega, rfl⟩, (), hs, hw⟩

end FactoredCost
