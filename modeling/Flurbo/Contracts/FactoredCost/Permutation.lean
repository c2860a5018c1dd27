import Flurbo.Contracts.FactoredCost.Validate

-- Validation and evaluation do not depend on the order in which the factors are listed.

open Evm Except

namespace FactoredCost

section Evaluation

variable {α : Type} {K : Kernel α} {tables tables' ts : List (Table α)} {order : List ℕ} {s : ℕ}
  {a b c r : α}

-- Adding two more summands succeeds in either order.
def Kernel.RightComm (K : Kernel α) : Prop :=
  ∀ s a b r, (K.add s a >>= (K.add · b)) = .ok r → (K.add s b >>= (K.add · a)) = .ok r

theorem Kernel.RightComm.foldlM_perm (hK : K.RightComm) (get : Table α → Sol α)
    (hp : tables.Perm tables') (h : tables.foldlM (fun s t => do K.add s (← get t)) a = .ok r) :
    tables'.foldlM (fun s t => do K.add s (← get t)) a = .ok r := by
  refine Except.RightComm.foldlM_perm ?_ hp h
  intro s x y r h
  simp only [bind_eq_ok] at h ⊢
  obtain ⟨_, ⟨a, ha, h₁⟩, b, hb, h₂⟩ := h
  have := hK s a b r (by simp [h₁, h₂])
  simp only [bind_eq_ok] at this
  obtain ⟨c, h₁, h₂⟩ := this
  exact ⟨c, ⟨b, hb, h₁⟩, a, ha, h₂⟩

theorem bucketSum_perm (hK : K.RightComm) (hp : tables.Perm tables')
    (h : bucketSum K tables s = .ok r) : bucketSum K tables' s = .ok r :=
  hK.foldlM_perm (fun t => nth t.values (project t.scope s)) hp h

theorem joined_perm (hp : tables.Perm tables') (bit : ℕ) :
    tables.foldl (fun joined table => joined ||| table.scope) bit =
      tables'.foldl (fun joined table => joined ||| table.scope) bit :=
  hp.foldl_eq' (fun _ _ _ _ _ => Nat.or_right_comm ..) _

theorem eliminate_perm (hK : K.RightComm) (hp : tables.Perm tables') {bit : ℕ}
    (h : eliminate K tables bit = .ok ts) :
    ∃ ts', eliminate K tables' bit = .ok ts' ∧ ts.Perm ts' := by
  have hb := hp.filter (·.mentions bit)
  simp only [eliminate, joined_perm hb, bind_eq_ok, pure_eq_ok, ok.injEq, mapM_eq_ok] at h ⊢
  obtain ⟨values, hv, hr⟩ := h
  refine ⟨_, ⟨values, ?_, rfl⟩, hr ▸ (hp.map _).append_right _⟩
  apply hv.imp
  rintro loc value ⟨no, hno, yes, hyes, h⟩
  exact ⟨no, bucketSum_perm hK hb hno, yes, bucketSum_perm hK hb hyes, h⟩

theorem foldlM_eliminate_perm (hK : K.RightComm) (hp : tables.Perm tables')
    (h : order.foldlM (fun tables v => eliminate K tables (1 <<< v)) tables = .ok ts) :
    ∃ ts', order.foldlM (fun tables v => eliminate K tables (1 <<< v)) tables' = .ok ts' ∧
      ts.Perm ts' := by
  induction order generalizing tables tables'
  case nil             => cases h; exact ⟨_, rfl, hp⟩
  case cons v order hi =>
    simp only [List.foldlM_cons, bind_eq_ok] at h ⊢
    obtain ⟨ts, he, h⟩ := h
    obtain ⟨ts', he', hp'⟩ := eliminate_perm hK hp he
    obtain ⟨us, hu, hp''⟩ := hi hp' h
    exact ⟨us, ⟨ts', he', hu⟩, hp''⟩

theorem evaluate_perm (hK : K.RightComm) (hp : tables.Perm tables')
    (h : evaluate K tables order = .ok r) : evaluate K tables' order = .ok r := by
  simp only [evaluate, bind_eq_ok] at h
  obtain ⟨ts, he, h⟩ := h
  obtain ⟨ts', he', hp'⟩ := foldlM_eliminate_perm hK hp he
  rw [evaluate, he', ok_bind]
  exact hK.foldlM_perm (fun t => nth t.values 0) (hp'.filter _) h

theorem rightComm_logKernel (prb : PRBMath) : (logKernel prb).RightComm := by
  intro s a b r h
  simp only [logKernel, bind_eq_ok, FactoredLogMath.add_eq_ok] at h ⊢
  obtain ⟨_, ⟨hs, ha, _, hc⟩, _, hb, hr, he⟩ := h
  subst hc he
  refine ⟨_, ⟨hs, hb, ⟨?_, ?_⟩, rfl⟩, ⟨?_, ?_⟩, ha, hr, ?_⟩
  all_goals have := hs.le; have := ha.le; have := hb.le; have := hr.bound
  all_goals simp only [FactoredLogMath.LogBounds.mk.injEq] at *
  all_goals omega

end Evaluation

section Validation

variable {events b r w : ℕ} {factors factors' : List Factor} {order scopes scopes' : List ℕ}

theorem validateWidth_perm (hp : scopes.Perm scopes') :
    validateWidth order scopes w = validateWidth order scopes' w := by
  induction order generalizing scopes scopes' w
  case nil             => rfl
  case cons v order hi =>
    let bit := 1 <<< v
    have hj := hp.foldl_eq' (f := fun joined s => if s &&& bit ≠ 0 then joined ||| s else joined)
      (fun _ _ _ _ _ => by split_ifs <;> first | rfl | exact Nat.or_right_comm ..) bit
    have hs (w joined : ℕ) := hi (w := w) <|
      (hp.map fun s => if s &&& bit ≠ 0 then 0 else s).append_right [joined]
    simp only [validateWidth, hj, hs, bit]

theorem Valid.perm (h : Valid events b factors order) (hp : factors.Perm factors') :
    Valid events b factors' order where
  events_pos := h.events_pos
  events_le  := h.events_le
  liquidity  := h.liquidity
  length_le  := hp.length_eq ▸ h.length_le
  order_perm := h.order_perm
  wellFormed := fun f hf => h.wellFormed f (hp.mem_iff.mpr hf)
  sum_maxima := (hp.map Factor.maximum).sum_eq ▸ h.sum_maxima

theorem validate_perm (hp : factors.Perm factors') (h : validate events b factors order = .ok r) :
    validate events b factors' order = .ok r := by
  have ⟨hv, hw⟩ := validate_eq_ok.mp h
  exact validate_eq_ok.mpr ⟨hv.perm hp, validateWidth_perm (hp.map _) ▸ hw⟩

end Validation

section Bounds

variable {prb : PRBMath} {events b : ℕ} {factors factors' : List Factor} {order : List ℕ}
  {c : QuoteMath.CostBounds}

theorem evaluateBounds_perm (hp : factors.Perm factors')
    (h : evaluateBounds prb b factors order = .ok c) :
    evaluateBounds prb b factors' order = .ok c := by
  simp only [evaluateBounds, bind_eq_ok, mapM_eq_ok] at h ⊢
  obtain ⟨tables, ht, log, he, hc⟩ := h
  obtain ⟨tables', ht', hp'⟩ := List.perm_comp_forall₂ hp.symm ht
  exact ⟨tables', ht', log, evaluate_perm (rightComm_logKernel prb) hp'.symm he, hc⟩

theorem bounds_perm (hp : factors.Perm factors') (h : bounds prb events b factors order = .ok c) :
    bounds prb events b factors' order = .ok c := by
  simp only [bounds, bind_eq_ok] at h ⊢
  obtain ⟨w, hv, h⟩ := h
  exact ⟨w, validate_perm hp hv, evaluateBounds_perm hp h⟩

end Bounds

end FactoredCost
