import Flurbo.Contracts.FactoredCost.Width
import Flurbo.Library.SignedWord
import Flurbo.Server.PairMath

-- The two copies outside of the contract of its limit on the width of a graph: one refuses combinations
-- before they are traded, the other one snapshots that are analysed.

open Evm Except SignedWord
open FactoredCost (Within joinedScope remainingScopes validateWidth)

namespace Pilot

-- `value.toString(2).replace(/0/g, '').length`, which counts a sign too.
def popcount (value : ℤ) : ℕ := PairMath.ones value.natAbs + if value < 0 then 1 else 0

def eliminates : List ℕ → List ℤ → Bool
  | [], _                  => true
  | index :: order, pending =>
    let bit := shl 1 index
    let joined := pending.foldl (fun joined p => if land p bit ≠ 0 then lor joined p else joined) bit
    let pending := pending.map fun p => if land p bit ≠ 0 then 0 else p
    if (popcount joined : ℤ) - 1 > 2 then false else eliminates order (pending ++ [land joined (lnot bit)])

def combinationFits (events : ℕ) (order : List ℕ) (scopes : List ℤ) (scope : ℤ) : Bool :=
  if order.length ≠ events then false
  else if scope ∈ scopes then true
  else eliminates order (scopes ++ [scope])

end Pilot

namespace FactoredCost

variable {v w r events b scope : ℕ} {order scopes scopes' : List ℕ} {factors : List Factor}

section Agreement

theorem popcount_eq_ones (h : scope < 2 ^ 256) : popcount scope = PairMath.ones scope := popcount_eq h

theorem joined_natCast (hs : ∀ s ∈ scopes, s < 2 ^ 31) (hv : v < 31) :
    (scopes.map ((↑) : ℕ → ℤ)).foldl
      (fun joined p => if land p (shl 1 v) ≠ 0 then lor joined p else joined) (shl 1 v) =
    (joinedScope scopes (2 ^ v) : ℕ) := by
  have hb : 2 ^ v < 2 ^ 31 := Nat.pow_lt_pow_right (by decide) hv
  suffices h : ∀ joined : ℕ, joined < 2 ^ 31 → (scopes.map ((↑) : ℕ → ℤ)).foldl
      (fun joined p => if land p (shl 1 v) ≠ 0 then lor joined p else joined) (joined : ℤ) =
      (scopes.foldl (fun joined s => if s &&& 2 ^ v ≠ 0 then joined ||| s else joined) joined : ℕ) by
    rw [joinedScope, ← h _ hb, shl_one hv]
  induction scopes
  case nil               => exact fun _ _ => rfl
  case cons s scopes hi =>
    intro joined hj
    obtain ⟨hs₀, hs⟩ := List.forall_mem_cons.mp hs
    have hland : land s (shl 1 v) ≠ 0 ↔ s &&& 2 ^ v ≠ 0 := by
      rw [shl_one hv, land_natCast hs₀ hb, Nat.cast_ne_zero]
    rw [List.map_cons, List.foldl_cons, List.foldl_cons]
    by_cases h : s &&& 2 ^ v ≠ 0
    · rw [if_pos (hland.mpr h), if_pos h, lor_natCast hj hs₀]
      exact hi hs _ (Nat.or_lt_two_pow hj hs₀)
    · rw [if_neg (mt hland.mp h), if_neg h]
      exact hi hs _ hj

-- A short scope is cleared by the complement in words of either length.
theorem and_complement_eq (h : scope < 2 ^ 31) (x : ℕ) :
    scope &&& Bits.complement 32 x = scope &&& Bits.complement 256 x := by
  apply Nat.eq_of_testBit_eq
  intro i
  rw [Bits.testBit_and_complement (h.trans (by decide)), Bits.testBit_and_complement (h.trans (by decide))]

theorem remaining_natCast (hs : ∀ s ∈ scopes, s < 2 ^ 31) (hv : v < 31) :
    (scopes.map ((↑) : ℕ → ℤ)).map (fun p => if land p (shl 1 v) ≠ 0 then 0 else p) ++
      [land (joinedScope scopes (2 ^ v) : ℕ) (lnot (shl 1 v))] =
    (remainingScopes scopes (2 ^ v)).map ((↑) : ℕ → ℤ) := by
  have hb : 2 ^ v < 2 ^ 31 := Nat.pow_lt_pow_right (by decide) hv
  have hj := joinedScope_lt hs hb
  rw [remainingScopes, List.map_append, List.map_map, List.map_map, List.map_singleton, shl_one hv, land_lnot hj hb]
  congr 1
  · refine List.map_congr_left fun s hm => ?_
    have hland := land_natCast (hs s hm) hb
    simp only [Function.comp_apply, hland, ne_eq, Nat.cast_eq_zero]
    split <;> rfl
  · rw [and_complement_eq hj]

theorem remainingScopes_lt_of (hs : ∀ s ∈ scopes, s < 2 ^ 31) (hb : 2 ^ v < 2 ^ 31) :
    ∀ s ∈ remainingScopes scopes (2 ^ v), s < 2 ^ 31 := by
  simp only [remainingScopes, List.forall_mem_append, List.forall_mem_map, List.forall_mem_singleton]
  refine ⟨fun s hm => ?_, Nat.and_le_left.trans_lt (joinedScope_lt hs hb)⟩
  split
  case isTrue  => decide
  case isFalse => exact hs s hm

-- An event is in the scope that it joins.
theorem joinedScope_pos : 0 < PairMath.ones (joinedScope scopes (2 ^ v)) := by
  refine List.length_pos_of_mem (a := v) ?_
  rw [Nat.mem_bitIndices, testBit_joinedScope]
  exact .inl rfl

-- The elimination that is written with 32-bit words accepts what the contract's does.
theorem eliminates_iff (hs : ∀ s ∈ scopes, s < 2 ^ 31) (ho : ∀ v ∈ order, v < 31) :
    Pilot.eliminates order (scopes.map ((↑) : ℕ → ℤ)) = true ↔ ∃ r, validateWidth order scopes w = .ok r := by
  induction order generalizing scopes w
  case nil             => exact iff_of_true rfl ⟨w, rfl⟩
  case cons v order hi =>
    have ⟨hv, ho⟩ := List.forall_mem_cons.mp ho
    have hb : 2 ^ v < 2 ^ 31 := Nat.pow_lt_pow_right (by decide) hv
    have hj := joinedScope_lt hs hb
    have hcount : popcount (joinedScope scopes (2 ^ v)) = Pilot.popcount (joinedScope scopes (2 ^ v) : ℕ) := by
      rw [popcount_eq_ones (hj.trans (by decide)), Pilot.popcount, Int.natAbs_natCast, if_neg (by omega), Nat.add_zero]
    have hpos : 0 < popcount (joinedScope scopes (2 ^ v)) := by
      rw [popcount_eq_ones (hj.trans (by decide))]
      exact joinedScope_pos
    rw [Pilot.eliminates]
    simp only [joined_natCast hs hv, remaining_natCast hs hv, validateWidth_cons, Nat.one_shiftLeft, hpos,
      true_and, ← hcount]
    by_cases hle : popcount (joinedScope scopes (2 ^ v)) ≤ 3
    · rw [if_neg (by omega)]
      simp only [hle, true_and]
      exact hi (remainingScopes_lt_of hs hb) ho
    · rw [if_pos (by omega)]
      simp [hle]

theorem Within.trans (h : Within scopes scopes') {scopes'' : List ℕ} (h' : Within scopes' scopes'') :
    Within scopes scopes'' := fun s hs =>
  have ⟨s', hs', hsub⟩ := h s hs
  have ⟨s'', hs'', hsub'⟩ := h' s' hs'
  ⟨s'', hs'', fun i hi => hsub' i (hsub i hi)⟩

-- The scopes that remain after an event if those that mention it are dropped.
def droppedScopes (scopes : List ℕ) (bit : ℕ) : List ℕ :=
  (scopes.filter fun s => s &&& bit = 0) ++ [joinedScope scopes bit &&& Bits.complement 32 bit]

theorem eliminate_eq (scopes : List ℕ) (v : ℕ) : PairMath.eliminate scopes v =
    if PairMath.ones (joinedScope scopes (2 ^ v)) > 3 then .error .width else .ok (droppedScopes scopes (2 ^ v)) := by
  have hjoin : (scopes.filter fun s => s &&& 2 ^ v ≠ 0).foldl (· ||| ·) (2 ^ v) = joinedScope scopes (2 ^ v) := by
    rw [List.foldl_filter, joinedScope]
    simp
  rw [PairMath.eliminate]
  simp only [Nat.one_shiftLeft, hjoin, droppedScopes]

theorem droppedScopes_lt (hs : ∀ s ∈ scopes, s < 2 ^ 31) (hb : 2 ^ v < 2 ^ 31) :
    ∀ s ∈ droppedScopes scopes (2 ^ v), s < 2 ^ 31 := by
  intro s hm
  rcases List.mem_append.mp hm with hm | hm
  · exact hs s (List.mem_of_mem_filter hm)
  · rw [List.mem_singleton.mp hm]
    exact Nat.and_le_left.trans_lt (joinedScope_lt hs hb)

-- Consumed scopes add nothing, whether they are cleared or dropped.
theorem within_dropped (hs : ∀ s ∈ scopes, s < 2 ^ 31) (hb : 2 ^ v < 2 ^ 31) :
    Within (droppedScopes scopes (2 ^ v)) (remainingScopes scopes (2 ^ v)) ∧
      Within (remainingScopes scopes (2 ^ v)) (droppedScopes scopes (2 ^ v)) := by
  rw [droppedScopes, and_complement_eq (joinedScope_lt hs hb)]
  refine ⟨Within.of_subset fun s hm => ?_, fun s hm => ?_⟩
  · rw [List.mem_append, List.mem_filter, decide_eq_true_iff] at hm
    rw [remainingScopes, List.mem_append, List.mem_map]
    exact hm.imp_left fun hm => ⟨s, hm.1, if_neg (not_not.mpr hm.2)⟩
  · rw [remainingScopes, List.mem_append, List.mem_map] at hm
    rcases hm with ⟨s', hm, rfl⟩ | hm
    · by_cases h : s' &&& 2 ^ v = 0
      · rw [if_neg (not_not.mpr h)]
        exact ⟨s', by simp [hm, h], fun _ => id⟩
      · rw [if_pos h]
        exact ⟨_, List.mem_append_right _ (List.mem_singleton_self _), by simp⟩
    · exact ⟨s, List.mem_append_right _ hm, fun _ => id⟩

-- The elimination that drops consumed scopes accepts what the contract's does.
theorem eliminate_iff (h : Within scopes scopes') (h' : Within scopes' scopes) (hs : ∀ s ∈ scopes, s < 2 ^ 31)
    (hs' : ∀ s ∈ scopes', s < 2 ^ 31) (ho : ∀ v ∈ order, v < 31) :
    (∃ l, order.foldlM PairMath.eliminate scopes = .ok l) ↔ ∃ r, validateWidth order scopes' w = .ok r := by
  induction order generalizing scopes scopes' w
  case nil             => exact iff_of_true ⟨scopes, rfl⟩ ⟨w, rfl⟩
  case cons v order hi =>
    have ⟨hv, ho⟩ := List.forall_mem_cons.mp ho
    have hb : 2 ^ v < 2 ^ 31 := Nat.pow_lt_pow_right (by decide) hv
    have hv' : v < 256 := by omega
    have hlt {l : List ℕ} (hl : ∀ s ∈ l, s < 2 ^ 31) : ∀ s ∈ l, s < 2 ^ 256 := fun s hm =>
      (hl s hm).trans (by decide)
    -- The two joined scopes have the same events.
    have hjoin : joinedScope scopes (2 ^ v) = joinedScope scopes' (2 ^ v) :=
      Nat.eq_of_testBit_eq fun i => Bool.eq_iff_iff.mpr ⟨h.joinedScope, h'.joinedScope⟩
    have hcount := popcount_eq_ones ((joinedScope_lt hs' hb).trans (by decide))
    have hpos : 0 < popcount (joinedScope scopes' (2 ^ v)) := hcount ▸ joinedScope_pos
    rw [List.foldlM_cons, eliminate_eq, hjoin, ← hcount]
    simp only [validateWidth_cons, Nat.one_shiftLeft, hpos, true_and]
    by_cases hle : popcount (joinedScope scopes' (2 ^ v)) ≤ 3
    · rw [if_neg (by omega)]
      simp only [hle, true_and, ok_bind]
      have ⟨hd, hd'⟩ := within_dropped hs hb
      exact hi (hd.trans (h.remainingScopes (hlt hs) (hlt hs') hv'))
        ((h'.remainingScopes (hlt hs') (hlt hs) hv').trans hd') (droppedScopes_lt hs hb)
        (remainingScopes_lt_of hs' hb) ho
    · rw [if_pos (by omega)]
      simp [hle]

-- An eliminated scope has at most three events.
theorem popcount_le_of_validateWidth (hm : scope ∈ scopes) (hs : ∀ s ∈ scopes, s < 2 ^ 256)
    (ho : ∀ v ∈ order, v < 256) (hv : ∃ v ∈ order, scope.testBit v) (h : validateWidth order scopes w = .ok r) :
    popcount scope ≤ 3 := by
  induction order generalizing scopes w
  case nil             => simp at hv
  case cons v order hi =>
    have ⟨hv256, ho⟩ := List.forall_mem_cons.mp ho
    have hb : 2 ^ v < 2 ^ 256 := Nat.pow_lt_pow_right (by decide) hv256
    simp only [validateWidth_cons, Nat.one_shiftLeft] at h
    obtain ⟨_, hle, h⟩ := h
    by_cases hbit : scope.testBit v
    · refine (popcount_le_of_testBit (hs scope hm) (joinedScope_lt hs hb) fun i hi => ?_).trans hle
      exact testBit_joinedScope.mpr (.inr ⟨scope, hm, hbit, hi⟩)
    · refine hi ?_ (remainingScopes_lt hs hb) ho ?_ h
      · rw [remainingScopes, List.mem_append, List.mem_map]
        exact .inl ⟨scope, hm, if_neg (mt Bits.and_two_pow_ne_zero.mp hbit)⟩
      · obtain ⟨v', hv', ht⟩ := hv
        rcases List.mem_cons.mp hv' with rfl | hv'
        · exact absurd ht hbit
        · exact ⟨v', hv', ht⟩

-- The scopes that a trade leaves.
def scopesAfter (factors : List Factor) (scope : ℕ) : List ℕ :=
  (factors.map (·.scope)).filter (· ≠ scope) ++ [scope]

theorem exists_event (hp : 0 < scope) (hs : scope < 2 ^ events) (ho : order.Perm (List.range events)) :
    ∃ v ∈ order, scope.testBit v := by
  obtain ⟨v, hv⟩ := Nat.exists_testBit_of_ne_zero hp.ne'
  refine ⟨v, ho.mem_iff.mpr (List.mem_range.mpr ?_), hv⟩
  by_contra hle
  rw [Bits.testBit_eq_false hs (not_lt.mp hle)] at hv
  cases hv

-- A combination is offered if and only if the contract accepts the scopes that its trade leaves.
theorem combinationFits_iff (h : validate events b factors order = .ok r) (he : events ≤ 31) (hp : 0 < scope)
    (hs : scope < 2 ^ events) :
    Pilot.combinationFits events order ((factors.map (·.scope)).map ((↑) : ℕ → ℤ)) scope = true ↔
      popcount scope ≤ 3 ∧ ∃ width, validateWidth order (scopesAfter factors scope) 0 = .ok width := by
  have ⟨hv, hw⟩ := validate_eq_ok.mp h
  have hpow : 2 ^ events ≤ 2 ^ 31 := Nat.pow_le_pow_right (by decide) he
  have hscopes : ∀ s ∈ factors.map (·.scope), s < 2 ^ 31 :=
    List.forall_mem_map.mpr fun f hf => (hv.wellFormed f hf).scope_lt.trans_le hpow
  have horder : ∀ v ∈ order, v < 31 := fun v hm =>
    (List.mem_range.mp (hv.order_perm.mem_iff.mp hm)).trans_le he
  have hlt {l : List ℕ} (hl : ∀ s ∈ l, s < 2 ^ 31) : ∀ s ∈ l, s < 2 ^ 256 := fun s hm =>
    (hl s hm).trans (by decide)
  have hafter : ∀ s ∈ scopesAfter factors scope, s < 2 ^ 31 := by
    intro s hm
    rcases List.mem_append.mp hm with hm | hm
    · exact hscopes s (List.mem_of_mem_filter hm)
    · exact List.mem_singleton.mp hm ▸ hs.trans_le hpow
  have hlen : ¬ order.length ≠ events := not_not.mpr (by simpa using hv.order_perm.length_eq)
  rw [Pilot.combinationFits, if_neg hlen]
  by_cases hm : scope ∈ factors.map (·.scope)
  · -- A scope that is known joins nothing anew.
    obtain ⟨f, hf, rfl⟩ := List.mem_map.mp hm
    have hsub : scopesAfter factors f.scope ⊆ factors.map (·.scope) := by
      intro s hs'
      rcases List.mem_append.mp hs' with hs' | hs'
      · exact List.mem_of_mem_filter hs'
      · exact List.mem_singleton.mp hs' ▸ hm
    rw [if_pos (List.mem_map_of_mem hm)]
    refine iff_of_true rfl ⟨(hv.wellFormed f hf).size_le, ?_⟩
    have ⟨r', _, hr'⟩ := validateWidth_within (.of_subset hsub) (hlt hafter) (hlt hscopes)
      (fun v hm => (horder v hm).trans (by decide)) le_rfl hw
    exact ⟨r', hr'⟩
  · have hnot : ((scope : ℕ) : ℤ) ∉ (factors.map (·.scope)).map ((↑) : ℕ → ℤ) := by
      rw [List.mem_map]
      rintro ⟨s, hs', he⟩
      exact hm (Int.ofNat.inj he ▸ hs')
    have heq : scopesAfter factors scope = factors.map (·.scope) ++ [scope] := by
      rw [scopesAfter, List.filter_eq_self.mpr]
      intro s hs'
      simp only [ne_eq, decide_eq_true_eq]
      rintro rfl
      exact hm hs'
    have hcast : (factors.map (·.scope)).map ((↑) : ℕ → ℤ) ++ [(scope : ℤ)] =
        (scopesAfter factors scope).map ((↑) : ℕ → ℤ) := by
      rw [heq, List.map_append, List.map_singleton]
    rw [if_neg hnot, hcast, eliminates_iff (w := 0) hafter horder, iff_and_self]
    rintro ⟨width, hwidth⟩
    exact popcount_le_of_validateWidth (by simp [scopesAfter]) (hlt hafter)
      (fun v hm => (horder v hm).trans (by decide)) (exists_event hp hs hv.order_perm) hwidth

end Agreement

end FactoredCost
