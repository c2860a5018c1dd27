import Flurbo.Contracts.FactoredCost.Validate

-- A graph whose scopes lie within those of an accepted graph is accepted too: eliminating the same
-- events joins fewer scopes.

open Evm Except

namespace FactoredCost

-- Every scope lies within one of the other scopes.
def Within (scopes scopes' : List ℕ) : Prop :=
  ∀ s ∈ scopes, ∃ s' ∈ scopes', ∀ i, s.testBit i → s'.testBit i

variable {events b v r w w' bit i s : ℕ} {order scopes scopes' : List ℕ} {factors factors' : List Factor}

theorem Within.of_subset (h : scopes ⊆ scopes') : Within scopes scopes' :=
  fun s hs => ⟨s, h hs, fun _ => id⟩

-- The scopes that an event joins.
def joinedScope (scopes : List ℕ) (bit : ℕ) : ℕ :=
  scopes.foldl (fun joined s => if s &&& bit ≠ 0 then joined ||| s else joined) bit

theorem testBit_joinedScope : (joinedScope scopes (2 ^ v)).testBit i ↔
    v = i ∨ ∃ s ∈ scopes, s.testBit v ∧ s.testBit i := by
  suffices h : ∀ joined, (scopes.foldl (fun joined s => if s &&& 2 ^ v ≠ 0 then joined ||| s else joined)
      joined).testBit i ↔ joined.testBit i ∨ ∃ s ∈ scopes, s.testBit v ∧ s.testBit i by
    rw [joinedScope, h, Nat.testBit_two_pow]
    simp
  induction scopes
  case nil               => simp
  case cons s scopes hi =>
    intro joined
    rw [List.foldl_cons, hi, List.exists_mem_cons_iff, ← or_assoc]
    refine or_congr_left ?_
    split
    case isTrue h  => simp [Bits.and_two_pow_ne_zero.mp h, Nat.testBit_or]
    case isFalse h => simp [mt Bits.and_two_pow_ne_zero.mpr h]

theorem joinedScope_lt (h : ∀ s ∈ scopes, s < 2 ^ w) (hb : bit < 2 ^ w) : joinedScope scopes bit < 2 ^ w := by
  suffices hj : ∀ joined < 2 ^ w,
      scopes.foldl (fun joined s => if s &&& bit ≠ 0 then joined ||| s else joined) joined < 2 ^ w from
    hj bit hb
  induction scopes
  case nil               => exact fun _ h => h
  case cons s scopes hi =>
    intro joined hj
    have ⟨hs, h⟩ := List.forall_mem_cons.mp h
    rw [List.foldl_cons]
    apply hi h
    split
    case isTrue  => exact Nat.or_lt_two_pow hj hs
    case isFalse => exact hj

-- The scopes that remain after an event.
def remainingScopes (scopes : List ℕ) (bit : ℕ) : List ℕ :=
  scopes.map (fun s => if s &&& bit ≠ 0 then 0 else s) ++
    [joinedScope scopes bit &&& Bits.complement 256 bit]

theorem remainingScopes_lt (h : ∀ s ∈ scopes, s < 2 ^ 256) (hb : bit < 2 ^ 256) :
    ∀ s ∈ remainingScopes scopes bit, s < 2 ^ 256 := by
  simp only [remainingScopes, List.forall_mem_append, List.forall_mem_map, List.forall_mem_singleton]
  refine ⟨fun s hs => ?_, Nat.and_le_left.trans_lt (joinedScope_lt h hb)⟩
  split
  case isTrue  => decide
  case isFalse => exact h s hs

theorem popcount_le_of_testBit {s s' : ℕ} (h : s < 2 ^ 256) (h' : s' < 2 ^ 256)
    (hs : ∀ i, s.testBit i → s'.testBit i) : popcount s ≤ popcount s' := by
  rw [popcount_eq h, popcount_eq h']
  refine (List.subperm_of_subset Nat.bitIndices_nodup fun i hi => ?_).length_le
  exact Nat.mem_bitIndices.mpr (hs i (Nat.mem_bitIndices.mp hi))

theorem Within.joinedScope (h : Within scopes scopes') (hi : (joinedScope scopes (2 ^ v)).testBit i) :
    (FactoredCost.joinedScope scopes' (2 ^ v)).testBit i := by
  rw [testBit_joinedScope] at hi ⊢
  refine hi.imp_right fun ⟨s, hs, h₁, h₂⟩ => ?_
  have ⟨s', hs', hsub⟩ := h s hs
  exact ⟨s', hs', hsub v h₁, hsub i h₂⟩

theorem Within.remainingScopes (h : Within scopes scopes') (hs : ∀ s ∈ scopes, s < 2 ^ 256)
    (hs' : ∀ s ∈ scopes', s < 2 ^ 256) (hv : v < 256) :
    Within (remainingScopes scopes (2 ^ v)) (FactoredCost.remainingScopes scopes' (2 ^ v)) := by
  have hb : 2 ^ v < 2 ^ 256 := Nat.pow_lt_pow_right (by decide) hv
  have hmem : FactoredCost.joinedScope scopes' (2 ^ v) &&& Bits.complement 256 (2 ^ v) ∈
      FactoredCost.remainingScopes scopes' (2 ^ v) := by simp [FactoredCost.remainingScopes]
  have hbit (i : ℕ) : (FactoredCost.joinedScope scopes' (2 ^ v) &&& Bits.complement 256 (2 ^ v)).testBit i ↔
      (FactoredCost.joinedScope scopes' (2 ^ v)).testBit i ∧ v ≠ i := by
    rw [Bits.testBit_and_complement (joinedScope_lt hs' hb), Nat.testBit_two_pow]
    simp
  simp only [Within, FactoredCost.remainingScopes, List.forall_mem_append, List.forall_mem_map,
    List.forall_mem_singleton]
  refine ⟨fun s hm => ?_, _, hmem, fun i hi => ?_⟩
  case refine_1 =>
    split
    case isTrue  => exact ⟨_, hmem, fun i hi => by simp at hi⟩
    case isFalse hsv =>
      rw [Bits.and_two_pow_ne_zero] at hsv
      have ⟨s', hm', hsub⟩ := h s hm
      by_cases hv' : s'.testBit v
      case pos =>
        -- The covering scope is consumed, and what is left of it covers a scope without the event.
        refine ⟨_, hmem, fun i hi => (hbit i).mpr ⟨?_, ?_⟩⟩
        · exact testBit_joinedScope.mpr <| .inr ⟨s', hm', hv', hsub i hi⟩
        · rintro rfl
          exact hsv hi
      case neg =>
        refine ⟨s', ?_, hsub⟩
        simp only [List.mem_append, List.mem_map]
        exact .inl ⟨s', hm', if_neg (mt Bits.and_two_pow_ne_zero.mp hv')⟩
  case refine_2 =>
    rw [Bits.testBit_and_complement (joinedScope_lt hs hb), Nat.testBit_two_pow] at hi
    simp only [Bool.and_eq_true, Bool.not_eq_true', decide_eq_false_iff_not] at hi
    exact (hbit i).mpr ⟨h.joinedScope hi.left, hi.right⟩

theorem validateWidth_cons :
    validateWidth (v :: order) scopes w = .ok r ↔
      0 < popcount (joinedScope scopes (1 <<< v)) ∧ popcount (joinedScope scopes (1 <<< v)) ≤ 3 ∧
        validateWidth order (remainingScopes scopes (1 <<< v))
          (max w (popcount (joinedScope scopes (1 <<< v)) - 1)) = .ok r := by
  have hmax (m : ℕ) : (if m > w then m else w) = max w m := by split <;> omega
  simp only [validateWidth, bind_eq_ok, checkedSub_eq_ok, revertIf_eq_ok, hmax, joinedScope,
    remainingScopes]
  constructor
  case mp =>
    rintro ⟨_, ⟨h, rfl⟩, _, hw, hr⟩
    exact ⟨h, by omega, hr⟩
  case mpr =>
    rintro ⟨h, hw, hr⟩
    exact ⟨_, ⟨h, rfl⟩, (), by omega, hr⟩

-- Scopes within those of an accepted graph are accepted, for the same order of elimination and with
-- no larger width.
theorem validateWidth_within (h : Within scopes scopes') (hs : ∀ s ∈ scopes, s < 2 ^ 256)
    (hs' : ∀ s ∈ scopes', s < 2 ^ 256) (ho : ∀ v ∈ order, v < 256) (hw : w ≤ w')
    (hr : validateWidth order scopes' w' = .ok r) : ∃ r' ≤ r, validateWidth order scopes w = .ok r' := by
  induction order generalizing scopes scopes' w w'
  case nil             => cases hr; exact ⟨w, hw, rfl⟩
  case cons v order hi =>
    have ⟨hv, ho⟩ := List.forall_mem_cons.mp ho
    have hb : 2 ^ v < 2 ^ 256 := Nat.pow_lt_pow_right (by decide) hv
    simp only [validateWidth_cons, Nat.one_shiftLeft] at hr ⊢
    have ⟨_, hle, hr⟩ := hr
    have hpos : joinedScope scopes (2 ^ v) ≠ 0 := by
      intro h₀
      have : (joinedScope scopes (2 ^ v)).testBit v := testBit_joinedScope.mpr (.inl rfl)
      simp [h₀] at this
    have hcount := popcount_le_of_testBit (joinedScope_lt hs hb) (joinedScope_lt hs' hb)
      fun i => h.joinedScope
    have ⟨r', hle', hr'⟩ := hi (h.remainingScopes hs hs' hv) (remainingScopes_lt hs hb)
      (remainingScopes_lt hs' hb) ho (max_le_max hw (Nat.sub_le_sub_right hcount 1)) hr
    exact ⟨r', hle', popcount_pos hpos, hcount.trans hle, hr'⟩

theorem Valid.sublist (h : Valid events b factors' order) (hs : factors.Sublist factors') :
    Valid events b factors order where
  events_pos := h.events_pos
  events_le  := h.events_le
  liquidity  := h.liquidity
  length_le  := hs.length_le.trans h.length_le
  order_perm := h.order_perm
  wellFormed := fun f hf => h.wellFormed f (hs.subset hf)
  sum_maxima := ((hs.map Factor.maximum).sum_le_sum (by simp)).trans h.sum_maxima

-- Valid tables on scopes of an accepted graph are accepted.
theorem Valid.validate_ok (h : Valid events b factors order) (h' : Valid events b factors' order)
    (hw : Within (factors.map (·.scope)) (factors'.map (·.scope)))
    (hr : validateWidth order (factors'.map (·.scope)) 0 = .ok r) :
    ∃ r' ≤ r, validate events b factors order = .ok r' := by
  have hlt {gs : List Factor} (hg : Valid events b gs order) : ∀ s ∈ gs.map (·.scope), s < 2 ^ 256 := by
    refine List.forall_mem_map.mpr fun f hf => ?_
    have := (hg.wellFormed f hf).scope_lt_word hg.events_le
    omega
  have ho : ∀ v ∈ order, v < 256 := fun v hv => by
    have := List.mem_range.mp (h.order_perm.mem_iff.mp hv)
    have := h.events_le
    omega
  have ⟨r', hle, hr'⟩ := validateWidth_within hw (hlt h) (hlt h') ho le_rfl hr
  exact ⟨r', hle, validate_eq_ok.mpr ⟨h, hr'⟩⟩

end FactoredCost
