import Mathlib.Algebra.BigOperators.Group.List.Basic
import Mathlib.Algebra.BigOperators.Ring.List
import Mathlib.Algebra.Order.BigOperators.Group.List
import Mathlib.Algebra.Order.Ring.Int
import Mathlib.Data.List.Perm.Basic
import Mathlib.Tactic.Ring
import Mathlib.Tactic.Linarith

-- Shares of a whole that are rounded down to units, and the missing units that go to the largest
-- remainders. The shares of a product of two-way choices add up to a whole.

namespace Apportion

section Remainders

variable {rests : List ℤ} {scale : ℤ} {m : ℕ}

theorem sum_le_length_mul (h : ∀ r ∈ rests, r ≤ scale) : rests.sum ≤ rests.length * scale := by
  induction rests
  case nil             => simp
  case cons r rests hi =>
    have ⟨hr, h⟩ := List.forall_mem_cons.mp h
    have := hi h
    rw [List.sum_cons, List.length_cons]
    push_cast
    linarith

theorem abs_sum_sub_le {β : Type*} {l : List β} {f g bound : β → ℤ} (h : ∀ x ∈ l, |f x - g x| ≤ bound x) :
    |(l.map f).sum - (l.map g).sum| ≤ (l.map bound).sum := by
  induction l
  case nil         => simp
  case cons x l hi =>
    have ⟨hx, h⟩ := List.forall_mem_cons.mp h
    simp only [List.map_cons, List.sum_cons]
    have hi := hi h
    rw [abs_le] at *
    constructor <;> linarith

-- As many units are missing as the remainders amount to.
theorem missing_le_length (hs : 0 < scale) (h : ∀ r ∈ rests, r ≤ scale) (hm : rests.sum = m * scale) :
    m ≤ rests.length := by
  have hle := sum_le_length_mul h
  rw [hm] at hle
  exact_mod_cast le_of_mul_le_mul_right hle hs

-- In falling order, the remainders that receive a missing unit are positive.
theorem pos_of_mem_take (hsorted : rests.Pairwise (· ≥ ·)) (h : ∀ r ∈ rests, 0 ≤ r ∧ r < scale)
    (hm : rests.sum = m * scale) {r : ℤ} (hr : r ∈ rests.take m) : 0 < r := by
  have ⟨k, hk, hkr⟩ := List.mem_iff_getElem.mp hr
  rw [List.length_take, lt_min_iff] at hk
  rw [List.getElem_take] at hkr
  have hmem : rests[k] ∈ rests := List.getElem_mem hk.right
  have hscale : 0 < scale := (h _ hmem).left.trans_lt (h _ hmem).right
  by_contra hpos
  -- From a remainder of zero on, all are zero, and those before it do not suffice.
  have hzero : ∀ x ∈ rests.drop k, x ≤ 0 := by
    intro x hx
    rw [List.drop_eq_getElem_cons hk.right, List.mem_cons] at hx
    have hsub : (rests[k] :: rests.drop (k + 1)).Pairwise (· ≥ ·) := by
      rw [← List.drop_eq_getElem_cons hk.right]
      exact hsorted.drop
    have hle : rests[k] ≤ 0 := hkr.trans_le (not_lt.mp hpos)
    exact hx.elim (· ▸ hle) fun hx => ((List.pairwise_cons.mp hsub).left x hx).le.trans hle
  have hdrop : (rests.drop k).sum ≤ 0 := (sum_le_length_mul hzero).trans_eq (mul_zero _)
  have htake : (rests.take k).sum ≤ (rests.take k).length * scale :=
    sum_le_length_mul fun x hx => (h x (List.mem_of_mem_take hx)).right.le
  have hsum : (rests.take k).sum + (rests.drop k).sum = rests.sum := by
    rw [← List.sum_append, List.take_append_drop]
  rw [List.length_take, min_eq_left hk.right.le] at htake
  have hlt : (k : ℤ) * scale < m * scale := mul_lt_mul_of_pos_right (by exact_mod_cast hk.left) hscale
  linarith

theorem sum_modify_succ {shares : List ℤ} {i : ℕ} (h : i < shares.length) :
    (shares.modify i (· + 1)).sum = shares.sum + 1 := by
  induction shares generalizing i
  case nil               => cases h
  case cons x shares hi =>
    cases i
    case zero   => rw [List.modify_zero_cons, List.sum_cons, List.sum_cons]; ring
    case succ i =>
      rw [List.modify_succ_cons, List.sum_cons, List.sum_cons, hi (Nat.lt_of_succ_lt_succ h)]
      ring

-- One unit to each of the given positions.
def bump (positions : List ℕ) (shares : List ℤ) : List ℤ :=
  positions.foldl (fun shares i => shares.modify i (· + 1)) shares

variable {positions : List ℕ} {shares : List ℤ}

@[simp]
theorem length_bump : (bump positions shares).length = shares.length := by
  induction positions generalizing shares
  case nil          => rfl
  case cons i is hi => rw [bump, List.foldl_cons, ← bump, hi, List.length_modify]

theorem sum_bump (h : ∀ i ∈ positions, i < shares.length) :
    (bump positions shares).sum = shares.sum + positions.length := by
  induction positions generalizing shares
  case nil          => simp [bump]
  case cons i is hi =>
    have ⟨hlt, h⟩ := List.forall_mem_cons.mp h
    rw [bump, List.foldl_cons, ← bump, hi (by simpa using h), sum_modify_succ hlt, List.length_cons]
    push_cast
    ring

theorem getElem?_bump (h : positions.Nodup) (s : ℕ) :
    (bump positions shares)[s]? = shares[s]?.map (· + if s ∈ positions then 1 else 0) := by
  induction positions generalizing shares
  case nil          => simp [bump]
  case cons i is hi =>
    have ⟨hi', h⟩ := List.nodup_cons.mp h
    rw [bump, List.foldl_cons, ← bump, hi h, List.getElem?_modify]
    by_cases he : i = s
    · subst he
      cases shares[i]? <;> simp [hi']
    · simp [he, Ne.symm he]

end Remainders

section Weights

variable {α : Type*} [CommRing α]

-- The weight of a combination, whose bit `j` is the choice that the `j`-th factor depends on.
def weight (ws : List (Bool → α)) (s : ℕ) : α :=
  (ws.mapIdx fun j w => w (s.testBit j)).prod

theorem weight_cons (w : Bool → α) (ws : List (Bool → α)) (s : ℕ) :
    weight (w :: ws) s = w (s.testBit 0) * weight ws (s / 2) := by
  rw [weight, List.mapIdx_cons, List.prod_cons, weight]
  simp only [Nat.testBit_add_one]

theorem sum_range_two_mul {f : ℕ → α} (n : ℕ) :
    ((List.range (2 * n)).map f).sum = ((List.range n).map fun s => f (2 * s) + f (2 * s + 1)).sum := by
  induction n
  case zero      => simp
  case succ n hi =>
    rw [show 2 * (n + 1) = 2 * n + 1 + 1 by ring]
    simp only [List.range_succ, List.map_append, List.sum_append, List.map_singleton,
      List.sum_singleton, hi]
    ring

-- The weights of all combinations add up to the product of what either choice weighs.
theorem sum_weight (ws : List (Bool → α)) :
    ((List.range (2 ^ ws.length)).map (weight ws)).sum = (ws.map fun w => w true + w false).prod := by
  induction ws
  case nil          => simp [weight]
  case cons w ws hi =>
    have hpair (s : ℕ) : weight (w :: ws) (2 * s) + weight (w :: ws) (2 * s + 1) =
        (w true + w false) * weight ws s := by
      have heven : (2 * s).testBit 0 = false := by simp [Nat.testBit_zero]
      have hodd : (2 * s + 1).testBit 0 = true := by simp [Nat.testBit_zero, Nat.add_mod]
      rw [weight_cons, weight_cons, heven, hodd, show 2 * s / 2 = s by omega,
        show (2 * s + 1) / 2 = s by omega]
      ring
    rw [List.length_cons, pow_succ, mul_comm, sum_range_two_mul]
    simp only [hpair, List.sum_map_mul_left, hi, List.map_cons, List.prod_cons]

-- The combinations that choose yes at one factor are those of all factors without its no.
theorem weight_modify (ws : List (Bool → α)) (j s : ℕ) (h : j < ws.length) :
    weight (ws.modify j fun w b => if b then w b else 0) s = if s.testBit j then weight ws s else 0 := by
  induction ws generalizing j s
  case nil          => cases h
  case cons w ws hi =>
    cases j
    case zero   =>
      rw [List.modify_zero_cons, weight_cons, weight_cons]
      split <;> simp
    case succ j =>
      rw [List.modify_succ_cons, weight_cons, hi _ _ (Nat.lt_of_succ_lt_succ h), weight_cons,
        Nat.testBit_add_one]
      split <;> simp

theorem prod_map_modify {β : Type*} {l : List β} {j : ℕ} (f : β → β) (g : β → α) (h : j < l.length) :
    ((l.modify j f).map g).prod = g (f l[j]) * ((l.eraseIdx j).map g).prod := by
  induction l generalizing j
  case nil         => cases h
  case cons x l hi =>
    cases j
    case zero   => simp
    case succ j => simp [hi (Nat.lt_of_succ_lt_succ h), mul_left_comm]

theorem sum_weight_bit {ws : List (Bool → α)} {w : Bool → α} {j n : ℕ} (hw : ws[j]? = some w)
    (hn : ws.length = n) :
    ((List.range (2 ^ n)).map fun s => if s.testBit j then weight ws s else 0).sum =
      w true * ((ws.eraseIdx j).map fun w => w true + w false).prod := by
  have ⟨h, he⟩ := List.getElem?_eq_some_iff.mp hw
  have hsum := sum_weight (ws.modify j fun w b => if b then w b else 0)
  rw [List.length_modify, prod_map_modify _ _ h, he, hn] at hsum
  rw [List.map_congr_left fun s _ => (weight_modify ws j s h).symm, hsum]
  simp

theorem weight_smul (c : α) (ws : List (Bool → α)) (s : ℕ) :
    weight (ws.map fun w b => c * w b) s = c ^ ws.length * weight ws s := by
  induction ws generalizing s
  case nil          => simp [weight]
  case cons w ws hi =>
    rw [List.map_cons, weight_cons, hi, weight_cons, List.length_cons, pow_succ]
    ring

theorem map_weight {β : Type*} [CommRing β] (f : α →+* β) (ws : List (Bool → α)) (s : ℕ) :
    f (weight ws s) = weight (ws.map fun w b => f (w b)) s := by
  induction ws generalizing s
  case nil          => simp [weight]
  case cons w ws hi => rw [List.map_cons, weight_cons, weight_cons, map_mul, hi]

end Weights

end Apportion
