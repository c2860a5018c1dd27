import Mathlib.Algebra.Order.Ring.Nat
import Mathlib.Data.Nat.BitIndices
import Mathlib.Data.Nat.Bitwise
import Mathlib.Data.Nat.Factorization.Basic
import Mathlib.Tactic

-- Loops over the set bits of a bitmap, and the two index translations between the bits of a state
-- that a bitmap selects and the same bits packed together.

namespace Bits

-- Complement of a `w`-bit word.
def complement (w x : ℕ) : ℕ := (2 ^ w - 1) ^^^ x

theorem testBit_complement (w x i : ℕ) :
    (complement w x).testBit i = (decide (i < w) ^^ x.testBit i) := by
  simp [complement]

theorem testBit_eq_false {w x i : ℕ} (h : x < 2 ^ w) (hi : w ≤ i) : x.testBit i = false :=
  Nat.testBit_lt_two_pow (h.trans_le (Nat.pow_le_pow_right Nat.two_pos hi))

theorem testBit_and_complement {w x i : ℕ} (h : x < 2 ^ w) (y : ℕ) :
    (x &&& complement w y).testBit i = (x.testBit i && !y.testBit i) := by
  by_cases hi : i < w
  case pos => simp [testBit_complement, hi]
  case neg => simp [testBit_eq_false h (not_lt.mp hi)]

theorem complement_add_one {w x : ℕ} (h : x < 2 ^ w) : complement w x + 1 = 2 ^ w - x := by
  have : complement w x = 2 ^ w - (x + 1) := by
    apply Nat.eq_of_testBit_eq
    intro i
    rw [testBit_complement, Nat.testBit_two_pow_sub_succ h]
    by_cases hi : i < w
    case pos => simp [hi]
    case neg => simp [hi, testBit_eq_false h (not_lt.mp hi)]
  omega

theorem and_two_pow_ne_zero {x i : ℕ} : x &&& 2 ^ i ≠ 0 ↔ x.testBit i := by
  rw [Nat.and_two_pow]
  cases x.testBit i <;> simp

section LowestBit

variable {p m i : ℕ}

theorem testBit_odd_mul :
    (2 ^ p * (2 * m + 1)).testBit i = (decide (i = p) || decide (p < i) && m.testBit (i - p - 1)) := by
  rw [Nat.testBit_two_pow_mul]
  rcases lt_trichotomy i p with h | rfl | h
  · simp [h.not_ge, h.ne, h.not_gt]
  · simp
  · obtain ⟨k, rfl⟩ : ∃ k, i = p + k + 1 := ⟨i - p - 1, by omega⟩
    have hk : p + k + 1 - p = k + 1 := by omega
    simp [hk, Nat.testBit_succ, Nat.mul_add_div, show ¬ p + k + 1 = p by omega,
      show p ≤ p + k + 1 by omega, show p < p + k + 1 by omega]

theorem testBit_odd_mul_pred :
    (2 ^ p * (2 * m + 1) - 1).testBit i =
      (decide (i < p) || decide (p < i) && m.testBit (i - p - 1)) := by
  have hp : 0 < 2 ^ p := Nat.two_pow_pos p
  have h : 2 ^ p * (2 * m + 1) - 1 = 2 ^ p * (2 * m) + (2 ^ p - 1) := by
    rw [Nat.mul_add, Nat.mul_one]; omega
  rw [h, Nat.testBit_two_pow_mul_add _ (by omega)]
  rcases lt_trichotomy i p with h | rfl | h
  · simp [h]
  · simp
  · obtain ⟨k, rfl⟩ : ∃ k, i = p + k + 1 := ⟨i - p - 1, by omega⟩
    have hk : p + k + 1 - p = k + 1 := by omega
    simp [hk, Nat.testBit_succ, show ¬ p + k + 1 < p by omega, show p < p + k + 1 by omega]

theorem exists_lowest {s : ℕ} (h : s ≠ 0) : ∃ p m, s = 2 ^ p * (2 * m + 1) := by
  have ⟨p, k, ⟨m, hm⟩, hs⟩ := Nat.exists_eq_two_pow_mul_odd h
  exact ⟨p, m, hm ▸ hs⟩

-- `s &= s - 1` clears the lowest set bit.
theorem bitIndices_and_pred {s : ℕ} (h : s ≠ 0) :
    ∃ p, s.bitIndices = p :: (s &&& (s - 1)).bitIndices ∧ s.testBit p ∧ ¬ (s - 1).testBit p ∧
      ∀ i, i ≠ p → s.testBit i → (s - 1).testBit i := by
  have ⟨p, m, hs⟩ := exists_lowest h
  subst hs
  have hc : 2 ^ p * (2 * m + 1) &&& (2 ^ p * (2 * m + 1) - 1) = 2 ^ p * (2 * m) := by
    apply Nat.eq_of_testBit_eq
    intro i
    rw [Nat.testBit_and, testBit_odd_mul, testBit_odd_mul_pred, Nat.testBit_two_pow_mul]
    rcases lt_trichotomy i p with h | rfl | h
    · simp [h.not_ge, h.ne, h.not_gt]
    · simp
    · obtain ⟨k, rfl⟩ : ∃ k, i = p + k + 1 := ⟨i - p - 1, by omega⟩
      have hk : p + k + 1 - p = k + 1 := by omega
      simp [hk, Nat.testBit_succ, show ¬ p + k + 1 < p by omega, show p ≤ p + k + 1 by omega,
        show p < p + k + 1 by omega]
      exact fun h => .inr h
  refine ⟨p, ?_, ?_, ?_, ?_⟩
  · simp [hc]
  · simp [testBit_odd_mul]
  · simp [testBit_odd_mul_pred]
  · intro i hi
    simp only [testBit_odd_mul, testBit_odd_mul_pred, hi, decide_false, Bool.false_or]
    intro h; simp [h]

-- `s & (~s + 1)` is the lowest set bit.
theorem and_complement_add_one {w s p : ℕ} (hs : s < 2 ^ w) (h : s.testBit p)
    (hp : ¬ (s - 1).testBit p) (ho : ∀ i, i ≠ p → s.testBit i → (s - 1).testBit i) :
    s &&& (complement w s + 1) = 2 ^ p := by
  have h₀ : s ≠ 0 := by rintro rfl; simp at h
  have hw : p < w := by
    by_contra hw
    simp [testBit_eq_false hs (not_lt.mp hw)] at h
  rw [complement_add_one hs, show 2 ^ w - s = 2 ^ w - ((s - 1) + 1) by omega]
  apply Nat.eq_of_testBit_eq
  intro i
  rw [Nat.testBit_and, Nat.testBit_two_pow_sub_succ (by omega), Nat.testBit_two_pow]
  by_cases hi : i = p
  case pos => subst hi; simp [h, hp, hw]
  case neg =>
    cases hb : s.testBit i
    case false => simp [Ne.symm hi]
    case true  => simp [ho i hi hb, Ne.symm hi]

end LowestBit

section Walk

variable {β : Type*} (w : ℕ) (f : β → ℕ → β)

-- The loop `while (s != 0) { f(s & (~s + 1)); s &= s - 1; }` on a `w`-bit word, with fuel.
def walk : ℕ → ℕ → β → β
  | 0, _, b        => b
  | fuel + 1, s, b => if s = 0 then b else walk fuel (s &&& (s - 1)) (f b (s &&& (complement w s + 1)))

-- A word has at most as many set bits as it has bits, so `w` rounds suffice.
def foldBits (b : β) (s : ℕ) : β := walk w f w s b

theorem length_bitIndices_le {w s : ℕ} (h : s < 2 ^ w) : s.bitIndices.length ≤ w := by
  have hs : s.bitIndices ⊆ List.range w := fun i hi => by
    rw [List.mem_range]
    by_contra hw
    simp [testBit_eq_false h (not_lt.mp hw)] at hi
  simpa using (List.subperm_of_subset Nat.bitIndices_nodup hs).length_le

theorem walk_eq {fuel s : ℕ} {b : β} (hs : s < 2 ^ w) (hf : s.bitIndices.length ≤ fuel) :
    walk w f fuel s b = (s.bitIndices.map (2 ^ ·)).foldl f b := by
  induction fuel generalizing s b
  case zero => simp_all [walk]
  case succ fuel hi =>
    by_cases h : s = 0
    case pos => simp [walk, h]
    case neg =>
      have ⟨p, hb, h₁, h₂, h₃⟩ := bitIndices_and_pred h
      have hlt : s &&& (s - 1) < 2 ^ w := Nat.and_lt_two_pow _ (by omega)
      rw [walk, if_neg h, hi hlt (by simpa [hb] using hf), and_complement_add_one hs h₁ h₂ h₃, hb]
      simp

theorem foldBits_eq {s : ℕ} {b : β} (hs : s < 2 ^ w) :
    foldBits w f b s = (s.bitIndices.map (2 ^ ·)).foldl f b :=
  walk_eq w f hs (length_bitIndices_le hs)

end Walk

section Pack

variable {ps : List ℕ} {x y : ℕ → Bool}

-- The bits of `x` at the given positions, packed into the low bits of the result.
def gather : List ℕ → (ℕ → Bool) → ℕ
  | [], _      => 0
  | p :: ps, x => Nat.bit (x p) (gather ps x)

-- The low bits of `x` moved to the given positions.
def scatter : List ℕ → ℕ → ℕ
  | [], _      => 0
  | p :: ps, x => (if x.testBit 0 then 2 ^ p else 0) ||| scatter ps (x / 2)

theorem gather_lt : gather ps x < 2 ^ ps.length := by
  induction ps
  case nil          => simp [gather]
  case cons p ps hi =>
    rw [gather, List.length_cons, Nat.pow_succ]
    cases x p <;> simp [Nat.bit_val] <;> omega

theorem gather_congr (h : ∀ p ∈ ps, x p = y p) : gather ps x = gather ps y := by
  induction ps
  case nil          => rfl
  case cons p ps hi => simp [gather, h p (by simp), hi fun q hq => h q (by simp [hq])]

theorem testBit_gather {i : ℕ} : (gather ps x).testBit i = (ps[i]?.map x).getD false := by
  induction ps generalizing i
  case nil          => simp [gather]
  case cons p ps hi =>
    cases i
    case zero   => simp [gather]
    case succ i => simp [gather, Nat.testBit_bit_succ, hi]

theorem eq_gather_iff {y : ℕ} (h : y < 2 ^ ps.length) :
    y = gather ps x ↔ ∀ i p, ps[i]? = some p → y.testBit i = x p := by
  constructor
  · rintro rfl i p hp
    rw [testBit_gather, hp]
    rfl
  · intro hy
    apply Nat.eq_of_testBit_eq
    intro i
    rw [testBit_gather]
    cases hp : ps[i]?
    case none   => exact testBit_eq_false h (List.getElem?_eq_none_iff.mp hp)
    case some p => exact hy i p hp

theorem testBit_scatter_gather {i : ℕ} :
    (scatter ps (gather ps x)).testBit i = (decide (i ∈ ps) && x i) := by
  induction ps
  case nil          => simp [scatter]
  case cons p ps hi =>
    rw [gather, scatter, Nat.testBit_bit_zero, Nat.bit_div_two, Nat.testBit_or, hi]
    by_cases hip : i = p
    case pos =>
      subst hip
      cases x i <;> simp
    case neg =>
      have : ¬ p = i := fun h => hip h.symm
      cases x p <;> simp [hip, this]

theorem testBit_scatter_of_notMem {p l : ℕ} (h : p ∉ ps) : (scatter ps l).testBit p = false := by
  induction ps generalizing l
  case nil          => simp [scatter]
  case cons q ps hi =>
    have hne : q ≠ p := fun he => h (he ▸ List.mem_cons_self)
    rw [scatter, Nat.testBit_or, hi fun hp => h (List.mem_cons_of_mem q hp)]
    split <;> simp [hne]

theorem testBit_scatter {i p l : ℕ} (hn : ps.Nodup) (h : ps[i]? = some p) :
    (scatter ps l).testBit p = l.testBit i := by
  induction ps generalizing i l
  case nil          => cases h
  case cons q ps hi =>
    have ⟨hq, hn⟩ := List.nodup_cons.mp hn
    rw [scatter, Nat.testBit_or]
    cases i
    case zero   =>
      cases Option.some.inj h
      rw [testBit_scatter_of_notMem hq]
      cases hl : l.testBit 0 <;> simp
    case succ i =>
      have h : ps[i]? = some p := by simpa using h
      have hne : q ≠ p := fun he => hq (he ▸ List.mem_of_getElem? h)
      rw [hi hn h, Nat.testBit_succ]
      split <;> simp [hne]

-- Every packed word is gathered from some word.
theorem gather_scatter {l : ℕ} (hn : ps.Nodup) (h : l < 2 ^ ps.length) :
    gather ps (scatter ps l).testBit = l :=
  ((eq_gather_iff h).mpr fun _ _ hp => (testBit_scatter hn hp).symm).symm

-- A bit that is flipped before gathering can be flipped afterwards.
theorem gather_flip {s i k : ℕ} (hn : ps.Nodup) (hk : ps[k]? = some i) :
    gather ps (s ^^^ 2 ^ i).testBit = gather ps s.testBit ^^^ 2 ^ k := by
  refine Nat.eq_of_testBit_eq fun j => ?_
  rw [Nat.testBit_xor, testBit_gather, testBit_gather, Nat.testBit_two_pow]
  have hlt := (List.getElem?_eq_some_iff.mp hk).1
  cases hj : ps[j]?
  case none   =>
    have : k ≠ j := fun he => by simp [← he, hk] at hj
    simp [this]
  case some p =>
    have hiff : p = i ↔ k = j := by
      constructor
      · rintro rfl
        exact (List.getElem?_inj hlt hn).mp (hk.trans hj.symm)
      · rintro rfl
        exact Option.some.inj (hj.symm.trans hk)
    simp only [Option.map_some, Option.getD_some, Nat.testBit_xor, Nat.testBit_two_pow]
    by_cases he : k = j
    case pos => simp [he, hiff.mpr he]
    case neg =>
      have : i ≠ p := fun hp => he (hiff.mp hp.symm)
      simp [he, this]

-- The loops that compute the two translations with a running index.
theorem foldl_gather {x acc k : ℕ} :
    ((ps.map (2 ^ ·)).foldl (fun (s : ℕ × ℕ) bit =>
      (if x &&& bit ≠ 0 then s.1 ||| 1 <<< s.2 else s.1, s.2 + 1)) (acc, k)).1 =
      acc ||| gather ps x.testBit <<< k := by
  induction ps generalizing acc k
  case nil          => simp [gather]
  case cons p ps hi =>
    rw [List.map_cons, List.foldl_cons, hi]
    apply Nat.eq_of_testBit_eq
    intro i
    simp only [gather, and_two_pow_ne_zero, Nat.testBit_or, Nat.testBit_shiftLeft]
    rcases lt_trichotomy i k with h | rfl | h
    · cases x.testBit p <;> simp [h.not_ge, show ¬ k + 1 ≤ i by omega]
    · cases x.testBit p <;> simp
    · obtain ⟨j, rfl⟩ : ∃ j, i = k + j + 1 := ⟨i - k - 1, by omega⟩
      have h₁ : k + j + 1 - k = j + 1 := by omega
      have h₂ : k + j + 1 - (k + 1) = j := by omega
      have h₃ : Nat.testBit 1 (j + 1) = false := by simp [Nat.testBit_succ]
      simp only [h₁, h₂, Nat.testBit_bit_succ]
      cases x.testBit p <;> simp [h₁, h₃, show k ≤ k + j + 1 by omega, show k + 1 ≤ k + j + 1 by omega]

theorem foldl_scatter {x acc k : ℕ} :
    ((ps.map (2 ^ ·)).foldl (fun (s : ℕ × ℕ) bit =>
      (if x &&& 1 <<< s.2 ≠ 0 then s.1 ||| bit else s.1, s.2 + 1)) (acc, k)).1 =
      acc ||| scatter ps (x >>> k) := by
  induction ps generalizing acc k
  case nil          => simp [scatter]
  case cons p ps hi =>
    rw [List.map_cons, List.foldl_cons, hi, scatter, Nat.one_shiftLeft, ← Nat.shiftRight_succ]
    simp only [and_two_pow_ne_zero, Nat.testBit_shiftRight, Nat.add_zero]
    cases x.testBit k <;> simp [Nat.or_assoc]

end Pack

theorem bitIndices_eq_filter {s n : ℕ} (h : s < 2 ^ n) :
    s.bitIndices = (List.range n).filter (s.testBit ·) := by
  refine List.Perm.eq_of_pairwise (fun a b _ _ h₁ h₂ => ?_) Nat.bitIndices_sorted.pairwise ?_ ?_
  · exact absurd h₁ (not_lt.mpr h₂.le)
  · exact List.pairwise_lt_range.filter _
  · refine (List.perm_ext_iff_of_nodup Nat.bitIndices_nodup (List.nodup_range.filter _)).mpr fun i => ?_
    simp only [Nat.mem_bitIndices, List.mem_filter, List.mem_range]
    constructor
    · intro hi
      refine ⟨?_, hi⟩
      by_contra hle
      rw [testBit_eq_false h (not_lt.mp hle)] at hi
      cases hi
    · exact fun h => h.right

end Bits
