import Mathlib.Algebra.BigOperators.Group.Finset.Basic
import Mathlib.Algebra.Order.BigOperators.Group.Finset
import Mathlib.Tactic

-- Holdings that pay in some of several outcomes, and the mean of what they pay, where the mean of
-- each holding is rounded down.

namespace Mean

variable {ι τ : Type*} (s : Finset ι) (w : ι → ℕ) (pays : ι → τ → Bool)

def payout (t : τ) : ℕ := ∑ i ∈ s, if pays i t then w i else 0

def count (ts : List τ) (i : ι) : ℕ := (ts.filter (pays i)).length

-- The holdings of which the mean is not whole.
def rounded (ts : List τ) : ℕ := {i ∈ s | ¬ ts.length ∣ w i * count pays ts i}.card

variable {s w pays} {ts : List τ} {m : ℤ}

-- Summed over the outcomes, each holding counts as often as it pays.
theorem sum_payout : (ts.map (payout s w pays)).sum = ∑ i ∈ s, w i * count pays ts i := by
  induction ts
  case nil          => simp [count]
  case cons t ts hi =>
    rw [List.map_cons, List.sum_cons, hi, payout, ← Finset.sum_add_distrib]
    refine Finset.sum_congr rfl fun i _ => ?_
    rw [count, count, List.filter_cons]
    split
    · rw [List.length_cons]
      ring
    · rw [Nat.zero_add]

theorem le_sum_payout (h : ∀ t ∈ ts, m ≤ payout s w pays t) :
    ts.length * m ≤ (ts.map (payout s w pays)).sum := by
  induction ts
  case nil          => simp
  case cons t ts hi =>
    have ht := h t List.mem_cons_self
    have hi := hi fun t ht => h t (List.mem_cons_of_mem _ ht)
    rw [List.map_cons, List.sum_cons, List.length_cons]
    rw [Nat.cast_add, Nat.cast_add, Nat.cast_one]
    linarith

-- What rounding down takes from each holding.
theorem le_mul_div {x d : ℕ} (hd : 0 < d) : x ≤ d * (x / d) + if ¬ d ∣ x then d - 1 else 0 := by
  have hdiv := Nat.div_add_mod x d
  have hmod := Nat.mod_lt x hd
  split
  case isTrue    => omega
  case isFalse h =>
    have := Nat.mod_eq_zero_of_dvd (not_not.mp h)
    omega

theorem sum_le_mul (hd : ts ≠ []) :
    ∑ i ∈ s, w i * count pays ts i ≤
      ts.length * (∑ i ∈ s, w i * count pays ts i / ts.length) + (ts.length - 1) * rounded s w pays ts := by
  have hpos : 0 < ts.length := List.length_pos_iff.mpr hd
  calc ∑ i ∈ s, w i * count pays ts i
    _ ≤ ∑ i ∈ s, (ts.length * (w i * count pays ts i / ts.length) +
          if ¬ ts.length ∣ w i * count pays ts i then ts.length - 1 else 0) :=
        Finset.sum_le_sum fun i _ => le_mul_div hpos
    _ = _ := by
        rw [Finset.sum_add_distrib, ← Finset.mul_sum, ← Finset.sum_filter, Finset.sum_const, smul_eq_mul,
          Nat.mul_comm (Finset.card _), rounded]

-- What is paid in every outcome is paid on average too, but for less than one for each holding whose
-- mean is rounded.
theorem le_sum_div (hd : ts ≠ []) (h : ∀ t ∈ ts, m ≤ payout s w pays t) :
    m ≤ ∑ i ∈ s, w i * count pays ts i / ts.length + (rounded s w pays ts - 1 : ℕ) := by
  have hpos : 0 < ts.length := List.length_pos_iff.mpr hd
  have hle := le_sum_payout h
  rw [sum_payout] at hle
  have hsum : ∑ i ∈ s, w i * count pays ts i ≤ ts.length * (∑ i ∈ s, w i * count pays ts i / ts.length) +
      (ts.length - 1) * rounded s w pays ts := sum_le_mul hd
  generalize ∑ i ∈ s, w i * count pays ts i / ts.length = paid at hsum ⊢
  generalize rounded s w pays ts = r at hsum ⊢
  have hle : (ts.length : ℤ) * m ≤ ts.length * paid + (ts.length - 1 : ℕ) * r :=
    hle.trans (by exact_mod_cast hsum)
  have hd : (0 : ℤ) < ts.length := by exact_mod_cast hpos
  rw [Nat.cast_sub hpos, Nat.cast_one] at hle
  cases r
  case zero   =>
    rw [Nat.cast_zero, mul_zero, add_zero] at hle
    simpa using le_of_mul_le_mul_left hle hd
  case succ r =>
    -- One more than that would be a whole outcome too much.
    have hlt : (ts.length : ℤ) * m < ts.length * (paid + r + 1) := by
      push_cast at hle
      nlinarith
    have := lt_of_mul_lt_mul_left hlt hd.le
    simp only [Nat.add_sub_cancel]
    omega

end Mean
