import Mathlib.Algebra.Order.Floor.Div
import Mathlib.Tactic

-- Quotients of natural numbers rounded up.

namespace Rounding

variable {n m d k : ℕ}

-- The form in which integer code computes a quotient that is rounded up.
theorem ceilDiv_eq (h : 0 < d) : n ⌈/⌉ d = n / d + if n % d = 0 then 0 else 1 := by
  have hn := Nat.div_add_mod n d
  have hm := Nat.mod_lt n h
  rw [Nat.ceilDiv_eq_add_pred_div]
  split
  case isTrue hr =>
    rw [show n + d - 1 = d - 1 + d * (n / d) by omega, Nat.add_mul_div_left _ _ h,
      Nat.div_eq_of_lt (by omega)]
    omega
  case isFalse hr =>
    rw [show n + d - 1 = n % d - 1 + d * (n / d + 1) by rw [Nat.mul_add]; omega,
      Nat.add_mul_div_left _ _ h, Nat.div_eq_of_lt (by omega)]
    omega

theorem div_le_ceilDiv (h : 0 < d) : n / d ≤ n ⌈/⌉ d := by
  rw [ceilDiv_eq h]
  exact Nat.le_add_right _ _

theorem le_mul_ceilDiv (h : 0 < d) : n ≤ d * (n ⌈/⌉ d) :=
  le_smul_ceilDiv h

theorem ceilDiv_le_iff (h : 0 < d) : n ⌈/⌉ d ≤ k ↔ n ≤ d * k :=
  ceilDiv_le_iff_le_mul h

theorem mul_ceilDiv_cancel (h : 0 < d) : (d * n) ⌈/⌉ d = n := by
  rw [ceilDiv_eq h, Nat.mul_div_cancel_left _ h]
  simp

end Rounding
