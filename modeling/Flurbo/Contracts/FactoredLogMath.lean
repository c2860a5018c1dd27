import Flurbo.Contracts.LmsrCost

open Evm Except
open LmsrCost (WAD)

namespace FactoredLogMath

def maxLog : ℕ := 128 * 10 ^ 18

-- An enclosure of a dimensionless logarithm in WAD.
structure LogBounds where
  lower : ℕ
  upper : ℕ
  deriving DecidableEq, Repr

variable (prb : PRBMath)

def validate (value : LogBounds) : Sol Unit := do
  revertIf (value.lower > value.upper) .invalidBounds
  revertIf (value.upper > maxLog) .logOutOfRange

def validateLiquidity (b : ℕ) : Sol Unit :=
  revertIf (b < 10 ^ 12 ∨ b > 10 ^ 27) .invalidLiquidity

def ceilDiv (numerator denominator : ℕ) : Sol ℕ := do
  checkedAdd 256 (← checkedDiv numerator denominator) (if numerator % denominator = 0 then 0 else 1)

def normalize (q b : ℕ) : Sol LogBounds := do
  validateLiquidity b
  revertIf (q > (← checkedMul 256 100 b)) .liabilityOutOfRange
  let numerator ← checkedMul 256 q WAD
  return ⟨← checkedDiv numerator b, ← ceilDiv numerator b⟩

def add (a b : LogBounds) : Sol LogBounds := do
  validate a
  validate b
  let result : LogBounds := ⟨← checkedAdd 256 a.lower b.lower, ← checkedAdd 256 a.upper b.upper⟩
  validate result
  return result

def pair (a b : ℕ) : Sol LogBounds := do
  let minimum := if a < b then a else b
  let maximum := if a > b then a else b
  let gap ← checkedSub maximum minimum
  if gap > 100 * 10 ^ 18 then
    return ⟨maximum, ← checkedAdd 256 maximum 1⟩
  else
    let normalized ← LmsrCost.bounds prb [0, gap] WAD
    return ⟨← checkedAdd 256 minimum normalized.lowerWad, ← checkedAdd 256 minimum normalized.upperWad⟩

def logSumExp (a b : LogBounds) : Sol LogBounds := do
  validate a
  validate b
  let result : LogBounds := ⟨(← pair prb a.lower b.lower).lower, (← pair prb a.upper b.upper).upper⟩
  validate result
  return result

def cost (logPartition : LogBounds) (b : ℕ) : Sol QuoteMath.CostBounds := do
  validate logPartition
  validateLiquidity b
  let lower ← checkedMul 256 b logPartition.lower
  let upper ← checkedMul 256 b logPartition.upper
  return ⟨← checkedDiv lower WAD, ← ceilDiv upper WAD⟩

section Lemmas

variable {prb} {value x y r : LogBounds} {a b q n d : ℕ} {u : Unit} {c : QuoteMath.CostBounds}

structure LogBounds.Valid (value : LogBounds) : Prop where
  le    : value.lower ≤ value.upper
  bound : value.upper ≤ maxLog

theorem LogBounds.valid_iff : value.Valid ↔ value.lower ≤ value.upper ∧ value.upper ≤ maxLog :=
  ⟨fun h => ⟨h.le, h.bound⟩, fun h => ⟨h.left, h.right⟩⟩

@[simp]
theorem validate_eq_ok : validate value = .ok u ↔ value.Valid := by
  simp [validate, LogBounds.valid_iff]

@[simp]
theorem validateLiquidity_eq_ok :
    validateLiquidity b = .ok u ↔ 10 ^ 12 ≤ b ∧ b ≤ 10 ^ 27 := by
  simp [validateLiquidity]

theorem ceilDiv_eq_ok :
    ceilDiv n d = .ok q ↔ 0 < d ∧ n ⌈/⌉ d < 2 ^ 256 ∧ n ⌈/⌉ d = q := by
  simp only [ceilDiv, bind_eq_ok, checkedDiv_eq_ok, checkedAdd_eq_ok]
  constructor
  case mp =>
    rintro ⟨_, ⟨hd, rfl⟩, h⟩
    have hd := Nat.pos_of_ne_zero hd
    exact ⟨hd, Rounding.ceilDiv_eq hd ▸ h⟩
  case mpr =>
    rintro ⟨hd, h⟩
    exact ⟨_, ⟨hd.ne', rfl⟩, Rounding.ceilDiv_eq hd ▸ h⟩

theorem normalize_eq_ok :
    normalize q b = .ok r ↔
      (10 ^ 12 ≤ b ∧ b ≤ 10 ^ 27) ∧ q ≤ 100 * b ∧ r = ⟨q * WAD / b, (q * WAD) ⌈/⌉ b⟩ := by
  simp only [normalize, bind_eq_ok, validateLiquidity_eq_ok, revertIf_eq_ok, checkedMul_eq_ok,
    checkedDiv_eq_ok, ceilDiv_eq_ok, pure_eq_ok, ok.injEq]
  constructor
  case mp =>
    rintro ⟨_, hb, _, ⟨_, rfl⟩, _, hq, _, ⟨_, rfl⟩, _, ⟨_, rfl⟩, _, ⟨_, _, rfl⟩, rfl⟩
    exact ⟨hb, not_lt.mp hq, rfl⟩
  case mpr =>
    rintro ⟨hb, hq, rfl⟩
    have hn : q * WAD < 2 ^ 256 := by unfold WAD; omega
    have hc : (q * WAD) ⌈/⌉ b < 2 ^ 256 := by
      apply lt_of_le_of_lt _ hn
      rw [Rounding.ceilDiv_le_iff (by omega)]
      exact Nat.le_mul_of_pos_left _ (by omega)
    exact ⟨(), hb, _, ⟨by omega, rfl⟩, (), not_lt.mpr hq, _, ⟨hn, rfl⟩, _, ⟨by omega, rfl⟩,
      _, ⟨by omega, hc, rfl⟩, rfl⟩

-- Valid operands cannot overflow, so only the result can be rejected.
theorem add_eq_ok :
    add x y = .ok r ↔
      x.Valid ∧ y.Valid ∧ r.Valid ∧ r = ⟨x.lower + y.lower, x.upper + y.upper⟩ := by
  simp only [add, bind_eq_ok, validate_eq_ok, checkedAdd_eq_ok, pure_eq_ok, ok.injEq]
  constructor
  case mp =>
    rintro ⟨_, hx, _, hy, _, ⟨_, rfl⟩, _, ⟨_, rfl⟩, _, hr, rfl⟩
    exact ⟨hx, hy, hr, rfl⟩
  case mpr =>
    rintro ⟨hx, hy, hr, rfl⟩
    have := hr.le
    have := hr.bound
    simp only [maxLog] at *
    exact ⟨(), hx, (), hy, _, ⟨by omega, rfl⟩, _, ⟨by omega, rfl⟩, (), hr, rfl⟩

theorem pair_upper_ge (h : pair prb a b = .ok r) : a ≤ r.upper ∧ b ≤ r.upper := by
  simp only [pair, bind_eq_ok, checkedSub_eq_ok] at h
  obtain ⟨gap, ⟨_, hg⟩, h⟩ := h
  split at h
  case isTrue =>
    simp only [bind_eq_ok, checkedAdd_eq_ok, pure_eq_ok, ok.injEq] at h
    obtain ⟨_, ⟨_, rfl⟩, rfl⟩ := h
    dsimp only
    constructor <;> split <;> omega
  case isFalse =>
    simp only [bind_eq_ok, checkedAdd_eq_ok, pure_eq_ok, ok.injEq] at h
    obtain ⟨n, hn, _, _, _, ⟨_, rfl⟩, rfl⟩ := h
    have := LmsrCost.bounds_pair_upper_ge hn
    dsimp only
    constructor <;> (split at hg <;> split at hg <;> split <;> omega)

theorem logSumExp_upper_ge (h : logSumExp prb x y = .ok r) :
    x.upper ≤ r.upper ∧ y.upper ≤ r.upper := by
  simp only [logSumExp, bind_eq_ok, pure_eq_ok, ok.injEq] at h
  obtain ⟨_, _, _, _, _, _, _, hu, _, _, rfl⟩ := h
  exact ⟨(pair_upper_ge hu).left, (pair_upper_ge hu).right⟩

theorem cost_eq_ok :
    cost x b = .ok c ↔
      x.Valid ∧ (10 ^ 12 ≤ b ∧ b ≤ 10 ^ 27) ∧ c = ⟨b * x.lower / WAD, (b * x.upper) ⌈/⌉ WAD⟩ := by
  simp only [cost, bind_eq_ok, validate_eq_ok, validateLiquidity_eq_ok, checkedMul_eq_ok,
    checkedDiv_eq_ok, ceilDiv_eq_ok, pure_eq_ok, ok.injEq]
  constructor
  case mp =>
    rintro ⟨_, hx, _, hb, _, ⟨_, rfl⟩, _, ⟨_, rfl⟩, _, ⟨_, rfl⟩, _, ⟨_, _, rfl⟩, rfl⟩
    exact ⟨hx, hb, rfl⟩
  case mpr =>
    rintro ⟨hx, hb, rfl⟩
    have hu : b * x.upper < 2 ^ 256 :=
      (Nat.mul_le_mul hb.right hx.bound).trans_lt (by unfold maxLog; norm_num)
    have hl : b * x.lower < 2 ^ 256 := (Nat.mul_le_mul_left b hx.le).trans_lt hu
    have hc : (b * x.upper) ⌈/⌉ WAD < 2 ^ 256 := by
      apply lt_of_le_of_lt _ hu
      rw [Rounding.ceilDiv_le_iff (by unfold WAD; norm_num)]
      exact Nat.le_mul_of_pos_left _ (by unfold WAD; norm_num)
    exact ⟨(), hx, (), hb, _, ⟨hl, rfl⟩, _, ⟨hu, rfl⟩, _, ⟨by unfold WAD; norm_num, rfl⟩,
      _, ⟨by unfold WAD; norm_num, hc, rfl⟩, rfl⟩

end Lemmas

end FactoredLogMath
