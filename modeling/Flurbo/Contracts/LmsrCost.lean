import Flurbo.Contracts.QuoteMath

open Evm Except

-- The two PRBMath functions the cost uses, on WAD words. Either may revert.
structure PRBMath where
  exp : ℕ → Sol ℕ
  ln  : ℕ → Sol ℕ

namespace LmsrCost

def WAD : ℕ := 10 ^ 18
def weightError : ℕ := 512
def logError : ℕ := 256

variable (prb : PRBMath)

def maximumOf (q : List ℕ) (b : ℕ) : Sol ℕ :=
  q.foldlM (fun maximum qi => do
    revertIf (qi > (← checkedMul 256 100 b)) .liabilityOutOfRange
    return if qi > maximum then qi else maximum) 0

def weight (maximum b qi : ℕ) : Sol ℕ := do
  let distance ← checkedDiv (← checkedMul 256 (← checkedSub maximum qi) WAD) b
  -- The reciprocal of a positive exponential.
  let weight ← checkedDiv (10 ^ 36) (← prb.exp distance)
  revertIf (weight > WAD) .weightOutOfRange
  return weight

-- The liability maximum and the estimate of the cost, before the error allowance is applied.
def estimate (q : List ℕ) (b : ℕ) : Sol (ℕ × ℕ) := do
  let n := q.length
  revertIf (n ≠ 2 ∧ n ≠ 4 ∧ n ≠ 8) .invalidStateCount
  revertIf (b < 10 ^ 12 ∨ b > 10 ^ 27) .invalidLiquidity
  let maximum ← maximumOf q b
  let sum ← q.foldlM (fun sum qi => do checkedAdd 256 sum (← weight prb maximum b qi)) 0
  revertIf (sum < WAD) .weightOutOfRange
  let logarithm ← checkedMul 256 b (← prb.ln sum)
  return (maximum, ← checkedAdd 256 maximum (logarithm / WAD))

-- The error allowance for `n` states.
def allowance (n b : ℕ) : Sol ℕ := do
  let errorNumerator ← checkedMul 256 b (n * weightError + logError)
  let rounded := errorNumerator / WAD + if errorNumerator % WAD = 0 then 0 else 1
  checkedAdd 256 rounded 1

def bounds (q : List ℕ) (b : ℕ) : Sol QuoteMath.CostBounds := do
  let (maximum, estimate) ← estimate prb q b
  let error ← allowance q.length b
  let lower := if estimate > error then estimate - error else 0
  let lower := if lower < maximum then maximum else lower
  return ⟨lower, ← checkedAdd 256 estimate error⟩

section Pair

variable {prb} {d m e : ℕ} {r : QuoteMath.CostBounds}

theorem maximumOf_pair (h : maximumOf [0, d] WAD = .ok m) : m = d := by
  simp only [maximumOf, List.foldlM_cons, List.foldlM_nil, bind_eq_ok, pure_eq_ok, ok.injEq] at h
  obtain ⟨_, ⟨_, _, _, _, h₁⟩, _, ⟨_, _, _, _, h₂⟩, rfl⟩ := h
  split at h₁ <;> split at h₂ <;> omega

-- The checks of `bounds` alone keep the two-state cost above the larger liability, whatever the
-- exponential and the logarithm are.
theorem estimate_pair_ge (h : estimate prb [0, d] WAD = .ok (m, e)) : m = d ∧ d ≤ e := by
  simp only [estimate, bind_eq_ok, pure_eq_ok, ok.injEq, Prod.mk.injEq, checkedAdd_eq_ok] at h
  obtain ⟨_, _, _, _, _, hm, _, _, _, _, _, _, _, _, _, ⟨_, rfl⟩, rfl, rfl⟩ := h
  exact ⟨maximumOf_pair hm, maximumOf_pair hm ▸ Nat.le_add_right _ _⟩

theorem bounds_pair_upper_ge (h : bounds prb [0, d] WAD = .ok r) : d ≤ r.upperWad := by
  simp only [bounds, bind_eq_ok, pure_eq_ok, ok.injEq, checkedAdd_eq_ok] at h
  obtain ⟨⟨m, e⟩, he, _, _, _, ⟨_, rfl⟩, rfl⟩ := h
  exact (estimate_pair_ge he).right.trans (Nat.le_add_right _ _)

end Pair

end LmsrCost
