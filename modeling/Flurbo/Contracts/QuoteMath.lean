import Flurbo.Contracts.Evm
import Flurbo.Library.Rounding

open Evm Except

namespace QuoteMath

structure CostBounds where
  lowerWad : ℕ
  upperWad : ℕ
  deriving DecidableEq, Repr

-- WAD units in one atom of a token with the given decimals.
def wadPerAtom (decimals : ℕ) : ℕ := 10 ^ (18 - decimals)

def scale (decimals : ℕ) : Sol ℕ := do
  revertIf (decimals > 18) .unsupportedDecimals
  return wadPerAtom decimals

def checkedAmount (atoms : ℕ) : Sol ℕ := do
  revertIf (atoms > 2 ^ 128 - 1) .amountOverflow
  return atoms

def toWad (atoms decimals : ℕ) : Sol ℕ := do
  checkedMul 256 atoms (← scale decimals)

def fromWadDown (wad decimals : ℕ) : Sol ℕ := do
  checkedAmount (wad / (← scale decimals))

def fromWadUp (wad decimals : ℕ) : Sol ℕ := do
  let factor ← scale decimals
  let atoms := wad / factor
  if wad % factor ≠ 0 then
    checkedAmount (← checkedAdd 256 atoms 1)
  else
    checkedAmount atoms

def validate (bounds : CostBounds) : Sol Unit :=
  revertIf (bounds.lowerWad > bounds.upperWad) .invalidBounds

def buyFromBounds (before after : CostBounds) (decimals : ℕ) : Sol ℕ := do
  validate before
  validate after
  revertIf (after.upperWad < before.lowerWad) .unresolvedDirection
  fromWadUp (after.upperWad - before.lowerWad) decimals

def sellFromBounds (before after : CostBounds) (decimals : ℕ) : Sol ℕ := do
  validate before
  validate after
  revertIf (before.lowerWad < after.upperWad) .unresolvedDirection
  fromWadDown (before.lowerWad - after.upperWad) decimals

section Lemmas

variable {decimals atoms wad r : ℕ} {before after : CostBounds}

theorem wadPerAtom_pos : 0 < wadPerAtom decimals := Nat.pow_pos (by decide)

@[simp]
theorem scale_eq_ok : scale decimals = .ok r ↔ decimals ≤ 18 ∧ wadPerAtom decimals = r := by
  simp [scale]

@[simp]
theorem checkedAmount_eq_ok : checkedAmount atoms = .ok r ↔ atoms < 2 ^ 128 ∧ atoms = r := by
  simp [checkedAmount, Nat.lt_iff_le_pred]

theorem toWad_eq_ok :
    toWad atoms decimals = .ok r ↔
      decimals ≤ 18 ∧ atoms * wadPerAtom decimals < 2 ^ 256 ∧ atoms * wadPerAtom decimals = r := by
  simp [toWad]

theorem fromWadDown_eq_ok :
    fromWadDown wad decimals = .ok r ↔
      decimals ≤ 18 ∧ wad / wadPerAtom decimals < 2 ^ 128 ∧ wad / wadPerAtom decimals = r := by
  simp [fromWadDown]

-- Rounding up to whole atoms cannot overflow, so it fails only for unsupported decimals and for
-- amounts that do not fit.
theorem fromWadUp_eq_ok :
    fromWadUp wad decimals = .ok r ↔
      decimals ≤ 18 ∧ wad ⌈/⌉ wadPerAtom decimals < 2 ^ 128 ∧ wad ⌈/⌉ wadPerAtom decimals = r := by
  simp only [fromWadUp, bind_eq_ok, scale_eq_ok, Rounding.ceilDiv_eq wadPerAtom_pos]
  constructor
  case mp =>
    rintro ⟨_, ⟨hd, rfl⟩, h⟩
    split at h <;> (simp_all; try omega)
  case mpr =>
    rintro ⟨hd, hr, rfl⟩
    refine ⟨_, ⟨hd, rfl⟩, ?_⟩
    split <;> (simp_all; try omega)

theorem buyFromBounds_eq_ok (h : buyFromBounds before after decimals = .ok r) :
    before.lowerWad ≤ before.upperWad ∧ after.lowerWad ≤ after.upperWad ∧
      before.lowerWad ≤ after.upperWad ∧
      r = (after.upperWad - before.lowerWad) ⌈/⌉ wadPerAtom decimals := by
  simp only [buyFromBounds, validate, bind_eq_ok, revertIf_eq_ok, fromWadUp_eq_ok, not_lt] at h
  obtain ⟨_, h₁, _, h₂, _, h₃, _, _, h₄⟩ := h
  exact ⟨h₁, h₂, h₃, h₄.symm⟩

theorem sellFromBounds_eq_ok (h : sellFromBounds before after decimals = .ok r) :
    before.lowerWad ≤ before.upperWad ∧ after.lowerWad ≤ after.upperWad ∧
      after.upperWad ≤ before.lowerWad ∧
      r = (before.lowerWad - after.upperWad) / wadPerAtom decimals := by
  simp only [sellFromBounds, validate, bind_eq_ok, revertIf_eq_ok, fromWadDown_eq_ok, not_lt] at h
  obtain ⟨_, h₁, _, h₂, _, h₃, _, _, h₄⟩ := h
  exact ⟨h₁, h₂, h₃, h₄.symm⟩

end Lemmas

end QuoteMath
