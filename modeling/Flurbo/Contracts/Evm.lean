import Flurbo.Library.Fallible

-- The part of Solidity 0.8 that the contracts rely on. Words are natural numbers; arithmetic is
-- checked at the width of the source's type, and a failing check reverts the whole call.

namespace Evm

abbrev Address := Fin (2 ^ 160)

instance addressNeZero : NeZero (2 ^ 160) := ⟨by decide⟩

-- Errors are identified by their selector, so libraries that declare an error of the same name
-- share it. `panic` is every failed check that the compiler inserts.
inductive Revert
  | panic
  | invalidEventCount | invalidLiquidity | tooManyFactors | invalidScope | invalidValues
  | invalidOrder | widthExceeded
  | invalidBounds | logOutOfRange | liabilityOutOfRange
  | invalidStateCount | weightOutOfRange
  | unsupportedDecimals | amountOverflow | unresolvedDirection
  | invalidClaim | invalidQuantity | insufficientHoldings
  | invalidMask | insufficientLiability | unquotableTrade | maxCostExceeded | minProceedsNotMet
  | invalidConfiguration | alreadyFunded | notFunded | closed | unsupportedTransfer
  | uncoveredLiability | expiredDeadline
  | invalidSettlement | unauthorizedResolver | notClosed | alreadyResolved | notResolved
  | invalidOutcome | missingFactor | invalidBaseEvent | baseTokenNotCreated
  | invalidEvent | invalidIdentity
  | nonCanonicalBias | unauthorizedUpdater | invalidUpdateDomain | staleUpdate | updateTooSoon
  | movementLimit | fundingLimit
  | invalidConfig | unauthorized | wrongPhase | invalidEvidence | invalidEligibility
  | token | prbMath | notEnabled
  deriving DecidableEq, Repr

abbrev Sol := Except Revert

def revertIf (c : Prop) [Decidable c] (e : Revert) : Sol Unit :=
  if c then .error e else .ok ()

def checkedAdd (w a b : ℕ) : Sol ℕ :=
  if a + b < 2 ^ w then .ok (a + b) else .error .panic

def checkedSub (a b : ℕ) : Sol ℕ :=
  if b ≤ a then .ok (a - b) else .error .panic

def checkedMul (w a b : ℕ) : Sol ℕ :=
  if a * b < 2 ^ w then .ok (a * b) else .error .panic

def checkedDiv (a b : ℕ) : Sol ℕ :=
  if b = 0 then .error .panic else .ok (a / b)

-- An explicit conversion keeps the low bits.
def truncate (w a : ℕ) : ℕ := a % 2 ^ w

def nth {α : Type} (xs : List α) (i : ℕ) : Sol α :=
  match xs[i]? with
  | some a => .ok a
  | none   => .error .panic

section Lemmas

variable {c : Prop} [Decidable c] {e : Revert} {u : Unit} {w a b r i : ℕ}

@[simp]
theorem revertIf_eq_ok : revertIf c e = .ok u ↔ ¬c := by
  unfold revertIf; split <;> simp_all

@[simp]
theorem checkedAdd_eq_ok : checkedAdd w a b = .ok r ↔ a + b < 2 ^ w ∧ a + b = r := by
  unfold checkedAdd; split <;> simp_all

@[simp]
theorem checkedSub_eq_ok : checkedSub a b = .ok r ↔ b ≤ a ∧ a - b = r := by
  unfold checkedSub; split <;> simp_all

@[simp]
theorem checkedMul_eq_ok : checkedMul w a b = .ok r ↔ a * b < 2 ^ w ∧ a * b = r := by
  unfold checkedMul; split <;> simp_all

@[simp]
theorem checkedDiv_eq_ok : checkedDiv a b = .ok r ↔ b ≠ 0 ∧ a / b = r := by
  unfold checkedDiv; split <;> simp_all

@[simp]
theorem nth_eq_ok {α : Type} {xs : List α} {x : α} : nth xs i = .ok x ↔ xs[i]? = some x := by
  unfold nth; split <;> simp_all

theorem nth_eq_ok_getD {xs : List ℕ} {x : ℕ} : nth xs i = .ok x ↔ i < xs.length ∧ xs.getD i 0 = x := by
  rw [nth_eq_ok, List.getElem?_eq_some_iff]
  constructor
  case mp  => exact fun ⟨h, hx⟩ => ⟨h, by rw [List.getD_eq_getElem _ _ h, hx]⟩
  case mpr => exact fun ⟨h, hx⟩ => ⟨h, by rw [← hx, List.getD_eq_getElem _ _ h]⟩

-- A table computed entry by entry.
theorem table_eq_ok {f : ℕ → Sol ℕ} {n : ℕ} {ys : List ℕ} :
    (List.range n).mapM f = .ok ys ↔ ys.length = n ∧ ∀ j < n, f j = .ok (ys.getD j 0) := by
  rw [Except.mapM_range_eq_ok]
  constructor
  all_goals
    rintro ⟨rfl, h⟩
    refine ⟨rfl, fun j hj => ?_⟩
    have := h j hj
    rwa [List.getD_eq_getElem _ _ hj] at *

theorem table_ok {f : ℕ → Sol ℕ} {n : ℕ} (h : ∀ j < n, ∃ r, f j = .ok r) :
    ∃ ys, (List.range n).mapM f = .ok ys := by
  have hf : ((List.range n).mapM f).Holds False (List.Forall₂ (fun _ _ => True) (List.range n)) :=
    Except.Holds.mapM fun j hj => by
      have ⟨r, hr⟩ := h j (List.mem_range.mp hj)
      rw [hr]
      trivial
  have ⟨ys, hys, _⟩ := Except.holds_false_iff.mp hf
  exact ⟨ys, hys⟩

theorem revertIf_ok (h : ¬c) : revertIf c e = .ok () := by
  simp [h]

theorem truncate_of_lt (h : a < 2 ^ w) : truncate w a = a :=
  Nat.mod_eq_of_lt h

end Lemmas

end Evm
