import Flurbo.Library.Digits

-- Decimal notation with an exponent: its texts, each with the exponent that is written in it and the
-- rational that it denotes.

namespace Notation

open Digits

inductive Signed : List Char → ℤ → Prop
  | plain {ds : List Char} (h : AllDigits ds) (hn : ds ≠ []) : Signed ds (value ds)
  | plus {ds : List Char} (h : AllDigits ds) (hn : ds ≠ []) : Signed ('+' :: ds) (value ds)
  | minus {ds : List Char} (h : AllDigits ds) (hn : ds ≠ []) : Signed ('-' :: ds) (-value ds)

inductive Exponent : List Char → ℤ → Prop
  | none : Exponent [] 0
  | letter {c : Char} {t : List Char} {e : ℤ} (hc : c = 'e' ∨ c = 'E') (h : Signed t e) : Exponent (c :: t) e

inductive Fraction : List Char → ℚ → Prop
  | none : Fraction [] 0
  | digits {ds : List Char} (h : AllDigits ds) (hn : ds ≠ []) : Fraction ('.' :: ds) (value ds / 10 ^ ds.length)

inductive Magnitude : List Char → ℤ → ℚ → Prop
  | mk {ws fs es : List Char} {f : ℚ} {e : ℤ} (h : AllDigits ws) (hn : ws ≠ []) (hf : Fraction fs f)
      (he : Exponent es e) : Magnitude (ws ++ fs ++ es) e ((value ws + f) * 10 ^ e)

inductive Denotes : List Char → ℤ → ℚ → Prop
  | positive {t : List Char} {e : ℤ} {q : ℚ} (h : Magnitude t e q) : Denotes t e q
  | negative {t : List Char} {e : ℤ} {q : ℚ} (h : Magnitude t e q) : Denotes ('-' :: t) e (-q)

variable {t : List Char} {c : Char} {e : ℤ} {q : ℚ}

def symbols : List Char := ['+', '-', '.', 'e', 'E']

theorem Signed.chars (h : Signed t e) (hc : c ∈ t) : c.isDigit ∨ c ∈ symbols := by
  cases h
  case plain h _ => exact .inl (h c hc)
  case plus h _  =>
    cases hc
    case head    => exact .inr (by decide)
    case tail hc => exact .inl (h c hc)
  case minus h _ =>
    cases hc
    case head    => exact .inr (by decide)
    case tail hc => exact .inl (h c hc)

theorem Exponent.chars (h : Exponent t e) (hc : c ∈ t) : c.isDigit ∨ c ∈ symbols := by
  cases h
  case none        => cases hc
  case letter he h =>
    cases hc
    case head    => rcases he with rfl | rfl <;> exact .inr (by decide)
    case tail hc => exact h.chars hc

theorem Exponent.head (h : Exponent t e) : ∀ c ∈ t.head?, c.isDigit = false ∧ c ≠ '.' := by
  intro c hc
  cases h
  case none        => cases hc
  case letter he _ =>
    cases hc
    rcases he with rfl | rfl
    · decide
    · decide

theorem Fraction.chars (h : Fraction t q) (hc : c ∈ t) : c.isDigit ∨ c ∈ symbols := by
  cases h
  case none       => cases hc
  case digits h _ =>
    cases hc
    case head    => exact .inr (by decide)
    case tail hc => exact .inl (h c hc)

theorem Magnitude.chars (h : Magnitude t e q) (hc : c ∈ t) : c.isDigit ∨ c ∈ symbols := by
  obtain ⟨h, _, hf, he⟩ := h
  rcases List.mem_append.mp hc with hc | hc
  · rcases List.mem_append.mp hc with hc | hc
    · exact .inl (h c hc)
    · exact hf.chars hc
  · exact he.chars hc

-- There is nothing else in a number's text.
theorem Denotes.chars (h : Denotes t e q) (hc : c ∈ t) : c.isDigit ∨ c ∈ symbols := by
  cases h
  case positive h => exact h.chars hc
  case negative h =>
    cases hc
    case head    => exact .inr (by decide)
    case tail hc => exact h.chars hc

theorem Denotes.ne_nil (h : Denotes t e q) : t ≠ [] := by
  cases h
  case negative   => exact List.cons_ne_nil _ _
  case positive h =>
    obtain ⟨_, hn, _, _⟩ := h
    exact List.append_ne_nil_of_left_ne_nil (List.append_ne_nil_of_left_ne_nil hn _) _

end Notation
