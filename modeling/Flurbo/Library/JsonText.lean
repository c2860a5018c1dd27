import Flurbo.Library.Json

-- What `JSON.stringify` writes for a string, and documents written with the names of their members in order.

namespace Json

variable {N : Type}

section Strings

def hexChar (n : ℕ) : CodeUnit := if n < 10 then UInt16.ofNat (0x30 + n) else UInt16.ofNat (0x61 + (n - 10))

def unicodeEscape (c : CodeUnit) : Utf16 :=
  [backslash, letter_u, hexChar (c.toNat / 4096), hexChar (c.toNat / 256 % 16), hexChar (c.toNat / 16 % 16),
    hexChar (c.toNat % 16)]

def escapeUnit (c : CodeUnit) : Utf16 :=
  if c = quote then [backslash, quote]
  else if c = backslash then [backslash, backslash]
  else if c = 0x08 then [backslash, 0x62]
  else if c = 0x0C then [backslash, 0x66]
  else if c = 0x0A then [backslash, 0x6E]
  else if c = 0x0D then [backslash, 0x72]
  else if c = 0x09 then [backslash, 0x74]
  else if c < 0x20 then unicodeEscape c
  else [c]

-- A surrogate is only written as it is if it is one of a pair.
def escapeText : Utf16 → Utf16
  | []          => []
  | [c]         => if Utf16.isHigh c ∨ Utf16.isLow c then unicodeEscape c else escapeUnit c
  | c :: d :: t =>
    if Utf16.isHigh c ∧ Utf16.isLow d then c :: d :: escapeText t
    else (if Utf16.isHigh c ∨ Utf16.isLow c then unicodeEscape c else escapeUnit c) ++ escapeText (d :: t)

def stringify (s : Utf16) : Utf16 := quote :: escapeText s ++ [quote]

variable {c : CodeUnit} {t s : Utf16}

theorem hexDigit_hexChar : ∀ n < 16, hexDigit (hexChar n) = some n := by decide

theorem hexUnit_unicodeEscape (c : CodeUnit) : hexUnit (hexChar (c.toNat / 4096)) (hexChar (c.toNat / 256 % 16))
    (hexChar (c.toNat / 16 % 16)) (hexChar (c.toNat % 16)) = some c := by
  have hc := c.toNat_lt
  have hsum : (c.toNat / 4096 * 16 + c.toNat / 256 % 16) * 256 + c.toNat / 16 % 16 * 16 + c.toNat % 16 = c.toNat := by
    omega
  rw [hexUnit, hexDigit_hexChar _ (by omega), hexDigit_hexChar _ (by omega), hexDigit_hexChar _ (by omega),
    hexDigit_hexChar _ (by omega)]
  simp only [Option.bind_eq_bind, Option.bind_some, hsum]
  exact congrArg some (UInt16.ofNat_toNat)

theorem chars_unicodeEscape (h : Chars t s) : Chars (unicodeEscape c ++ t) (c :: s) :=
  .unicode (hexUnit_unicodeEscape c) h

-- What is written for one unit denotes that unit.
theorem chars_escapeUnit (h : Chars t s) : Chars (escapeUnit c ++ t) (c :: s) := by
  rw [escapeUnit]
  split
  case isTrue hc => exact .escape (by rw [hc]; rfl) h
  split
  case isTrue hc => exact .escape (by rw [hc]; rfl) h
  split
  case isTrue hc => exact .escape (by rw [hc]; rfl) h
  split
  case isTrue hc => exact .escape (by rw [hc]; rfl) h
  split
  case isTrue hc => exact .escape (by rw [hc]; rfl) h
  split
  case isTrue hc => exact .escape (by rw [hc]; rfl) h
  split
  case isTrue hc => exact .escape (by rw [hc]; rfl) h
  split
  case isTrue    => exact chars_unicodeEscape h
  case isFalse hq hb _ _ _ _ _ hc => exact .plain hq hb hc h

theorem surrogate_ge (h : Utf16.isHigh c ∨ Utf16.isLow c) : 0xD800 ≤ c.toNat := by
  simp only [Utf16.isHigh, Utf16.isLow, Bool.and_eq_true, decide_eq_true_eq, UInt16.le_iff_toNat_le] at h
  rcases h with h | h
  · exact h.1
  · exact le_trans (by decide) h.1

-- A surrogate needs no escape of its own.
theorem chars_surrogate (hc : Utf16.isHigh c ∨ Utf16.isLow c) (h : Chars t s) : Chars (c :: t) (c :: s) := by
  have hge := surrogate_ge hc
  have hne {d : CodeUnit} (hd : d.toNat < 0xD800) : c ≠ d := by
    intro he
    rw [he] at hge
    exact absurd hd hge.not_gt
  refine .plain (hne (by decide)) (hne (by decide)) ?_ h
  rw [UInt16.lt_iff_toNat_lt]
  exact fun hl => absurd (hl.trans (by decide : (0x20 : CodeUnit).toNat < 0xD800)) hge.not_gt

theorem chars_escapeText (s : Utf16) : Chars (escapeText s ++ [quote]) s := by
  induction s using escapeText.induct
  case case1 => exact .close
  case case2 c hc =>
    rw [escapeText, if_pos hc]
    exact chars_unicodeEscape .close
  case case3 c hc =>
    rw [escapeText, if_neg hc]
    exact chars_escapeUnit .close
  case case4 c d t hp hi =>
    rw [escapeText, if_pos hp]
    exact chars_surrogate (.inl hp.1) (chars_surrogate (.inr hp.2) hi)
  case case5 c d t hp hi =>
    rw [escapeText, if_neg hp, List.append_assoc]
    split
    case isTrue  => exact chars_unicodeEscape hi
    case isFalse => exact chars_escapeUnit hi

theorem quoted_stringify (s : Utf16) : Quoted (stringify s) s := .mk (chars_escapeText s)

end Strings

section Documents

def separate : List Utf16 → Utf16
  | []      => []
  | [t]     => t
  | t :: ts => t ++ comma :: separate ts

def memberText (m : Utf16 × Utf16) : Utf16 := stringify m.1 ++ colon :: m.2

def nameLe {α : Type} (a b : Utf16 × α) : Bool := a.1 ≤ b.1

variable (number : N → Option Utf16)

mutual

-- There is no text for a document with a number that has none.
def sortedText : Json N → Option Utf16
  | .null           => some wordNull
  | .bool b         => some (if b then wordTrue else wordFalse)
  | .number n       => number n
  | .string s       => some (stringify s)
  | .array items    => (sortedItems items).map fun ts => openBracket :: separate ts ++ [closeBracket]
  | .object members => (sortedMembers members).map fun ms =>
    openBrace :: separate ((ms.mergeSort nameLe).map memberText) ++ [closeBrace]

def sortedItems : List (Json N) → Option (List Utf16)
  | []            => some []
  | item :: items => do
    let t ← item.sortedText
    let ts ← sortedItems items
    return t :: ts

def sortedMembers : List (Utf16 × Json N) → Option (List (Utf16 × Utf16))
  | []                      => some []
  | (name, item) :: members => do
    let t ← item.sortedText
    let ms ← sortedMembers members
    return (name, t) :: ms

end

end Documents

end Json
