import Mathlib.Data.List.Basic

-- Strings as sequences of UTF-16 code units, surrogates included.

abbrev CodeUnit := UInt16

abbrev Utf16 := List CodeUnit

namespace Utf16

def byteOrderMark : CodeUnit := 0xFEFF

def ofChar (c : Char) : CodeUnit := c.toNat.toUInt16

-- The code units of a text that has no supplementary characters.
def ofString (s : String) : Utf16 := s.toList.map ofChar

def highOf (c : Char) : CodeUnit := (0xD800 + (c.toNat - 0x10000) / 0x400).toUInt16

def lowOf (c : Char) : CodeUnit := (0xDC00 + (c.toNat - 0x10000) % 0x400).toUInt16

def encode (s : String) : Utf16 :=
  s.toList.flatMap fun c => if c.toNat < 0x10000 then [ofChar c] else [highOf c, lowOf c]

def isHigh (c : CodeUnit) : Bool := 0xD800 ≤ c && c ≤ 0xDBFF

def isLow (c : CodeUnit) : Bool := 0xDC00 ≤ c && c ≤ 0xDFFF

def dropMark : Utf16 → Utf16
  | []        => []
  | c :: text => if c = byteOrderMark then text else c :: text

theorem dropMark_cons (text : Utf16) : dropMark (byteOrderMark :: text) = text := by
  rw [dropMark, if_pos rfl]

theorem dropMark_of_ne {text : Utf16} (h : text.head? ≠ some byteOrderMark) : dropMark text = text := by
  cases text
  case nil         => rfl
  case cons c text =>
    have hc : c ≠ byteOrderMark := fun hc => h (by rw [hc]; rfl)
    rw [dropMark, if_neg hc]

end Utf16
