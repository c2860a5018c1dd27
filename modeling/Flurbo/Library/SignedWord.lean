import Flurbo.Library.Bits

-- Bit operators on numbers that are taken as signed 32-bit words, and give such words.

namespace SignedWord

def word (a : ℤ) : BitVec 32 := BitVec.ofInt 32 a

def land (a b : ℤ) : ℤ := (word a &&& word b).toInt

def lor (a b : ℤ) : ℤ := (word a ||| word b).toInt

def lnot (a : ℤ) : ℤ := (~~~word a).toInt

-- Only the low five bits of the second operand count.
def shl (a : ℤ) (n : ℕ) : ℤ := (word a <<< (n % 32)).toInt

variable {a b n : ℕ}

theorem toInt_of_lt {w : BitVec 32} (h : w.toNat < 2 ^ 31) : w.toInt = w.toNat :=
  BitVec.toInt_eq_toNat_of_lt (by omega)

theorem toNat_word (h : a < 2 ^ 31) : (word a).toNat = a := by
  rw [word, BitVec.ofInt_natCast, BitVec.toNat_ofNat, Nat.mod_eq_of_lt (by omega)]

-- On numbers without a sign bit these are the operators of natural numbers.
theorem land_natCast (ha : a < 2 ^ 31) (hb : b < 2 ^ 31) : land a b = (a &&& b : ℕ) := by
  have h : (word a &&& word b).toNat = a &&& b := by rw [BitVec.toNat_and, toNat_word ha, toNat_word hb]
  rw [land, toInt_of_lt (h ▸ Nat.and_lt_two_pow a hb), h]

theorem lor_natCast (ha : a < 2 ^ 31) (hb : b < 2 ^ 31) : lor a b = (a ||| b : ℕ) := by
  have h : (word a ||| word b).toNat = a ||| b := by rw [BitVec.toNat_or, toNat_word ha, toNat_word hb]
  rw [lor, toInt_of_lt (h ▸ Nat.or_lt_two_pow ha hb), h]

theorem shl_one (h : n < 31) : shl 1 n = (2 ^ n : ℕ) := by
  have hlt : 2 ^ n < 2 ^ 31 := Nat.pow_lt_pow_right (by decide) h
  have hw : (word 1 <<< (n % 32)).toNat = 2 ^ n := by
    have h1 : (word 1).toNat = 1 := by decide
    rw [BitVec.toNat_shiftLeft, h1, Nat.one_shiftLeft, Nat.mod_eq_of_lt (show n < 32 by omega),
      Nat.mod_eq_of_lt (by omega)]
  rw [shl, toInt_of_lt (hw ▸ hlt), hw]

theorem land_lnot (ha : a < 2 ^ 31) (hb : b < 2 ^ 31) : land a (lnot b) = (a &&& Bits.complement 32 b : ℕ) := by
  have hnot : word (lnot b) = ~~~word b := BitVec.ofInt_toInt
  have h : (word a &&& ~~~word b).toNat = a &&& Bits.complement 32 b := by
    rw [BitVec.toNat_and, BitVec.toNat_not, toNat_word ha, toNat_word hb]
    refine congrArg _ ?_
    have := Bits.complement_add_one (w := 32) (x := b) (by omega)
    omega
  have hlt : a &&& Bits.complement 32 b < 2 ^ 31 := Nat.and_le_left.trans_lt ha
  rw [land, hnot, toInt_of_lt (h ▸ hlt), h]

end SignedWord
