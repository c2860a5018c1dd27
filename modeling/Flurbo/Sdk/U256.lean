import Flurbo.Library.Digits
import Flurbo.Library.Words

-- The 256-bit words of the Rust and the C++ runtime. Texts are lists of characters, of which the
-- functions here accept those of ASCII only.

namespace Sdk

structure U256 where
  bytes     : List ℕ
  length_eq : bytes.length = 32
  fits      : Words.Fits 256 bytes
  deriving DecidableEq

namespace U256

def toNat (v : U256) : ℕ := Words.value 256 v.bytes

def zero : U256 where
  bytes     := List.replicate 32 0
  length_eq := List.length_replicate
  fits      := fun w hw => by rw [List.eq_of_mem_replicate hw]; decide

-- An array of 32 bytes.
def ofBytes (bytes : List ℕ) : Option U256 :=
  if h : bytes.length = 32 ∧ ∀ b ∈ bytes, b < 256 then some ⟨bytes, h.left, h.right⟩ else none

-- The loop over the bytes in reverse that multiplies by ten, with the carry that it ends with.
def timesTenLoop (carry : ℕ) (bytes : List ℕ) : List ℕ × ℕ :=
  bytes.foldr (fun byte p => ((byte * 10 + p.2) % 256 :: p.1, (byte * 10 + p.2) >>> 8)) ([], carry)

-- The loop over the bytes that divides by ten, with the remainder that it ends with.
def divTenLoop : List ℕ → ℕ → List ℕ × ℕ
  | [], rem            => ([], rem)
  | byte :: bytes, rem =>
    let v := rem <<< 8 ||| byte
    let (n, last) := divTenLoop bytes (v % 10)
    (v / 10 % 256 :: n, last)

theorem timesTenLoop_eq {carry : ℕ} {bytes : List ℕ} :
    timesTenLoop carry bytes = Words.mulAdd 256 10 carry bytes := by
  simp only [timesTenLoop, Words.mulAdd, Nat.shiftRight_eq_div_pow]

theorem divTenLoop_eq {bytes : List ℕ} {rem : ℕ} (h : Words.Fits 256 bytes) (hr : rem < 10) :
    divTenLoop bytes rem = Words.divMod 256 10 bytes rem := by
  induction bytes generalizing rem
  case nil                => rfl
  case cons byte bytes hi =>
    have ⟨hb, h⟩ := h.cons
    have hv : rem <<< 8 ||| byte = rem * 256 + byte := by
      rw [← Nat.shiftLeft_add_eq_or_of_lt (by omega), Nat.shiftLeft_eq]
    rw [divTenLoop, hv, hi h (Nat.mod_lt _ (by decide)), Words.divMod_cons,
      Nat.mod_eq_of_lt (show (rem * 256 + byte) / 10 < 256 by omega)]

def timesTen (v : U256) (carry : ℕ) : U256 × ℕ :=
  (⟨(timesTenLoop carry v.bytes).1, by rw [timesTenLoop_eq, Words.length_mulAdd, v.length_eq],
    by rw [timesTenLoop_eq]; exact Words.fits_mulAdd (by decide)⟩, (timesTenLoop carry v.bytes).2)

def divTen (v : U256) : U256 × ℕ :=
  (⟨(divTenLoop v.bytes 0).1, by rw [divTenLoop_eq v.fits (by decide), Words.length_divMod, v.length_eq],
    by rw [divTenLoop_eq v.fits (by decide)]; exact Words.fits_divMod v.fits (by decide)⟩,
    (divTenLoop v.bytes 0).2)

variable {v w : U256} {c : ℕ}

theorem toNat_lt (v : U256) : v.toNat < 2 ^ 256 := by
  have := Words.value_lt v.fits
  rwa [v.length_eq, show (256 : ℕ) ^ 32 = 2 ^ 256 by decide] at this

theorem toNat_inj : v.toNat = w.toNat ↔ v = w := by
  refine ⟨fun h => ?_, fun h => h ▸ rfl⟩
  have := Words.eq_of_value v.fits w.fits (v.length_eq.trans w.length_eq.symm) h
  cases v
  cases w
  cases this
  rfl

theorem toNat_zero : zero.toNat = 0 := Words.value_zeros 32

theorem any_ne_zero : v.bytes.any (· ≠ 0) ↔ v.toNat ≠ 0 := by
  rw [toNat, ne_eq, Words.value_eq_zero_iff (by decide)]
  simp

theorem timesTen_spec : (v.timesTen c).2 * 2 ^ 256 + (v.timesTen c).1.toNat = v.toNat * 10 + c := by
  have := @Words.value_mulAdd 256 10 c v.bytes
  rwa [v.length_eq, show (256 : ℕ) ^ 32 = 2 ^ 256 by decide, ← timesTenLoop_eq] at this

theorem divTen_spec : v.divTen.1.toNat * 10 + v.divTen.2 = v.toNat ∧ v.divTen.2 < 10 := by
  have hv := @Words.value_divMod 256 10 0 v.bytes
  have hr := @Words.rem_divMod_lt 256 10 0 v.bytes (by decide)
  rw [← divTenLoop_eq v.fits (by decide)] at hv hr
  exact ⟨by rw [Nat.zero_mul, Nat.zero_add] at hv; exact hv, hr⟩

-- The loop of `to_dec` and of `dec`, with the last digit first.
def digits (v : U256) : List Char :=
  if v.bytes.any (· ≠ 0) then Char.ofNat (48 + v.divTen.2) :: digits v.divTen.1 else []
termination_by v.toNat
decreasing_by
  have := divTen_spec (v := v)
  have := any_ne_zero.mp ‹_›
  omega

-- One digit of the loop of `from_dec`.
def pushDigit (v : U256) (c : Char) : Option U256 :=
  let (v, carry) := v.timesTen (c.toNat - 48)
  if carry ≠ 0 then none else some v

end U256

namespace Rust

open U256

def fromDec (s : List Char) : Option U256 :=
  if s.isEmpty || !s.all Char.isDigit || (1 < s.length && ['0'].isPrefixOf s) then
    none
  else
    s.foldlM pushDigit zero

def toDec (v : U256) : List Char :=
  if (digits v).isEmpty then ['0'] else (digits v).reverse

-- `c.to_digit(16)`
def toDigit16 (c : Char) : Option ℕ :=
  if '0' ≤ c ∧ c ≤ '9' then some (c.toNat - 48)
  else if 'a' ≤ c ∧ c ≤ 'f' then some (c.toNat - 87)
  else if 'A' ≤ c ∧ c ≤ 'F' then some (c.toNat - 55)
  else none

def isAsciiHexdigit (c : Char) : Bool := (toDigit16 c).isSome

-- `u8::from_str_radix(s, 16)`, which takes a sign.
def u8FromStrRadix16 (s : List Char) : Option ℕ :=
  match s with
  | []      => none
  | ['+']   => none
  | c :: cs =>
    (if c = '+' then cs else c :: cs).foldlM (fun n c => do
      let n := n * 16 + (← toDigit16 c)
      if n < 256 then some n else none) 0

-- `format!("{:02x}", b)`
def hex02 (b : ℕ) : List Char :=
  List.replicate (2 - (Nat.toDigits 16 b).length) '0' ++ Nat.toDigits 16 b

def fromHex (s : List Char) : Option U256 := do
  let h := if ['0', 'x'].isPrefixOf s then s.drop 2 else s
  if h.isEmpty || 64 < h.length || !h.all isAsciiHexdigit then
    none
  else
    let padded := List.replicate (64 - h.length) '0' ++ h
    ofBytes (← (List.range 32).mapM fun i => u8FromStrRadix16 ((padded.drop (i * 2)).take 2))

def wordHex (v : U256) : List Char := v.bytes.flatMap hex02

def leadingZeros (byte : ℕ) : ℕ := 8 - byte.size

def bits (v : U256) : ℕ :=
  match v.bytes.zipIdx.find? (·.1 ≠ 0) with
  | some (byte, i) => (32 - i) * 8 - leadingZeros byte
  | none           => 0

def cmp (v w : U256) : Ordering := List.compareLex compare v.bytes w.bytes

end Rust

namespace Cpp

open U256

def isDigits (s : List Char) : Bool := !s.isEmpty && s.all fun c => '0' ≤ c && c ≤ '9'

def fromDec (s : List Char) : Option U256 :=
  if !isDigits s || (1 < s.length && s[0]? = some '0') then none else s.foldlM pushDigit zero

def dec (v : U256) : List Char :=
  if (digits v).isEmpty then ['0'] else (digits v).reverse

def hexval (c : Char) : ℤ :=
  if '0' ≤ c ∧ c ≤ '9' then c.toNat - 48
  else if 'a' ≤ c ∧ c ≤ 'f' then c.toNat - 97 + 10
  else if 'A' ≤ c ∧ c ≤ 'F' then c.toNat - 65 + 10
  else -1

def fromHex (s : List Char) : Option U256 :=
  let h := if ['0', 'x'].isPrefixOf s then s.drop 2 else s
  if h.isEmpty || 64 < h.length then
    none
  else if h.any (hexval · < 0) then
    none
  else
    let h := List.replicate (64 - h.length) '0' ++ h
    ofBytes <| (List.range 32).map fun i =>
      ((hexval (h.getD (2 * i) '0') * 16 + hexval (h.getD (2 * i + 1) '0')) % 256).toNat

def hexAlphabet : List Char := "0123456789abcdef".toList

def wordHex (v : U256) : List Char :=
  v.bytes.flatMap fun x => [hexAlphabet.getD (x >>> 4) '0', hexAlphabet.getD (x &&& 15) '0']

-- The loop over the bits of a byte, from the highest one on.
def leadingZeros (byte : ℕ) : ℕ :=
  ((List.range 8).reverse.takeWhile fun k => byte &&& 1 <<< k = 0).length

def bits (v : U256) : ℕ :=
  match v.bytes.zipIdx.find? (·.1 ≠ 0) with
  | some (byte, i) => (32 - i) * 8 - leadingZeros byte
  | none           => 0

-- The operators `<` and `>`.
def lt (v w : U256) : Bool := v.bytes < w.bytes
def gt (v w : U256) : Bool := lt w v

end Cpp

section Decimal

open U256 Digits

variable {v w : U256} {c : Char} {s : List Char}

theorem pushDigit_spec (v : U256) (c : Char) :
    (v.toNat * 10 + (c.toNat - 48) < 2 ^ 256 →
      ∃ w, v.pushDigit c = some w ∧ w.toNat = v.toNat * 10 + (c.toNat - 48)) ∧
    (2 ^ 256 ≤ v.toNat * 10 + (c.toNat - 48) → v.pushDigit c = none) := by
  have hspec := timesTen_spec (v := v) (c := c.toNat - 48)
  have hlt := (v.timesTen (c.toNat - 48)).1.toNat_lt
  simp only [pushDigit]
  constructor
  · intro h
    have hzero : (v.timesTen (c.toNat - 48)).2 = 0 := by
      by_contra hne
      have := Nat.mul_le_mul_right (2 ^ 256) (Nat.one_le_iff_ne_zero.mpr hne)
      omega
    rw [hzero, Nat.zero_mul, Nat.zero_add] at hspec
    exact ⟨_, if_neg (not_not.mpr hzero), hspec⟩
  · intro h
    refine if_pos fun hzero => ?_
    rw [hzero, Nat.zero_mul, Nat.zero_add] at hspec
    omega

-- The digits are accumulated exactly as far as the value fits, at whatever digit it ceases to.
theorem foldlM_pushDigit (v : U256) (s : List Char) :
    (Nat.ofDigitChars 10 s v.toNat < 2 ^ 256 →
      ∃ w, s.foldlM pushDigit v = some w ∧ w.toNat = Nat.ofDigitChars 10 s v.toNat) ∧
    (2 ^ 256 ≤ Nat.ofDigitChars 10 s v.toNat → s.foldlM pushDigit v = none) := by
  induction s generalizing v
  case nil         =>
    exact ⟨fun _ => ⟨v, rfl, rfl⟩, fun h => absurd v.toNat_lt (not_lt.mpr h)⟩
  case cons c s hi =>
    have ⟨hsome, hnone⟩ := pushDigit_spec v c
    have hcons : Nat.ofDigitChars 10 (c :: s) v.toNat =
        Nat.ofDigitChars 10 s (v.toNat * 10 + (c.toNat - 48)) := by
      rw [Nat.ofDigitChars_cons, Nat.mul_comm]
      rfl
    have hle : v.toNat * 10 + (c.toNat - 48) ≤ Nat.ofDigitChars 10 (c :: s) v.toNat := by
      rw [hcons, Nat.ofDigitChars_eq_ofDigitChars_zero]
      exact Nat.le_add_right_of_le (Nat.le_mul_of_pos_left _ (Nat.pow_pos (by decide)))
    rw [List.foldlM_cons]
    rcases lt_or_ge (v.toNat * 10 + (c.toNat - 48)) (2 ^ 256) with h | h
    · obtain ⟨w, hw, hval⟩ := hsome h
      rw [hw, hcons, ← hval]
      exact hi w
    · rw [hnone h]
      exact ⟨fun hlt => absurd h (not_le.mpr (hle.trans_lt hlt)), fun _ => rfl⟩

-- A decimal text without superfluous zeros.
def Canonical (s : List Char) : Prop := s ≠ [] ∧ AllDigits s ∧ NoLeadingZero s

theorem isDigits_iff : Cpp.isDigits s ↔ s ≠ [] ∧ AllDigits s := by
  have hdigit (c : Char) : ('0' ≤ c && c ≤ '9') = c.isDigit := by
    simp only [Char.isDigit, ge_iff_le, Char.le_def]
  simp only [Cpp.isDigits, hdigit]
  cases s <;> simp [AllDigits]

theorem cpp_fromDec_eq : Cpp.fromDec s = Rust.fromDec s := by
  have hzero : (s[0]? = some '0') ↔ ['0'].isPrefixOf s := by
    cases s
    case nil      => simp
    case cons c s => simpa using eq_comm
  have hdigits : (!Cpp.isDigits s) = (s.isEmpty || !s.all Char.isDigit) := by
    rw [Bool.eq_iff_iff, Bool.not_eq_true', ← Bool.not_eq_true, isDigits_iff]
    simp [AllDigits, or_iff_not_imp_left]
  simp only [Cpp.fromDec, Rust.fromDec, hdigits, hzero, Bool.decide_eq_true]

theorem canonical_iff : Canonical s ↔
    ¬ (s.isEmpty || !s.all Char.isDigit || (1 < s.length && ['0'].isPrefixOf s)) := by
  have hzero : ['0'].isPrefixOf s ↔ s.head? = some '0' := by
    cases s
    case nil      => simp
    case cons c s => simpa using eq_comm
  simp only [Canonical, AllDigits, NoLeadingZero, Bool.or_eq_true, Bool.and_eq_true, hzero, decide_eq_true_eq,
    List.isEmpty_iff, Bool.not_eq_true', not_or, not_and, ne_eq, List.all_eq_true, Bool.not_eq_false, and_assoc]

theorem fromDec_spec (s : List Char) :
    (Canonical s ∧ value s < 2 ^ 256 → ∃ v, Rust.fromDec s = some v ∧ v.toNat = value s) ∧
    (¬ (Canonical s ∧ value s < 2 ^ 256) → Rust.fromDec s = none) := by
  have hfold := foldlM_pushDigit zero s
  rw [toNat_zero] at hfold
  rw [Rust.fromDec]
  by_cases hs : Canonical s
  case pos =>
    rw [if_neg (canonical_iff.mp hs)]
    exact ⟨fun h => hfold.left h.right, fun h => hfold.right (not_lt.mp fun hlt => h ⟨hs, hlt⟩)⟩
  case neg =>
    rw [if_pos (not_not.mp (mt canonical_iff.mpr hs))]
    exact ⟨fun h => absurd h.left hs, fun _ => rfl⟩

theorem digits_spec (v : U256) : AllDigits (digits v).reverse ∧ value (digits v).reverse = v.toNat ∧
    (digits v).reverse.head? ≠ some '0' ∧ (digits v = [] ↔ v.toNat = 0) := by
  induction hn : v.toNat using Nat.strong_induction_on generalizing v
  case h n hi =>
    subst hn
    rw [digits]
    by_cases hv : v.toNat = 0
    case pos =>
      rw [if_neg fun h => any_ne_zero.mp h hv, List.reverse_nil]
      exact ⟨fun c hc => absurd hc List.not_mem_nil, hv.symm, by simp, iff_of_true rfl hv⟩
    case neg =>
      have ⟨hdiv, hrem⟩ := divTen_spec (v := v)
      have hdigit : ∀ r < 10, (Char.ofNat (48 + r)).isDigit ∧ (Char.ofNat (48 + r)).toNat = 48 + r := by decide
      have ⟨hc, hval⟩ := hdigit _ hrem
      have ⟨hall, hvalue, hhead, hnil⟩ := hi _ (by omega) v.divTen.1 rfl
      rw [if_pos (any_ne_zero.mpr hv), List.reverse_cons]
      refine ⟨hall.append fun d hd => List.mem_singleton.mp hd ▸ hc, ?_, ?_, iff_of_false (by simp) hv⟩
      · have hlast : value [Char.ofNat (48 + v.divTen.2)] = v.divTen.2 := by
          rw [value_cons, hval]
          simp [value]
        rw [value_append, hvalue, hlast, List.length_singleton]
        omega
      · by_cases hq : v.divTen.1.toNat = 0
        case pos =>
          rw [hnil.mpr hq]
          intro h
          have := congrArg Char.toNat (Option.some.inj h)
          rw [hval, show '0'.toNat = 48 from rfl] at this
          omega
        case neg =>
          rwa [List.head?_append_of_ne_nil _ (by simpa using mt hnil.mp hq)]

theorem toDec_spec (v : U256) : Canonical (Rust.toDec v) ∧ value (Rust.toDec v) = v.toNat := by
  have ⟨hall, hvalue, hhead, hnil⟩ := digits_spec v
  rw [Rust.toDec]
  by_cases hv : digits v = []
  case pos =>
    rw [if_pos (by simp [hv]), hnil.mp hv]
    exact ⟨⟨by simp, by simp [AllDigits], by simp [NoLeadingZero]⟩, rfl⟩
  case neg =>
    rw [if_neg (by simp [hv])]
    exact ⟨⟨by simpa using hv, hall, fun _ => hhead⟩, hvalue⟩

theorem fromDec_toDec (v : U256) : Rust.fromDec (Rust.toDec v) = some v := by
  have ⟨hcanonical, hvalue⟩ := toDec_spec v
  obtain ⟨w, hw, hval⟩ := (fromDec_spec _).left ⟨hcanonical, hvalue ▸ v.toNat_lt⟩
  rw [hw, toNat_inj.mp (hval.trans hvalue)]

end Decimal

section Hexadecimal

open U256

variable {v w : U256} {c d : Char} {s : List Char}

-- The value of a hexadecimal digit.
def nibble (c : Char) : ℕ := (Rust.toDigit16 c).getD 0

def AllHex (s : List Char) : Prop := ∀ c ∈ s, Rust.isAsciiHexdigit c

instance (s : List Char) : Decidable (AllHex s) := List.decidableBAll _ s

-- The value of a hexadecimal text.
def hexValue (s : List Char) : ℕ := Words.value 16 (s.map nibble)

theorem le_iff_toNat {c d : Char} : c ≤ d ↔ c.toNat ≤ d.toNat := Iff.rfl

theorem isAsciiHexdigit_iff : Rust.isAsciiHexdigit c ↔
    (48 ≤ c.toNat ∧ c.toNat ≤ 57) ∨ (97 ≤ c.toNat ∧ c.toNat ≤ 102) ∨ (65 ≤ c.toNat ∧ c.toNat ≤ 70) := by
  simp only [Rust.isAsciiHexdigit, Rust.toDigit16, le_iff_toNat, Char.reduceToNat]
  split_ifs with h₁ h₂ h₃
  all_goals simp
  all_goals omega

theorem toDigit16_eq (h : Rust.isAsciiHexdigit c) : Rust.toDigit16 c = some (nibble c) := by
  obtain ⟨n, hn⟩ := Option.isSome_iff_exists.mp h
  rw [nibble, hn]
  rfl

theorem nibble_lt (c : Char) : nibble c < 16 := by
  simp only [nibble, Rust.toDigit16, le_iff_toNat, Char.reduceToNat]
  split_ifs with h₁ h₂ h₃
  all_goals simp
  all_goals omega

theorem hexval_eq (c : Char) : Cpp.hexval c = if Rust.isAsciiHexdigit c then (nibble c : ℤ) else -1 := by
  simp only [Cpp.hexval, nibble, Rust.isAsciiHexdigit, Rust.toDigit16, le_iff_toNat, Char.reduceToNat]
  split_ifs with h₁ h₂ h₃
  all_goals simp at *
  all_goals omega

theorem nibble_zero : nibble '0' = 0 := rfl

-- The digits that follow an optional marker.
def unprefixed (s : List Char) : List Char :=
  if ['0', 'x'].isPrefixOf s then s.drop 2 else s

theorem unprefixed_of_allHex (h : AllHex s) : unprefixed s = s := by
  refine if_neg fun hp => ?_
  have ⟨t, ht⟩ := List.isPrefixOf_iff_prefix.mp hp
  have := h 'x' (by simp [← ht])
  exact absurd this (by decide)

theorem length_padded (h : s.length ≤ 64) : (List.replicate (64 - s.length) '0' ++ s).length = 2 * 32 := by
  rw [List.length_append, List.length_replicate]
  omega

-- The bytes of up to 64 digits.
def hexBytes (s : List Char) : List ℕ :=
  Words.pairs 16 ((List.replicate (64 - s.length) '0' ++ s).map nibble)

theorem ofBytes_hexBytes (h : s.length ≤ 64) : ∃ v, ofBytes (hexBytes s) = some v ∧ v.toNat = hexValue s := by
  have hlen := length_padded h
  have hfits : Words.Fits 16 ((List.replicate (64 - s.length) '0' ++ s).map nibble) :=
    List.forall_mem_map.mpr fun c _ => nibble_lt c
  have hbytes : (hexBytes s).length = 32 ∧ ∀ b ∈ hexBytes s, b < 256 :=
    ⟨by rw [hexBytes, Words.length_pairs, List.length_map, hlen], Words.fits_pairs hfits⟩
  refine ⟨_, dif_pos hbytes, ?_⟩
  change Words.value (16 * 16) (hexBytes s) = _
  rw [hexBytes, Words.value_pairs (by rw [List.length_map, hlen]), List.map_append, List.map_replicate, nibble_zero,
    Words.value_append, Words.value_zeros, Nat.zero_mul, Nat.zero_add, hexValue]

theorem AllHex.padded (h : AllHex s) (n : ℕ) : AllHex (List.replicate n '0' ++ s) := by
  intro c hc
  obtain hc | hc := List.mem_append.mp hc
  · rw [List.eq_of_mem_replicate hc]
    decide
  · exact h c hc

theorem getD_padded (i : ℕ) (h : AllHex s) : Cpp.hexval ((List.replicate (64 - s.length) '0' ++ s).getD i '0') =
    ((List.replicate (64 - s.length) '0' ++ s).map nibble).getD i 0 := by
  have hhex : Rust.isAsciiHexdigit ((List.replicate (64 - s.length) '0' ++ s).getD i '0') := by
    rw [List.getD_eq_getElem?_getD]
    cases hc : (List.replicate (64 - s.length) '0' ++ s)[i]?
    case none   => decide
    case some c => exact h.padded _ c (List.mem_of_getElem? hc)
  rw [hexval_eq, if_pos hhex, List.getD_eq_getElem?_getD, List.getD_eq_getElem?_getD, List.getElem?_map]
  cases (List.replicate (64 - s.length) '0' ++ s)[i]? <;> rfl

theorem cpp_fromHex_eq (s : List Char) : Cpp.fromHex s =
    if unprefixed s ≠ [] ∧ (unprefixed s).length ≤ 64 ∧ AllHex (unprefixed s) then
      ofBytes (hexBytes (unprefixed s))
    else none := by
  have hany : (unprefixed s).any (Cpp.hexval · < 0) ↔ ¬ AllHex (unprefixed s) := by
    simp only [List.any_eq_true, hexval_eq, AllHex, decide_eq_true_eq, not_forall]
    refine exists_congr fun c => ?_
    split <;> simp [*]
  simp only [Cpp.fromHex]
  rw [← unprefixed]
  by_cases hn : unprefixed s = [] ∨ 64 < (unprefixed s).length
  case pos =>
    rw [if_pos (by simpa using hn), if_neg fun h => hn.elim h.left (not_lt.mpr h.right.left)]
  case neg =>
    rw [not_or, not_lt] at hn
    rw [if_neg (by simpa using hn)]
    by_cases ha : AllHex (unprefixed s)
    case neg => rw [if_pos (hany.mpr ha), if_neg fun h => ha h.right.right]
    case pos =>
      rw [if_neg (mt hany.mp (not_not.mpr ha)), if_pos ⟨hn.left, hn.right, ha⟩, hexBytes,
        ← Words.map_range_pairs ((List.length_map _).trans (length_padded hn.right))]
      congr 1
      refine List.map_congr_left fun i _ => ?_
      rw [getD_padded _ ha, getD_padded _ ha]
      have hlt (k : ℕ) :
          ((List.replicate (64 - (unprefixed s).length) '0' ++ unprefixed s).map nibble).getD k 0 < 16 := by
        rw [List.getD_eq_getElem?_getD, List.getElem?_map]
        cases (List.replicate (64 - (unprefixed s).length) '0' ++ unprefixed s)[k]?
        case none   => decide
        case some c => exact nibble_lt c
      have h₁ := hlt (2 * i)
      have h₂ := hlt (2 * i + 1)
      omega

-- Two hexadecimal digits have no sign among them.
theorem u8FromStrRadix16_pair (hc : Rust.isAsciiHexdigit c) (hd : Rust.isAsciiHexdigit d) :
    Rust.u8FromStrRadix16 [c, d] = some (nibble c * 16 + nibble d) := by
  have hplus : c ≠ '+' := by
    rintro rfl
    exact absurd hc (by decide)
  have h₁ := nibble_lt c
  have h₂ := nibble_lt d
  have hcc : nibble c < 256 := by omega
  have hdd : nibble c * 16 + nibble d < 256 := by omega
  simp only [Rust.u8FromStrRadix16, if_neg hplus, List.foldlM_cons, List.foldlM_nil, toDigit16_eq hc,
    toDigit16_eq hd, Option.bind_eq_bind, Option.bind_some, Nat.zero_mul, Nat.zero_add]
  rw [if_pos hcc, Option.bind_some, if_pos hdd]
  rfl

theorem mapM_eq_some {α β : Type} {l : List α} {f : α → Option β} {g : α → β}
    (h : ∀ x ∈ l, f x = some (g x)) : l.mapM f = some (l.map g) := by
  induction l
  case nil         => rfl
  case cons x l hi =>
    have ⟨hx, h⟩ := List.forall_mem_cons.mp h
    rw [List.mapM_cons, hx, hi h]
    rfl

theorem rust_fromHex_eq (s : List Char) : Rust.fromHex s = Cpp.fromHex s := by
  have hall : (unprefixed s).all Rust.isAsciiHexdigit ↔ AllHex (unprefixed s) := List.all_eq_true
  rw [cpp_fromHex_eq]
  simp only [Rust.fromHex]
  rw [← unprefixed]
  have hguard : ((unprefixed s).isEmpty || 64 < (unprefixed s).length ||
      !(unprefixed s).all Rust.isAsciiHexdigit) ↔
        ¬ (unprefixed s ≠ [] ∧ (unprefixed s).length ≤ 64 ∧ AllHex (unprefixed s)) := by
    rw [← hall]
    simp only [Bool.or_eq_true, List.isEmpty_iff, decide_eq_true_eq, Bool.not_eq_true', not_and_or,
       not_not, not_le, Bool.not_eq_true, or_assoc]
  by_cases hs : unprefixed s ≠ [] ∧ (unprefixed s).length ≤ 64 ∧ AllHex (unprefixed s)
  case neg => rw [if_neg hs, if_pos (hguard.mpr hs)]
  case pos =>
    rw [if_pos hs, if_neg (mt hguard.mp (not_not.mpr hs))]
    have hlen := length_padded hs.right.left
    rw [hexBytes, ← Words.map_range_pairs ((List.length_map _).trans hlen), mapM_eq_some]
    · rfl
    · intro i hi
      have hi := List.mem_range.mp hi
      set padded := List.replicate (64 - (unprefixed s).length) '0' ++ unprefixed s
      have h₁ : i * 2 < padded.length := by omega
      have h₂ : i * 2 + 1 < padded.length := by omega
      have hhex : AllHex padded := hs.right.right.padded _
      have hget (k : ℕ) (hk : k < padded.length) : (padded.map nibble).getD k 0 = nibble padded[k] := by
        rw [List.getD_eq_getElem?_getD, List.getElem?_map, List.getElem?_eq_getElem hk]
        rfl
      rw [List.drop_eq_getElem_cons h₁, List.drop_eq_getElem_cons h₂, mul_comm 2 i, hget _ h₁, hget _ h₂]
      exact u8FromStrRadix16_pair (hhex _ (List.getElem_mem h₁)) (hhex _ (List.getElem_mem h₂))

theorem fromHex_of_allHex (h : AllHex (unprefixed s)) (hn : unprefixed s ≠ []) (hl : (unprefixed s).length ≤ 64) :
    ∃ v, Rust.fromHex s = some v ∧ v.toNat = hexValue (unprefixed s) := by
  obtain ⟨v, hv, hval⟩ := ofBytes_hexBytes hl
  exact ⟨v, by rw [rust_fromHex_eq, cpp_fromHex_eq, if_pos ⟨hn, hl, h⟩, hv], hval⟩

-- A byte is printed as its two digits.
theorem hex02_eq {b : ℕ} (h : b < 256) : Rust.hex02 b =
    [Cpp.hexAlphabet.getD (b >>> 4) '0', Cpp.hexAlphabet.getD (b &&& 15) '0'] ∧
      AllHex (Rust.hex02 b) ∧ (Rust.hex02 b).map nibble = [b / 16, b % 16] := by
  have hall : ∀ b ∈ List.range 256, Rust.hex02 b =
      [Cpp.hexAlphabet.getD (b >>> 4) '0', Cpp.hexAlphabet.getD (b &&& 15) '0'] ∧
        AllHex (Rust.hex02 b) ∧ (Rust.hex02 b).map nibble = [b / 16, b % 16] := by decide +kernel
  exact hall b (List.mem_range.mpr h)

theorem cpp_wordHex_eq (v : U256) : Cpp.wordHex v = Rust.wordHex v := by
  simp only [Cpp.wordHex, Rust.wordHex]
  refine List.flatMap_congr fun b hb => ?_
  exact (hex02_eq (v.fits b hb)).left.symm

theorem wordHex_spec (v : U256) :
    AllHex (Rust.wordHex v) ∧ (Rust.wordHex v).length = 64 ∧ hexValue (Rust.wordHex v) = v.toNat := by
  have hmap : (Rust.wordHex v).map nibble = v.bytes.flatMap fun b => [b / 16, b % 16] := by
    rw [Rust.wordHex, List.map_flatMap]
    exact List.flatMap_congr fun b hb => (hex02_eq (v.fits b hb)).right.right
  refine ⟨fun c hc => ?_, ?_, ?_⟩
  · obtain ⟨b, hb, hc⟩ := List.mem_flatMap.mp hc
    exact (hex02_eq (v.fits b hb)).right.left c hc
  · have := congrArg List.length hmap
    rw [List.length_map] at this
    rw [this, List.length_flatMap]
    simp [v.length_eq]
  · rw [hexValue, hmap, Words.value_flatMap]
    rfl

theorem fromHex_wordHex (v : U256) : Rust.fromHex (Rust.wordHex v) = some v := by
  have ⟨hall, hlen, hval⟩ := wordHex_spec v
  have hu := unprefixed_of_allHex hall
  obtain ⟨w, hw, hval'⟩ := fromHex_of_allHex (hu.symm ▸ hall) (by rw [hu]; exact List.ne_nil_of_length_pos (by omega))
    (by rw [hu, hlen])
  rw [hw, toNat_inj.mp (hval'.trans ((congrArg hexValue hu).trans hval))]

end Hexadecimal

section Order

open U256

variable {v w : U256}

theorem leadingZeros_eq {b : ℕ} (h : b < 256) : Cpp.leadingZeros b = Rust.leadingZeros b := by
  have hall : ∀ b ∈ List.range 256, Cpp.leadingZeros b = Rust.leadingZeros b := by decide +kernel
  exact hall b (List.mem_range.mpr h)

-- The first byte that is not zero determines the length in bits.
theorem bits_words {bytes : List ℕ} (h : Words.Fits 256 bytes) (k : ℕ) :
    (match (bytes.zipIdx k).find? (·.1 ≠ 0) with
      | some (byte, i) => (bytes.length + k - i) * 8 - Rust.leadingZeros byte
      | none           => 0) = (Words.value 256 bytes).size := by
  induction bytes generalizing k
  case nil             => simp
  case cons b bytes hi =>
    have ⟨hb, h⟩ := h.cons
    rw [List.zipIdx_cons, Words.value_cons]
    by_cases hz : b = 0
    case pos =>
      rw [List.find?_cons_of_neg (by simp [hz]), hz, Nat.zero_mul, Nat.zero_add, ← hi h (k + 1), List.length_cons,
        Nat.add_right_comm, Nat.add_assoc]
    case neg =>
      have hlt := Words.value_lt h
      have hsize : b.size ≤ 8 := Nat.size_le.mpr hb
      have hpow : (256 : ℕ) ^ bytes.length = 2 ^ (8 * bytes.length) := by
        rw [pow_mul, show (2 : ℕ) ^ 8 = 256 by decide]
      rw [hpow] at hlt ⊢
      rw [List.find?_cons_of_pos (by simp [hz]), Words.size_add hz hlt, List.length_cons]
      simp only [Rust.leadingZeros]
      omega

theorem rust_bits_eq (v : U256) : Rust.bits v = v.toNat.size := by
  have := bits_words v.fits 0
  rwa [v.length_eq] at this

theorem cpp_bits_eq (v : U256) : Cpp.bits v = v.toNat.size := by
  rw [← rust_bits_eq, Rust.bits, Cpp.bits]
  cases hf : v.bytes.zipIdx.find? (·.1 ≠ 0)
  case none   => rfl
  case some x =>
    have hm : x.1 ∈ v.bytes := List.fst_mem_of_mem_zipIdx (List.mem_of_find?_eq_some hf)
    simp only [leadingZeros_eq (v.fits _ hm)]

theorem cmp_eq (v w : U256) : Rust.cmp v w = compare v.toNat w.toNat :=
  Words.compareLex_eq v.fits w.fits (v.length_eq.trans w.length_eq.symm)

theorem lt_iff (v w : U256) : Cpp.lt v w ↔ v.toNat < w.toNat := by
  rw [Cpp.lt, decide_eq_true_iff, U256.toNat, U256.toNat,
    Words.value_lt_iff v.fits w.fits (v.length_eq.trans w.length_eq.symm)]

-- Both languages convert exactly, and they agree. A text is read if and only if it is the canonical
-- decimal of a number below 2^256, and the digits overflow where their value does.
theorem conversions_exact :
    (∀ v, Rust.fromDec (Rust.toDec v) = some v ∧ Rust.fromHex (Rust.wordHex v) = some v) ∧
    (∀ s v, Rust.fromDec s = some v ↔
      Canonical s ∧ Digits.value s < 2 ^ 256 ∧ v.toNat = Digits.value s) ∧
    (∀ s, s.foldlM pushDigit zero = none ↔ 2 ^ 256 ≤ Digits.value s) ∧
    (∀ v, Rust.bits v = v.toNat.size ∧ Cpp.bits v = v.toNat.size) ∧
    (∀ v w, Rust.cmp v w = compare v.toNat w.toNat ∧ (Cpp.lt v w ↔ v.toNat < w.toNat) ∧
      (Cpp.gt v w ↔ w.toNat < v.toNat) ∧ (v = w ↔ v.toNat = w.toNat)) ∧
    (∀ s, Cpp.fromDec s = Rust.fromDec s ∧ Cpp.fromHex s = Rust.fromHex s) ∧
    ∀ v, Cpp.dec v = Rust.toDec v ∧ Cpp.wordHex v = Rust.wordHex v := by
  refine ⟨fun v => ⟨fromDec_toDec v, fromHex_wordHex v⟩, fun s v => ?_, fun s => ?_,
    fun v => ⟨rust_bits_eq v, cpp_bits_eq v⟩,
    fun v w => ⟨cmp_eq v w, lt_iff v w, lt_iff w v, toNat_inj.symm⟩,
    fun s => ⟨cpp_fromDec_eq, (rust_fromHex_eq s).symm⟩, fun v => ⟨rfl, cpp_wordHex_eq v⟩⟩
  · have ⟨hsome, hnone⟩ := fromDec_spec s
    by_cases hs : Canonical s ∧ Digits.value s < 2 ^ 256
    case pos =>
      obtain ⟨w, hw, hval⟩ := hsome hs
      rw [hw, Option.some_inj, ← toNat_inj, hval]
      exact ⟨fun h => ⟨hs.left, hs.right, h.symm⟩, fun h => h.right.right.symm⟩
    case neg =>
      rw [hnone hs]
      exact iff_of_false nofun fun h => hs ⟨h.left, h.right.left⟩
  · have hfold := foldlM_pushDigit zero s
    rw [toNat_zero] at hfold
    refine ⟨fun h => not_lt.mp fun hlt => ?_, hfold.right⟩
    obtain ⟨w, hw, _⟩ := hfold.left hlt
    rw [hw] at h
    cases h

-- The largest word and the number after it.
example : Rust.fromDec (Nat.toDigits 10 (2 ^ 256)) = none := by
  rw [(fromDec_spec _).right]
  rintro ⟨_, h⟩
  rw [Digits.value, Nat.ofDigitChars_ten_toDigits] at h
  exact absurd h (lt_irrefl _)

end Order

end Sdk
