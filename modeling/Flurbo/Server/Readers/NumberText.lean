import Flurbo.Library.Json
import Flurbo.Server.Readers.JsonRecord

-- The numbers of the language: how the text of one is rounded, and the text that `Number::toString` gives it.

namespace Readers

open Digits

-- `round` gives the number that is next to a rational, and `digits` and `place` are the decimal digits of a positive
-- number with the place of their point, chosen so that they are read as that number again. A number that is not
-- finite has no value. There may be two zeros.
structure Floats (N : Type) where
  round      : ℚ → N
  neg        : N → N
  value      : N → Option ℚ
  digits     : ℚ → ℕ
  place      : ℚ → ℤ
  zero       : value (round 0) = some 0
  value_neg  : ∀ x, value (neg x) = (value x).map (- ·)
  digits_pos : ∀ x q, value x = some q → 0 < q → 0 < digits q
  reads      : ∀ x q, value x = some q → 0 < q →
    value (round (digits q * 10 ^ (place q - (Nat.toDigits 10 (digits q)).length))) = some q

-- The parts of a number's text as it is laid out, the exponent last.
structure Layout where
  whole    : List Char
  fraction : List Char
  exponent : Option ℤ

namespace Layout

def suffix : Option ℤ → List Char
  | none   => []
  | some e => 'e' :: (if e < 0 then '-' else '+') :: Nat.toDigits 10 e.natAbs

def text (l : Layout) (negative : Bool) : List Char := write negative l.whole l.fraction ++ suffix l.exponent

-- `digits` with the point at `place`: plainly where neither part gets too long, else with an exponent.
def of (digits : ℕ) (place : ℤ) : Layout :=
  let ds := Nat.toDigits 10 digits
  if ds.length ≤ place ∧ place ≤ 21 then ⟨ds ++ List.replicate (place - ds.length).toNat '0', [], none⟩
  else if 0 < place ∧ place ≤ 21 then ⟨ds.take place.toNat, ds.drop place.toNat, none⟩
  else if -6 < place ∧ place ≤ 0 then ⟨['0'], List.replicate (-place).toNat '0' ++ ds, none⟩
  else ⟨ds.take 1, ds.drop 1, some (place - 1)⟩

structure Valid (l : Layout) : Prop where
  whole_digits    : AllDigits l.whole
  fraction_digits : AllDigits l.fraction
  nonempty        : l.whole ≠ []
  leading         : NoLeadingZero l.whole

def numeral (l : Layout) (negative : Bool) : Numeral := ⟨negative, l.whole, l.fraction, l.exponent.getD 0⟩

end Layout

namespace Floats

variable {N : Type} (F : Floats N)

def zeroText : Layout := ⟨['0'], [], none⟩

-- `Number::toString`, of finite numbers.
def write (x : N) : Option Utf16 :=
  (F.value x).map fun q =>
    let l := if q = 0 then zeroText else Layout.of (F.digits |q|) (F.place |q|)
    (l.text (q < 0)).map Utf16.ofChar

def toChar (c : CodeUnit) : Char := Char.ofNat c.toNat

-- The number of a number's text: the sign is not rounded.
def parse (t : Utf16) : N :=
  match readNumeral (t.map toChar) with
  | none   => F.round 0
  | some n =>
    let x := F.round ({ n with negative := false } : Numeral).value
    if n.negative then F.neg x else x

def Finite (x : N) : Prop := ∃ q, F.value x = some q

def numbers : JsonRecord.Numbers N where
  parse := F.parse
  ofNat n := F.round n
  write := F.write
  safe x := (F.value x).bind fun q => if q.den = 1 ∧ 0 ≤ q ∧ q < 2 ^ 53 then some q.num.toNat else none

end Floats

section Digits

variable {s : ℕ}

theorem value_toDigits (n : ℕ) : Digits.value (Nat.toDigits 10 n) = n := Nat.ofDigitChars_ten_toDigits

theorem toDigits_head (h : 0 < s) : (Nat.toDigits 10 s).head? ≠ some '0' := by
  by_cases hs : s < 10
  · have hd : ∀ n < 10, 0 < n → (Nat.toDigits 10 n).head? ≠ some '0' := by decide
    exact hd s hs h
  · refine noLeadingZero_toDigits s (lt_of_not_ge fun hl => hs ?_)
    exact (Nat.length_toDigits_le_iff (by decide) (by decide)).mp hl

theorem readDigits_toDigits (n : ℕ) : readDigits (Nat.toDigits 10 n) = some n := by
  rw [readDigits, if_neg Nat.toDigits_ne_nil, digits?_eq (allDigits_toDigits n), value_toDigits]

theorem readExponent_suffix (e : Option ℤ) : readExponent (Layout.suffix e) = some (e.getD 0) := by
  cases e
  case none   => rfl
  case some e =>
    rw [Layout.suffix, readExponent, Option.getD_some]
    split
    case isTrue he  =>
      rw [readSigned, readDigits_toDigits]
      exact congrArg some (show -(e.natAbs : ℤ) = e by omega)
    case isFalse he =>
      rw [readSigned, readDigits_toDigits]
      exact congrArg some (show (e.natAbs : ℤ) = e by omega)

theorem suffix_head (e : Option ℤ) : ∀ c ∈ (Layout.suffix e).head?, c.isDigit = false ∧ c ≠ '.' := by
  cases e
  case none   => exact fun c hc => by cases hc
  case some e => exact fun c hc => by cases hc; decide

end Digits

namespace Layout

variable {l : Layout} {negative : Bool} {s : ℕ} {place : ℤ}

theorem readNumeral_text (h : l.Valid) : readNumeral (l.text negative) = some (l.numeral negative) := by
  rw [text, readNumeral_write h.whole_digits h.fraction_digits h.nonempty (suffix_head _), readExponent_suffix]
  rfl

theorem valid_zeroText : Valid Floats.zeroText := ⟨fun c hc => by cases List.mem_singleton.mp hc; rfl,
  fun c hc => (by cases hc), by decide, fun h => absurd h (by decide)⟩

theorem noLeadingZero_append {cs ds : List Char} (hn : cs ≠ []) (h : cs.head? ≠ some '0') :
    NoLeadingZero (cs ++ ds) := fun _ hd => h (by rwa [List.head?_append_of_ne_nil _ hn] at hd)

theorem valid_of (h : 0 < s) (place : ℤ) : (Layout.of s place).Valid := by
  have hd := allDigits_toDigits s
  have hn : Nat.toDigits 10 s ≠ [] := Nat.toDigits_ne_nil
  have hhead := toDigits_head h
  have htake {n : ℕ} (hp : n ≠ 0) : Valid ⟨(Nat.toDigits 10 s).take n, (Nat.toDigits 10 s).drop n, none⟩ :=
    ⟨hd.take _, hd.drop _, by simp [hp, hn], fun _ => by rwa [List.head?_take, if_neg hp]⟩
  rw [Layout.of]
  split
  case isTrue =>
    exact ⟨hd.append (allDigits_zeros _), fun c hc => (by cases hc), by simp [hn], noLeadingZero_append hn hhead⟩
  split
  case isTrue hp => exact htake (by omega)
  split
  case isTrue =>
    exact ⟨valid_zeroText.whole_digits, (allDigits_zeros _).append hd, by simp, fun h => absurd h (by simp)⟩
  case isFalse =>
    have hv := htake (n := 1) (by decide)
    exact ⟨hv.whole_digits, hv.fraction_digits, hv.nonempty, hv.leading⟩

-- What is written is worth the digits with the point at its place.
theorem value_of (s : ℕ) (place : ℤ) : ((Layout.of s place).numeral false).value =
    s * 10 ^ (place - (Nat.toDigits 10 s).length) := by
  have hlen : 0 < (Nat.toDigits 10 s).length := List.length_pos_iff.mpr Nat.toDigits_ne_nil
  rw [Numeral.value, numeral, if_neg Bool.false_ne_true, one_mul, Layout.of]
  split
  case isTrue hp =>
    have he : (((place - (Nat.toDigits 10 s).length).toNat : ℕ) : ℤ) = place - (Nat.toDigits 10 s).length := by omega
    simp only [List.append_nil, Option.getD_none, List.length_nil, Nat.cast_zero, sub_zero, zpow_zero, mul_one,
      value_append_zeros, value_toDigits, Nat.cast_mul, Nat.cast_pow, Nat.cast_ofNat]
    rw [← zpow_natCast, he, mul_comm]
  split
  case isTrue hp =>
    simp only [List.take_append_drop, value_toDigits, Option.getD_none, List.length_drop]
    congr 2
    omega
  split
  case isTrue hp =>
    have hv : Digits.value (['0'] ++ (List.replicate (-place).toNat '0' ++ Nat.toDigits 10 s)) = s := by
      rw [← List.append_assoc, show ['0'] ++ List.replicate (-place).toNat '0' =
        List.replicate ((-place).toNat + 1) '0' from rfl, value_zeros_append, value_toDigits]
    simp only [hv, Option.getD_none, List.length_append, List.length_replicate]
    congr 2
    push_cast
    omega
  case isFalse =>
    simp only [List.take_append_drop, value_toDigits, Option.getD_some, List.length_drop]
    congr 2
    omega

end Layout

section Units

open Json

variable {c : Char} {cs : List Char}

-- The characters that texts of numbers are made of.
abbrev IsPlain (c : Char) : Prop := c.toNat < 128

theorem toNat_ofChar (h : IsPlain c) : (Utf16.ofChar c).toNat = c.toNat := by
  have h : c.toNat < 128 := h
  exact UInt16.toNat_ofNat_of_lt (lt_trans h (by decide))

theorem toChar_ofChar (h : IsPlain c) : Floats.toChar (Utf16.ofChar c) = c := by
  rw [Floats.toChar, toNat_ofChar h, Char.ofNat_toNat]

theorem map_toChar (h : ∀ c ∈ cs, IsPlain c) : (cs.map Utf16.ofChar).map Floats.toChar = cs := by
  rw [List.map_map]
  exact (List.map_congr_left fun c hc => toChar_ofChar (h c hc)).trans (List.map_id cs)

theorem isPlain_digit (h : c.isDigit = true) : IsPlain c := by
  have hc := isDigit_iff.mp h
  rw [IsPlain]
  omega

theorem isDigit_ofChar (h : c.isDigit = true) : Json.isDigit (Utf16.ofChar c) = true := by
  have hc := isDigit_iff.mp h
  have hz : zero.toNat = 48 := rfl
  have hn : nine.toNat = 57 := rfl
  rw [Json.isDigit, Bool.and_eq_true, decide_eq_true_eq, decide_eq_true_eq, UInt16.le_iff_toNat_le,
    UInt16.le_iff_toNat_le, toNat_ofChar (isPlain_digit h), hz, hn]
  exact hc

theorem digits_map (h : AllDigits cs) : Json.Digits (cs.map Utf16.ofChar) := fun c hc => by
  obtain ⟨d, hd, rfl⟩ := List.mem_map.mp hc
  exact isDigit_ofChar (h d hd)

theorem int_map (h : AllDigits cs) (hn : cs ≠ []) (hz : NoLeadingZero cs) : Json.Int (cs.map Utf16.ofChar) := by
  obtain ⟨c, cs, rfl⟩ := List.exists_cons_of_ne_nil hn
  have hc := h c (by simp)
  have hcs : AllDigits cs := fun d hd => h d (by simp [hd])
  by_cases h0 : c = '0'
  · subst h0
    cases cs
    case nil       => exact .zero
    case cons d cs => exact absurd rfl (hz (by simp))
  · refine .digits (isDigit_ofChar hc) (fun he => h0 ?_) (digits_map hcs)
    have he := congrArg UInt16.toNat he
    rw [toNat_ofChar (isPlain_digit hc)] at he
    exact eq_of_toNat he

variable {l : Layout} {negative : Bool}

theorem exp_suffix (e : Option ℤ) : Json.Exp ((Layout.suffix e).map Utf16.ofChar) := by
  cases e
  case none   => exact .none
  case some e =>
    have hd := digits_map (allDigits_toDigits e.natAbs)
    have hn : (Nat.toDigits 10 e.natAbs).map Utf16.ofChar ≠ [] := by simp [Nat.toDigits_ne_nil]
    rw [Layout.suffix]
    split
    case isTrue  => exact @Json.Exp.digits letter_e [minus] _ (.inl rfl) (.inr (.inr rfl)) hn hd
    case isFalse => exact @Json.Exp.digits letter_e [plus] _ (.inl rfl) (.inr (.inl rfl)) hn hd

theorem frac_afterPoint (h : AllDigits cs) : Json.Frac ((afterPoint cs).map Utf16.ofChar) := by
  rw [afterPoint]
  split
  case isTrue     => exact .none
  case isFalse hn => exact .digits (by simpa using hn) (digits_map h)

-- The text is a number of the grammar.
theorem number_text (h : l.Valid) : Json.Number ((l.text negative).map Utf16.ofChar) := by
  have hn := @Json.Number.mk (if negative then [minus] else []) _ _ _ (by cases negative <;> simp)
    (int_map h.whole_digits h.nonempty h.leading) (frac_afterPoint h.fraction_digits) (exp_suffix l.exponent)
  have he : (l.text negative).map Utf16.ofChar = (if negative then [minus] else []) ++ (l.whole.map Utf16.ofChar ++
      ((afterPoint l.fraction).map Utf16.ofChar ++ (Layout.suffix l.exponent).map Utf16.ofChar)) := by
    rw [Layout.text, write]
    simp only [List.map_append, List.append_assoc]
    cases negative <;> rfl
  rw [he]
  exact hn

theorem isPlain_text (h : l.Valid) : ∀ c ∈ l.text negative, IsPlain c := by
  intro c hc
  simp only [Layout.text, write, List.mem_append] at hc
  rcases hc with ((hc | hc) | hc) | hc
  · cases negative
    case true  => cases List.mem_singleton.mp hc; decide
    case false => cases hc
  · exact isPlain_digit (h.whole_digits c hc)
  · rw [afterPoint] at hc
    split at hc
    case isTrue  => cases hc
    case isFalse =>
      rcases List.mem_cons.mp hc with rfl | hc
      · decide
      · exact isPlain_digit (h.fraction_digits c hc)
  · cases he : l.exponent
    case none   => rw [he] at hc; cases hc
    case some e =>
      rw [he, Layout.suffix] at hc
      rcases List.mem_cons.mp hc with rfl | hc
      · decide
      · rcases List.mem_cons.mp hc with rfl | hc
        · split <;> decide
        · exact isPlain_digit (allDigits_toDigits _ c hc)

end Units

namespace Floats

variable {N : Type} {F : Floats N} {x y : N} {q : ℚ} {t : Utf16}

theorem parse_text {l : Layout} (h : l.Valid) (negative : Bool) :
    F.parse ((l.text negative).map Utf16.ofChar) =
      if negative then F.neg (F.round (l.numeral false).value) else F.round (l.numeral false).value := by
  rw [parse, map_toChar (isPlain_text h), Layout.readNumeral_text h]
  rfl

theorem write_eq_some (h : F.write x = some t) : ∃ q, F.value x = some q ∧
    t = ((if q = 0 then zeroText else Layout.of (F.digits |q|) (F.place |q|)).text (q < 0)).map Utf16.ofChar := by
  rw [write, Option.map_eq_some_iff] at h
  obtain ⟨q, hq, rfl⟩ := h
  exact ⟨q, hq, rfl⟩

-- Either the number or its negation is positive.
theorem value_abs (h : F.value x = some q) : ∃ y, F.value y = some |q| := by
  rcases abs_choice q with hq | hq
  · exact ⟨x, by rw [hq, h]⟩
  · exact ⟨F.neg x, by rw [F.value_neg, h, hq]; rfl⟩

theorem valid_layout (h : F.value x = some q) :
    (if q = 0 then zeroText else Layout.of (F.digits |q|) (F.place |q|)).Valid := by
  split
  case isTrue     => exact Layout.valid_zeroText
  case isFalse h0 =>
    have ⟨y, hy⟩ := value_abs h
    exact Layout.valid_of (F.digits_pos y _ hy (abs_pos.mpr h0)) _

theorem number_write (x : N) (t : Utf16) (h : F.write x = some t) : Json.Number t := by
  obtain ⟨q, hq, rfl⟩ := write_eq_some h
  exact number_text (valid_layout hq)

-- A number is worth the same after it is written and read again.
theorem value_parse_write (h : F.write x = some t) : F.value (F.parse t) = F.value x := by
  obtain ⟨q, hq, rfl⟩ := write_eq_some h
  rw [parse_text (valid_layout hq), hq]
  by_cases h0 : q = 0
  · subst h0
    rw [if_pos rfl, if_neg (by simp)]
    have hz : (Layout.numeral zeroText false).value = 0 := by
      have hv : Digits.value ['0'] = 0 := rfl
      simp only [Numeral.value, Layout.numeral, zeroText, List.append_nil, hv, Nat.cast_zero, mul_zero, zero_mul]
    rw [hz, F.zero]
  · obtain ⟨y, hy⟩ := value_abs hq
    have hr := F.reads y _ hy (abs_pos.mpr h0)
    rw [if_neg h0, Layout.value_of]
    by_cases hneg : q < 0
    · rw [if_pos (by simpa using hneg), F.value_neg, hr, Option.map_some, abs_of_neg hneg, neg_neg]
    · rw [if_neg (by simpa using hneg), hr, abs_of_nonneg (not_lt.mp hneg)]

-- The number of thousandths of a positive number.
theorem thousandths_spec {n : ℤ} {q : ℚ} (h : (if |n| ≤ 10 ^ 9 then some ((n : ℚ) / 1000) else none) = some q)
    (hq : 0 < q) : 0 < n ∧ (q * 1000).num.natAbs = n.natAbs := by
  split at h
  case isFalse => cases h
  case isTrue  =>
    cases h
    have hn : 0 < n := by
      have : (0 : ℚ) < n := by
        by_contra hle
        linarith [div_nonpos_of_nonpos_of_nonneg (not_lt.mp hle) (by norm_num : (0 : ℚ) ≤ 1000)]
      exact_mod_cast this
    have he : (n : ℚ) / 1000 * 1000 = n := div_mul_cancel₀ _ (by norm_num)
    rw [he, Rat.num_intCast]
    exact ⟨hn, rfl⟩

-- Thousandths up to a million are such numbers. What lies beyond is not finite, and their digits are those without
-- zeros at the end.
def thousandths : Floats ℤ where
  round q    := ⌊q * 1000 + 1 / 2⌋
  neg n      := -n
  value n    := if |n| ≤ 10 ^ 9 then some (n / 1000) else none
  digits q   := (q * 1000).num.natAbs / 10 ^ padicValNat 10 (q * 1000).num.natAbs
  place q    :=
    (Nat.toDigits 10 ((q * 1000).num.natAbs / 10 ^ padicValNat 10 (q * 1000).num.natAbs)).length +
      padicValNat 10 (q * 1000).num.natAbs - 3
  zero       := by norm_num
  value_neg n := by
    rw [abs_neg]
    split
    case isTrue  => simp [neg_div]
    case isFalse => rfl
  digits_pos n q h hq := by
    obtain ⟨hn, hnum⟩ := thousandths_spec h hq
    rw [hnum]
    exact Nat.div_pos (Nat.le_of_dvd (Int.natAbs_pos.mpr hn.ne') pow_padicValNat_dvd) (by positivity)
  reads n q h hq := by
    obtain ⟨hn, hnum⟩ := thousandths_spec h hq
    rw [hnum, add_sub_assoc, add_sub_cancel_left]
    have hdigits : ((n.natAbs / 10 ^ padicValNat 10 n.natAbs : ℕ) : ℚ) * 10 ^ padicValNat 10 n.natAbs = n.natAbs := by
      exact_mod_cast Nat.div_mul_cancel pow_padicValNat_dvd
    have hpow : (10 : ℚ) ^ ((padicValNat 10 n.natAbs : ℤ) - 3) * 1000 = 10 ^ padicValNat 10 n.natAbs := by
      rw [zpow_sub₀ (by norm_num), zpow_natCast]
      norm_num
    have hfloor : ⌊((n.natAbs : ℤ) : ℚ) + 1 / 2⌋ = n.natAbs := by
      rw [Int.floor_intCast_add]
      norm_num
    rw [mul_assoc, hpow, hdigits, ← Int.cast_natCast, hfloor, Int.natAbs_of_nonneg hn.le]
    exact h

end Floats

end Readers
