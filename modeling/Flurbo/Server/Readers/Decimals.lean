import Flurbo.Library.Digits
import Flurbo.Server.SettlementRules

-- Numbers as sources write them, and the exact decimals that they are read as.

namespace Readers

open Settlement Digits

-- `outOfRounds` is not an issue of the source: it would say that a loop did not end.
inductive Issue
  | valueInvalid | valueMissing | valuePrecisionUnsupported | notDecimal
  | invalidJson | tooDeep | duplicateField | missingField
  | notAValue | notAList | tooLarge | ambiguousOrMissing | identityMismatch
  | outOfRounds
  deriving DecidableEq, Repr

-- The white space and the line ends that `trim` removes.
def isSpace (c : Char) : Bool :=
  c.toNat ∈ [0x09, 0x0A, 0x0B, 0x0C, 0x0D, 0x20, 0xA0, 0x1680, 0x2028, 0x2029, 0x202F, 0x205F, 0x3000, 0xFEFF] ∨
    0x2000 ≤ c.toNat ∧ c.toNat ≤ 0x200A

def trim (cs : List Char) : List Char := ((cs.dropWhile isSpace).reverse.dropWhile isSpace).reverse

-- The parts of a number's text.
structure Numeral where
  negative : Bool
  whole    : List Char
  fraction : List Char
  exponent : ℤ
  deriving DecidableEq, Repr

-- `\d+`
def readDigits (cs : List Char) : Option ℕ := if cs = [] then none else digits? cs

-- `[+-]?\d+`
def readSigned : List Char → Option ℤ
  | '-' :: cs => (readDigits cs).map fun n => -(n : ℤ)
  | '+' :: cs => (readDigits cs).map fun n => (n : ℤ)
  | cs        => (readDigits cs).map fun n => (n : ℤ)

-- `(?:[eE]([+-]?\d+))?$`
def readExponent : List Char → Option ℤ
  | []        => some 0
  | 'e' :: cs => readSigned cs
  | 'E' :: cs => readSigned cs
  | _         => none

-- `^(-?)(\d+)(?:\.(\d+))?(?:[eE]([+-]?\d+))?$`
def readNumeral (cs : List Char) : Option Numeral :=
  let negative := decide (cs.head? = some '-')
  let unsigned := if negative then cs.tail else cs
  let whole := unsigned.takeWhile (·.isDigit)
  if whole = [] then none
  else
    match unsigned.dropWhile (·.isDigit) with
    | '.' :: rest =>
      let fraction := rest.takeWhile (·.isDigit)
      if fraction = [] then none
      else (readExponent (rest.dropWhile (·.isDigit))).map fun e => ⟨negative, whole, fraction, e⟩
    | rest        => (readExponent rest).map fun e => ⟨negative, whole, [], e⟩

-- The point is there if digits follow it.
def afterPoint (fraction : List Char) : List Char := if fraction = [] then [] else '.' :: fraction

def write (negative : Bool) (whole fraction : List Char) : List Char :=
  (if negative then ['-'] else []) ++ whole ++ afterPoint fraction

namespace Numeral

-- The digits with enough zeros for the place of the point to be among them.
def padded (n : Numeral) : List Char × ℕ :=
  let digits := n.whole ++ n.fraction
  let point := n.whole.length + n.exponent
  if point ≤ 0 then
    (List.replicate (1 - point).toNat '0' ++ digits, 1)
  else if digits.length < point then
    (digits ++ List.replicate (point - digits.length).toNat '0', point.toNat)
  else
    (digits, point.toNat)

def integer (n : Numeral) : List Char := stripLeading (n.padded.1.take n.padded.2)

def decimals (n : Numeral) : List Char := stripTrailing (n.padded.1.drop n.padded.2)

-- `sign && /[1-9]/.test(integer + decimals)`
def signed (n : Numeral) : Bool :=
  n.negative && (n.integer ++ n.decimals).any fun c => '1' ≤ c ∧ c ≤ '9'

end Numeral

def exactDecimal (raw : String) : Except Issue String :=
  match readNumeral (trim raw.toList) with
  | none   => .error .valueInvalid
  | some n =>
    if n.exponent.natAbs > 60 then .error .valueInvalid
    else if n.decimals.length > 18 ∨ n.integer.length > 36 then .error .valuePrecisionUnsupported
    else
      let out := String.ofList (write n.signed n.integer n.decimals)
      match decimal out with
      | none   => .error .notDecimal
      | some _ => .ok out

def scaled (value : String) (places : ℕ) : Except Issue String :=
  if places = 0 then .ok value
  else exactDecimal (String.ofList (value.toList ++ 'e' :: '-' :: Nat.toDigits 10 places))

def padStart (n : ℕ) (cs : List Char) : List Char := List.replicate (n - cs.length) '0' ++ cs

def fromUnits (coefficient : ℤ) (places : ℕ) : Except Issue String :=
  let digits := padStart (places + 1) (Nat.toDigits 10 coefficient.natAbs)
  let point := digits.length - places
  exactDecimal (String.ofList ((if coefficient < 0 then ['-'] else []) ++ digits.take point ++
    if places = 0 then [] else '.' :: digits.drop point))

def decimalOf (text : String) : Except Issue Decimal :=
  match decimal text with
  | none   => .error .notDecimal
  | some d => .ok d

def addDecimal (a b : String) : Except Issue String := do
  let x ← decimalOf a
  let y ← decimalOf b
  let s := max x.scale y.scale
  fromUnits (x.coefficient * 10 ^ (s - x.scale) + y.coefficient * 10 ^ (s - y.scale)) s

def compareDecimal (a b : String) : Except Issue Ordering := do
  let x ← decimalOf a
  let y ← decimalOf b
  return x.compare y

-- The number that a text stands for.
def Numeral.value (n : Numeral) : ℚ :=
  (if n.negative then -1 else 1) * Digits.value (n.whole ++ n.fraction) * 10 ^ (n.exponent - n.fraction.length)

def written (negative : Bool) (whole fraction : List Char) : ℚ :=
  (if negative then -1 else 1) * pointed whole fraction

-- What `decimal` accepts.
structure Plain (whole fraction : List Char) : Prop where
  whole_digits    : AllDigits whole
  fraction_digits : AllDigits fraction
  nonempty        : whole ≠ []
  leading         : NoLeadingZero whole
  whole_length    : whole.length ≤ 36
  fraction_length : fraction.length ≤ 18

structure Canonical (negative : Bool) (whole fraction : List Char) : Prop extends Plain whole fraction where
  trailing : NoTrailingZero fraction
  sign     : negative = true → pointed whole fraction ≠ 0

-- The canonical decimal of a number.
def Writes (text : String) (q : ℚ) : Prop :=
  ∃ negative whole fraction, Canonical negative whole fraction ∧
    text = String.ofList (write negative whole fraction) ∧ written negative whole fraction = q

-- At most 18 decimals and 36 integer digits are needed.
structure Representable (q : ℚ) : Prop where
  decimals : ∃ m : ℤ, q * 10 ^ 18 = m
  integer  : |q| < 10 ^ 36

section Text

variable {cs ws fs suffix : List Char} {c : Char} {b : Bool}

theorem isSpace_eq_false (h : 32 < c.toNat) (h' : c.toNat < 127) : isSpace c = false := by
  rw [isSpace, decide_eq_false_iff_not]
  simp only [List.mem_cons, List.not_mem_nil, or_false]
  omega

theorem trim_eq_self (h : ∀ c ∈ cs, isSpace c = false) : trim cs = cs := by
  have hd (cs : List Char) (h : ∀ c ∈ cs, isSpace c = false) : cs.dropWhile isSpace = cs := by
    cases cs
    case nil       => rfl
    case cons c cs => rw [List.dropWhile_cons_of_neg (by simp [h c (by simp)])]
  rw [trim, hd cs h, hd _ (fun c hc => h c (List.mem_reverse.mp hc)), List.reverse_reverse]

theorem digit_ne_minus (h : AllDigits ws) : ws.head? ≠ some '-' := by
  cases ws
  case nil       => simp
  case cons c cs =>
    intro hc
    have hd := h c (by simp)
    rw [Option.some.inj hc] at hd
    cases hd

-- The sign is read off a text whose digits follow it.
theorem readSign_write (h : AllDigits ws) (hn : ws ≠ []) (rest : List Char) :
    (((if b then ['-'] else []) ++ ws ++ rest).head? = some '-' ↔ b = true) ∧
    (if b then ((if b then ['-'] else []) ++ ws ++ rest).tail else (if b then ['-'] else []) ++ ws ++ rest) =
      ws ++ rest := by
  cases b
  case true  => exact ⟨iff_of_true rfl rfl, rfl⟩
  case false =>
    refine ⟨iff_of_false ?_ Bool.false_ne_true, rfl⟩
    rw [if_neg (by simp), List.nil_append, List.head?_append_of_ne_nil _ hn]
    exact digit_ne_minus h

@[simp]
theorem afterPoint_tail : (afterPoint fs).tail = fs := by
  rw [afterPoint]
  split
  case isTrue hf => exact hf.symm
  case isFalse   => rfl

@[simp]
theorem afterPoint_eq_nil : afterPoint fs = [] ↔ fs = [] := by
  rw [afterPoint]
  split
  case isTrue hf  => simp [hf]
  case isFalse hf => simp [hf]

theorem readNumeral_write (hw : AllDigits ws) (hf : AllDigits fs) (hn : ws ≠ [])
    (hs : ∀ c ∈ suffix.head?, c.isDigit = false ∧ c ≠ '.') :
    readNumeral (write b ws fs ++ suffix) = (readExponent suffix).map fun e => ⟨b, ws, fs, e⟩ := by
  have hs' : ∀ c ∈ suffix.head?, c.isDigit = false := fun c hc => (hs c hc).1
  have hrest : ∀ c ∈ (afterPoint fs ++ suffix).head?, c.isDigit = false := by
    intro c hc
    rw [afterPoint] at hc
    split at hc
    case isTrue  => exact hs' c hc
    case isFalse => cases hc; rfl
  have ⟨hb, hu⟩ := readSign_write (b := b) hw hn (afterPoint fs ++ suffix)
  rw [readNumeral, write]
  simp only [List.append_assoc] at hb hu ⊢
  simp only [hb, Bool.decide_eq_true]
  rw [hu, takeWhile_span hw hrest, dropWhile_span hw hrest, if_neg hn, afterPoint]
  by_cases he : fs = []
  · subst he
    rw [if_pos rfl, List.nil_append]
    split
    case h_1 rest => exact ((hs '.' rfl).2 rfl).elim
    case h_2      => rfl
  · rw [if_neg he, List.cons_append]
    simp only []
    rw [takeWhile_span hf hs', dropWhile_span hf hs', if_neg he]

theorem ne_point_of_digit (h : c.isDigit = true) : c ≠ '.' := by
  rintro rfl
  cases h

theorem digits?_eq (h : AllDigits cs) : digits? cs = some (Digits.value cs) := by
  rw [digits?, if_pos (List.all_eq_true.mpr h)]
  rfl

theorem digits?_eq_some {n : ℕ} (h : digits? cs = some n) : AllDigits cs ∧ n = Digits.value cs := by
  rw [digits?] at h
  split at h
  case isTrue ha  => exact ⟨List.all_eq_true.mp ha, (Option.some.inj h).symm⟩
  case isFalse ha => cases h

theorem takeWhile_point (h : AllDigits ws) :
    (ws ++ afterPoint fs).takeWhile (· ≠ '.') = ws ∧ (ws ++ afterPoint fs).dropWhile (· ≠ '.') = afterPoint fs := by
  have hp : ∀ c ∈ ws, decide (c ≠ '.') = true := fun c hc => decide_eq_true (ne_point_of_digit (h c hc))
  rw [List.takeWhile_append_of_pos hp, List.dropWhile_append_of_pos hp, afterPoint]
  split
  case isTrue  => simp
  case isFalse => simp

theorem decimal_write (h : Plain ws fs) : decimal (String.ofList (write b ws fs)) =
    some ⟨if b then -(Digits.value (ws ++ fs) : ℤ) else Digits.value (ws ++ fs), fs.length⟩ := by
  have ⟨hb, hu⟩ := readSign_write (b := b) h.whole_digits h.nonempty (afterPoint fs)
  have ⟨ht, hd⟩ := @takeWhile_point _ fs h.whole_digits
  have hl : ¬ (ws = [] ∨ ws.length > 36 ∨ ws.length > 1 ∧ ws.head? = some '0') := by
    intro h'
    rcases h' with h' | h' | h'
    · exact h.nonempty h'
    · exact absurd h.whole_length h'.not_ge
    · exact h.leading h'.1 h'.2
  have hr : ¬ (afterPoint fs ≠ [] ∧ (fs = [] ∨ fs.length > 18)) := by
    intro ⟨hn, h'⟩
    rcases h' with h' | h'
    · exact hn (afterPoint_eq_nil.mpr h')
    · exact absurd h.fraction_length h'.not_ge
  rw [decimal, String.toList_ofList]
  rw [write]
  simp only [hb]
  rw [hu, ht, hd, if_neg hl, afterPoint_tail, if_neg hr, digits?_eq h.whole_digits, digits?_eq h.fraction_digits,
    digits?_eq (h.whole_digits.append h.fraction_digits)]
  rfl

-- Conversely every text that `decimal` accepts is written so.
theorem decimal_eq_some {text : String} {d : Decimal} (h : decimal text = some d) :
    ∃ b ws fs, Plain ws fs ∧ text = String.ofList (write b ws fs) ∧
      d = ⟨if b then -(Digits.value (ws ++ fs) : ℤ) else Digits.value (ws ++ fs), fs.length⟩ := by
  rw [decimal] at h
  generalize hun : (if text.toList.head? = some '-' then text.toList.tail else text.toList) = unsigned at h
  split at h
  case isTrue  => cases h
  case isFalse hw =>
    split at h
    case isTrue  => cases h
    case isFalse hf =>
      simp only [Option.bind_eq_bind, Option.bind_eq_some_iff, Option.pure_def, Option.some.injEq] at h
      obtain ⟨_, hwd, _, hfd, n, hn, hd⟩ := h
      have hwd := (digits?_eq_some hwd).1
      have hfd := (digits?_eq_some hfd).1
      have hn := (digits?_eq_some hn).2
      have hrest : unsigned.dropWhile (· ≠ '.') = afterPoint (unsigned.dropWhile (· ≠ '.')).tail := by
        have hp := List.head?_dropWhile_not (p := fun c => decide (c ≠ '.')) unsigned
        generalize unsigned.dropWhile (· ≠ '.') = rest at hf hp ⊢
        cases rest
        case nil         => rfl
        case cons c rest =>
          have hc : c = '.' := by simpa using hp
          have hne : rest ≠ [] := fun he => hf ⟨by simp, .inl he⟩
          rw [List.tail_cons, afterPoint, if_neg hne, hc]
      have htext : text.toList = (if text.toList.head? = some '-' then ['-'] else []) ++ unsigned := by
        rw [← hun]
        split
        case isTrue hm  => exact (List.cons_head?_tail hm).symm
        case isFalse hm => rfl
      have hparts : unsigned = unsigned.takeWhile (· ≠ '.') ++ unsigned.dropWhile (· ≠ '.') :=
        List.takeWhile_append_dropWhile.symm
      refine ⟨decide (text.toList.head? = some '-'), _, _,
        ⟨hwd, hfd, fun hn => hw (.inl hn), fun hl hz => hw (.inr (.inr ⟨hl, hz⟩)),
          not_lt.mp fun hl => hw (.inr (.inl hl)), not_lt.mp fun hl => hf ⟨fun he => ?_, .inr hl⟩⟩, ?_, ?_⟩
      · rw [he] at hl
        cases hl
      · rw [write, ← hrest, List.append_assoc, ← hparts]
        simp only [decide_eq_true_eq]
        rw [← htext, String.ofList_toList]
      · rw [← hd, hn]
        simp only [decide_eq_true_eq]

end Text

section Padded

variable {cs : List Char} {n : Numeral}

structure Numeral.Valid (n : Numeral) : Prop where
  whole    : AllDigits n.whole
  fraction : AllDigits n.fraction
  nonempty : n.whole ≠ []

theorem readNumeral_valid (h : readNumeral cs = some n) : n.Valid := by
  rw [readNumeral] at h
  generalize (if decide (cs.head? = some '-') then cs.tail else cs) = unsigned at h
  split at h
  case isTrue  => cases h
  case isFalse hn =>
    split at h
    case h_1 rest _ =>
      simp only [] at h
      split at h
      case isTrue  => cases h
      case isFalse =>
        have ⟨e, _, he⟩ := Option.map_eq_some_iff.mp h
        rw [← he]
        exact ⟨forall_mem_takeWhile _ _, forall_mem_takeWhile _ _, hn⟩
    case h_2 rest _ =>
      have ⟨e, _, he⟩ := Option.map_eq_some_iff.mp h
      rw [← he]
      exact ⟨forall_mem_takeWhile _ _, fun _ hc => by simp at hc, hn⟩

theorem div_ten_pow (x : ℚ) {k : ℕ} {z : ℤ} (h : z = -k) : x / 10 ^ k = x * 10 ^ z := by
  rw [h, zpow_neg, zpow_natCast, div_eq_mul_inv]

structure Padded (n : Numeral) (digits : List Char) (point : ℕ) : Prop where
  all   : AllDigits digits
  pos   : 0 < point
  le    : point ≤ digits.length
  value : (Digits.value digits : ℚ) / 10 ^ (digits.length - point) =
    Digits.value (n.whole ++ n.fraction) * 10 ^ (n.exponent - n.fraction.length)

-- The zeros do not change the number: they stand before the digits or make up for the exponent.
theorem padded_spec (h : n.Valid) : Padded n n.padded.1 n.padded.2 := by
  have hd : AllDigits (n.whole ++ n.fraction) := h.whole.append h.fraction
  have hl : (n.whole ++ n.fraction).length = n.whole.length + n.fraction.length := List.length_append
  rw [Numeral.padded]
  split
  case isTrue hp =>
    refine ⟨(allDigits_zeros _).append hd, Nat.one_pos, ?_, ?_⟩
    · rw [List.length_append, List.length_replicate]
      omega
    · have he : n.exponent - n.fraction.length = -((1 - (n.whole.length + n.exponent)).toNat +
          (n.whole.length + n.fraction.length) - 1 : ℕ) := by omega
      rw [value_zeros_append, List.length_append, List.length_replicate, hl, div_ten_pow _ he]
  case isFalse hp =>
    split
    case isTrue hs =>
      refine ⟨hd.append (allDigits_zeros _), by simp only []; omega, ?_, ?_⟩
      · simp only [List.length_append, List.length_replicate] at hs ⊢
        omega
      · simp only []
        have hlen : (n.whole ++ n.fraction).length +
            (n.whole.length + n.exponent - (n.whole ++ n.fraction).length).toNat =
            (n.whole.length + n.exponent).toNat := by omega
        have he : n.exponent - n.fraction.length =
            ((n.whole.length + n.exponent - (n.whole ++ n.fraction).length).toNat : ℤ) := by omega
        rw [value_append_zeros, @List.length_append _ (n.whole ++ n.fraction), List.length_replicate, hlen, Nat.sub_self, pow_zero, div_one,
          he, zpow_natCast, Nat.cast_mul, Nat.cast_pow, Nat.cast_ofNat, mul_comm]
    case isFalse hs =>
      have he : n.exponent - n.fraction.length =
          -((n.whole ++ n.fraction).length - (n.whole.length + n.exponent).toNat : ℕ) := by omega
      exact ⟨hd, by simp only []; omega, by simp only []; omega, div_ten_pow _ he⟩

namespace Numeral

theorem pointed_eq (h : n.Valid) : pointed n.integer n.decimals =
    Digits.value (n.whole ++ n.fraction) * 10 ^ (n.exponent - n.fraction.length) := by
  rw [integer, decimals, pointed_stripLeading, pointed_stripTrailing, pointed_take_drop, (padded_spec h).value]

theorem integer_digits (h : n.Valid) : AllDigits n.integer := ((padded_spec h).all.take _).stripLeading

theorem decimals_digits (h : n.Valid) : AllDigits n.decimals := ((padded_spec h).all.drop _).stripTrailing

theorem integer_ne_nil (h : n.Valid) : n.integer ≠ [] := by
  apply stripLeading_ne_nil
  have hp := (padded_spec h).pos
  have hl := (padded_spec h).le
  rw [← List.length_pos_iff, List.length_take]
  omega

theorem any_nonzero {cs : List Char} (h : AllDigits cs) :
    (cs.any fun c => '1' ≤ c ∧ c ≤ '9') = true ↔ Digits.value cs ≠ 0 := by
  have hc (c : Char) (hc : c.isDigit = true) : decide ('1' ≤ c ∧ c ≤ '9') = true ↔ c ≠ '0' := by
    have ⟨h₁, h₂⟩ := isDigit_iff.mp hc
    have hle : '1' ≤ c ∧ c ≤ '9' ↔ 49 ≤ c.toNat ∧ c.toNat ≤ 57 := .rfl
    rw [decide_eq_true_iff, hle]
    constructor
    · rintro h rfl
      exact absurd h.1 (by decide)
    · intro hne
      have : c.toNat ≠ 48 := fun he => hne (eq_of_toNat he)
      omega
  rw [ne_eq, value_eq_zero_iff h, List.any_eq_true]
  push Not
  exact exists_congr fun c => and_congr_right fun hm => hc c (h c hm)

theorem signed_iff (h : n.Valid) : n.signed = true ↔ n.negative = true ∧ pointed n.integer n.decimals ≠ 0 := by
  rw [signed, Bool.and_eq_true, any_nonzero ((integer_digits h).append (decimals_digits h)), ne_eq, ne_eq,
    pointed_eq_zero_iff]

theorem written_eq (h : n.Valid) : written n.signed n.integer n.decimals = n.value := by
  have hs := signed_iff h
  rw [value, mul_assoc, ← pointed_eq h, written]
  by_cases hz : pointed n.integer n.decimals = 0
  · rw [hz, mul_zero, mul_zero]
  · rw [and_iff_left hz] at hs
    rw [Bool.eq_iff_iff.mpr hs]

end Numeral

end Padded

def toRat (d : Decimal) : ℚ := d.coefficient / 10 ^ d.scale

section Exact

variable {raw out a b : String} {n : Numeral} {q r : ℚ} {x y : Decimal} {s : Bool} {ws fs : List Char} {m : ℕ}

theorem abs_written (s : Bool) (ws fs : List Char) : |written s ws fs| = pointed ws fs := by
  rw [written]
  cases s
  case false => rw [if_neg (by simp), one_mul, abs_of_nonneg (pointed_nonneg ws fs)]
  case true  => rw [if_pos rfl, neg_one_mul, abs_neg, abs_of_nonneg (pointed_nonneg ws fs)]

theorem toRat_written (s : Bool) (ws fs : List Char) :
    toRat ⟨if s then -(Digits.value (ws ++ fs) : ℤ) else Digits.value (ws ++ fs), fs.length⟩ = written s ws fs := by
  rw [toRat, written, pointed]
  cases s
  case false => simp
  case true  => simp [neg_div]

-- The sign does not matter for what can be written.
theorem representable_written (hw : AllDigits ws) (hf : AllDigits fs) (hn : ws ≠ []) (hl : NoLeadingZero ws)
    (ht : NoTrailingZero fs) : Representable (written s ws fs) ↔ fs.length ≤ 18 ∧ ws.length ≤ 36 := by
  have hi : |written s ws fs| < 10 ^ 36 ↔ ws.length ≤ 36 := by
    rw [abs_written, whole_length_le_iff hw hf hn hl (by decide)]
  have hd : (∃ m : ℤ, written s ws fs * 10 ^ 18 = m) ↔ fs.length ≤ 18 := by
    rw [fraction_length_le_iff hw hf ht, written]
    have hp : 0 ≤ pointed ws fs * 10 ^ 18 := mul_nonneg (pointed_nonneg ws fs) (ten_pow_pos 18).le
    constructor
    · intro ⟨m, hm⟩
      refine ⟨m.natAbs, ?_⟩
      rw [Nat.cast_natAbs, Int.cast_abs, ← hm, mul_assoc, abs_mul, abs_of_nonneg hp]
      cases s
      case false => simp
      case true  => simp
    · intro ⟨m, hm⟩
      refine ⟨(if s then -1 else 1) * m, ?_⟩
      rw [mul_assoc, hm]
      cases s
      case false => simp
      case true  => simp
  rw [← hi, ← hd]
  exact ⟨fun h => ⟨h.decimals, h.integer⟩, fun h => ⟨h.1, h.2⟩⟩

theorem Writes.representable (h : Writes out q) : Representable q := by
  have ⟨_, _, _, hc, _, hq⟩ := h
  rw [← hq, representable_written hc.whole_digits hc.fraction_digits hc.nonempty hc.leading hc.trailing]
  exact ⟨hc.fraction_length, hc.whole_length⟩

theorem Writes.decimal (h : Writes out q) : ∃ d, Settlement.decimal out = some d ∧ toRat d = q := by
  have ⟨_, _, _, hc, ho, hq⟩ := h
  exact ⟨_, ho ▸ decimal_write hc.toPlain, (toRat_written ..).trans hq⟩

theorem Writes.unique_value (h : Writes out q) (h' : Writes out r) : q = r := by
  have ⟨_, hd, hq⟩ := h.decimal
  have ⟨_, hd', hr⟩ := h'.decimal
  cases hd.symm.trans hd'
  exact hq.symm.trans hr

theorem Writes.unique (h : Writes a q) (h' : Writes b q) : a = b := by
  have ⟨s, ws, fs, hc, ha, hq⟩ := h
  have ⟨s', ws', fs', hc', hb, hq'⟩ := h'
  have hp : pointed ws fs = pointed ws' fs' := by rw [← abs_written s, ← abs_written s', hq, hq']
  have ⟨hw, hf⟩ := pointed_inj hc.whole_digits hc.fraction_digits hc.nonempty hc.leading hc.trailing
    hc'.whole_digits hc'.fraction_digits hc'.nonempty hc'.leading hc'.trailing hp
  subst hw hf
  have hs : s = s' := by
    rw [← hq', written, written] at hq
    have h₁ := hc.sign
    have h₂ := hc'.sign
    cases s <;> cases s'
    case false.false | true.true => rfl
    case false.true              => exact (h₂ rfl (by simp at hq; linarith)).elim
    case true.false              => exact (h₁ rfl (by simp at hq; linarith)).elim
  rw [ha, hb, hs]

theorem canonical_of_valid (h : n.Valid) (hd : n.decimals.length ≤ 18) (hi : n.integer.length ≤ 36) :
    Canonical n.signed n.integer n.decimals where
  whole_digits    := n.integer_digits h
  fraction_digits := n.decimals_digits h
  nonempty        := n.integer_ne_nil h
  leading         := noLeadingZero_stripLeading _
  whole_length    := hi
  fraction_length := hd
  trailing        := noTrailingZero_stripTrailing _
  sign hs         := ((n.signed_iff h).mp hs).2

theorem representable_iff (h : n.Valid) :
    Representable n.value ↔ n.decimals.length ≤ 18 ∧ n.integer.length ≤ 36 := by
  rw [← n.written_eq h]
  exact representable_written (n.integer_digits h) (n.decimals_digits h) (n.integer_ne_nil h)
    (noLeadingZero_stripLeading _) (noTrailingZero_stripTrailing _)

theorem exists_exactDecimal_iff (h : readNumeral (trim raw.toList) = some n) :
    (∃ out, exactDecimal raw = .ok out ∧ Writes out n.value) ↔ n.exponent.natAbs ≤ 60 ∧ Representable n.value := by
  have hv := readNumeral_valid h
  constructor
  · intro ⟨out, ho, hw⟩
    refine ⟨?_, hw.representable⟩
    rw [exactDecimal, h] at ho
    by_contra he
    simp only [] at ho
    rw [if_pos (not_le.mp he)] at ho
    cases ho
  · intro ⟨he, hr⟩
    have ⟨hd, hi⟩ := (representable_iff hv).mp hr
    have hc := canonical_of_valid hv hd hi
    refine ⟨String.ofList (write n.signed n.integer n.decimals), ?_, _, _, _, hc, rfl, n.written_eq hv⟩
    rw [exactDecimal, h]
    simp only []
    rw [if_neg he.not_gt, if_neg (by omega), decimal_write hc.toPlain]

-- What is returned is the canonical decimal of the same number.
theorem exactDecimal_eq_ok_iff (h : readNumeral (trim raw.toList) = some n) :
    exactDecimal raw = .ok out ↔ n.exponent.natAbs ≤ 60 ∧ Writes out n.value := by
  have hv := readNumeral_valid h
  constructor
  · intro ho
    have hok := ho
    rw [exactDecimal, h] at ho
    simp only [] at ho
    split at ho
    case isTrue  => cases ho
    case isFalse he =>
      split at ho
      case isTrue  => cases ho
      case isFalse hl =>
        have hr : Representable n.value := (representable_iff hv).mpr (by omega)
        have ⟨_, ho', hw⟩ := (exists_exactDecimal_iff h).mpr ⟨not_lt.mp he, hr⟩
        cases hok.symm.trans ho'
        exact ⟨not_lt.mp he, hw⟩
  · intro ⟨he, hw⟩
    have ⟨_, ho, hw'⟩ := (exists_exactDecimal_iff h).mpr ⟨he, hw.representable⟩
    rw [ho, hw'.unique hw]

theorem exactDecimal_of_write {suffix : List Char} {e : ℤ} (hw : AllDigits ws) (hf : AllDigits fs) (hn : ws ≠ [])
    (hs : ∀ c ∈ suffix.head?, c.isDigit = false ∧ c ≠ '.') (hc : ∀ c ∈ suffix, isSpace c = false)
    (he : readExponent suffix = some e) :
    exactDecimal (String.ofList (write s ws fs ++ suffix)) = .ok out ↔
      e.natAbs ≤ 60 ∧ Writes out (written s ws fs * 10 ^ e) := by
  have hdigit (c : Char) (hc : c.isDigit = true) : isSpace c = false := by
    have := isDigit_iff.mp hc
    exact isSpace_eq_false (by omega) (by omega)
  have hspace : ∀ c ∈ write s ws fs ++ suffix, isSpace c = false := by
    intro c hm
    simp only [write, afterPoint, List.mem_append] at hm
    rcases hm with ((hm | hm) | hm) | hm
    · split at hm
      · rw [List.mem_singleton.mp hm]; rfl
      · cases hm
    · exact hdigit c (hw c hm)
    · split at hm
      · cases hm
      · cases hm
        case head   => rfl
        case tail h => exact hdigit c (hf c h)
    · exact hc c hm
  have hr : readNumeral (trim (String.ofList (write s ws fs ++ suffix)).toList) = some ⟨s, ws, fs, e⟩ := by
    rw [String.toList_ofList, trim_eq_self hspace, readNumeral_write hw hf hn hs, he]
    rfl
  have hq : Numeral.value ⟨s, ws, fs, e⟩ = written s ws fs * 10 ^ e := by
    rw [Numeral.value, written, pointed, sub_eq_add_neg, zpow_add₀ (by norm_num), zpow_neg, zpow_natCast]
    ring
  rw [exactDecimal_eq_ok_iff hr, hq]

theorem exactDecimal_of_write_nil (hw : AllDigits ws) (hf : AllDigits fs) (hn : ws ≠ []) :
    exactDecimal (String.ofList (write s ws fs)) = .ok out ↔ Writes out (written s ws fs) := by
  have h := @exactDecimal_of_write out s _ _ [] _ hw hf hn (by simp) (by simp) rfl
  rw [List.append_nil, zpow_zero, mul_one] at h
  rw [h]
  exact and_iff_right (by decide)

theorem Writes.exactDecimal (h : Writes out q) : exactDecimal out = .ok out := by
  have ⟨s, ws, fs, hc, ho, hq⟩ := id h
  rw [ho, exactDecimal_of_write_nil hc.whole_digits hc.fraction_digits hc.nonempty, hq, ← ho]
  exact h

theorem exactDecimal_idempotent (h : Readers.exactDecimal raw = .ok out) : Readers.exactDecimal out = .ok out := by
  cases hn : readNumeral (trim raw.toList)
  case none   =>
    rw [Readers.exactDecimal, hn] at h
    cases h
  case some n => exact ((exactDecimal_eq_ok_iff hn).mp h).2.exactDecimal

theorem readExponent_minus (p : ℕ) : readExponent ('e' :: '-' :: Nat.toDigits 10 p) = some (-(p : ℤ)) := by
  rw [readExponent, readSigned, readDigits, if_neg Nat.toDigits_ne_nil, digits?_eq (allDigits_toDigits p),
    Digits.value, Nat.ofDigitChars_ten_toDigits]
  rfl

theorem scaled_eq_ok_iff {p : ℕ} (h : Settlement.decimal a = some x) (hp : p ≠ 0) :
    scaled a p = .ok out ↔ p ≤ 60 ∧ Writes out (toRat x / 10 ^ p) := by
  have ⟨s, ws, fs, hc, ha, hx⟩ := decimal_eq_some h
  have hspace : ∀ c ∈ 'e' :: '-' :: Nat.toDigits 10 p, isSpace c = false := by
    intro c hm
    cases hm
    case head    => rfl
    case tail hm =>
      cases hm
      case head    => rfl
      case tail hm =>
        have := isDigit_iff.mp (allDigits_toDigits p c hm)
        exact isSpace_eq_false (by omega) (by omega)
  rw [scaled, if_neg hp, ha, String.toList_ofList, exactDecimal_of_write hc.whole_digits hc.fraction_digits
    hc.nonempty (by simp) hspace (readExponent_minus p), hx, toRat_written, zpow_neg, zpow_natCast,
    ← div_eq_mul_inv, Int.natAbs_neg, Int.natAbs_natCast]

theorem fromUnits_eq_ok_iff (c : ℤ) (p : ℕ) : fromUnits c p = .ok out ↔ Writes out (c / 10 ^ p) := by
  have hdig : AllDigits (padStart (p + 1) (Nat.toDigits 10 c.natAbs)) :=
    (allDigits_zeros _).append (allDigits_toDigits _)
  have hlen : p < (padStart (p + 1) (Nat.toDigits 10 c.natAbs)).length := by
    rw [padStart, List.length_append, List.length_replicate]
    omega
  have hval : Digits.value (padStart (p + 1) (Nat.toDigits 10 c.natAbs)) = c.natAbs := by
    rw [padStart, value_zeros_append, Digits.value, Nat.ofDigitChars_ten_toDigits]
  generalize hds : padStart (p + 1) (Nat.toDigits 10 c.natAbs) = ds at hdig hlen hval
  have hne : ds.take (ds.length - p) ≠ [] := by
    rw [← List.length_pos_iff, List.length_take]
    omega
  have hpoint : (if p = 0 then [] else '.' :: ds.drop (ds.length - p)) = afterPoint (ds.drop (ds.length - p)) := by
    have hz : p = 0 ↔ ds.drop (ds.length - p) = [] := by
      rw [← List.length_eq_zero_iff, List.length_drop]
      omega
    rw [afterPoint]
    simp only [hz]
  have hq : written (decide (c < 0)) (ds.take (ds.length - p)) (ds.drop (ds.length - p)) = c / 10 ^ p := by
    rw [written, pointed_take_drop, hval, Nat.sub_sub_self hlen.le, Nat.cast_natAbs, Int.cast_abs]
    by_cases hc : c < 0
    · rw [if_pos (decide_eq_true hc), abs_of_neg (by exact_mod_cast hc), neg_one_mul, neg_div, neg_neg]
    · rw [if_neg (by simp [hc]), abs_of_nonneg (by exact_mod_cast not_lt.mp hc), one_mul]
  have htext : (if c < 0 then ['-'] else []) ++ ds.take (ds.length - p) ++
      (if p = 0 then [] else '.' :: ds.drop (ds.length - p)) =
      write (decide (c < 0)) (ds.take (ds.length - p)) (ds.drop (ds.length - p)) := by
    rw [hpoint, write]
    simp only [decide_eq_true_eq]
  rw [fromUnits, hds, htext, exactDecimal_of_write_nil (hdig.take _) (hdig.drop _) hne, hq]

theorem decimalOf_eq_ok_iff : decimalOf a = .ok x ↔ Settlement.decimal a = some x := by
  rw [decimalOf]
  split
  case h_1 h   => simp [h]
  case h_2 d h => simp [h]

-- Both coefficients at the larger scale.
theorem toRat_eq (h : x.scale ≤ m) : toRat x = (x.coefficient * 10 ^ (m - x.scale) : ℤ) / 10 ^ m := by
  rw [toRat, div_eq_div_iff (ten_pow_ne _) (ten_pow_ne _), Int.cast_mul, Int.cast_pow, Int.cast_ofNat, mul_assoc,
    ← pow_add, Nat.sub_add_cancel h]

theorem addDecimal_eq_ok_iff (ha : Settlement.decimal a = some x) (hb : Settlement.decimal b = some y) :
    addDecimal a b = .ok out ↔ Writes out (toRat x + toRat y) := by
  rw [addDecimal, decimalOf_eq_ok_iff.mpr ha, decimalOf_eq_ok_iff.mpr hb, Except.ok_bind, Except.ok_bind,
    fromUnits_eq_ok_iff, toRat_eq (le_max_left x.scale y.scale), toRat_eq (le_max_right x.scale y.scale),
    ← add_div, Int.cast_add]

theorem compare_eq (x y : Decimal) : x.compare y = compare (toRat x) (toRat y) := by
  rw [Decimal.compare, toRat_eq (le_max_left x.scale y.scale), toRat_eq (le_max_right x.scale y.scale),
    ← cmp_eq_compare, ← cmp_eq_compare]
  have hmono : StrictMono fun z : ℤ => (z : ℚ) / 10 ^ max x.scale y.scale := fun z z' hz =>
    div_lt_div_of_pos_right (by exact_mod_cast hz) (ten_pow_pos _)
  exact (hmono.cmp_map_eq _ _).symm

theorem compareDecimal_eq (ha : Settlement.decimal a = some x) (hb : Settlement.decimal b = some y) :
    compareDecimal a b = .ok (compare (toRat x) (toRat y)) := by
  rw [compareDecimal, decimalOf_eq_ok_iff.mpr ha, decimalOf_eq_ok_iff.mpr hb, ← compare_eq]
  rfl

end Exact

end Readers
