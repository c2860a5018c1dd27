import Flurbo.Library.Notation
import Flurbo.Library.Spread
import Flurbo.Server.Readers.JsonApi
import Flurbo.Server.Readers.JsonStrict

-- Decimals are exact, and so is what is computed from the items of a list.

namespace Readers

open Settlement Digits

section Texts

open Notation

variable {cs before after : List Char} {raw : String} {e : ℤ} {q : ℚ} {n : Numeral}

theorem readDigits_eq_some {m : ℕ} : readDigits cs = some m ↔ AllDigits cs ∧ cs ≠ [] ∧ m = Digits.value cs := by
  rw [readDigits]
  split
  case isTrue hn  => simp [hn]
  case isFalse hn =>
    constructor
    · intro h
      obtain ⟨hd, hm⟩ := digits?_eq_some h
      exact ⟨hd, hn, hm⟩
    · rintro ⟨hd, _, rfl⟩
      exact digits?_eq hd

theorem readSigned_iff : readSigned cs = some e ↔ Signed cs e := by
  constructor
  · intro h
    rw [readSigned.eq_def] at h
    split at h
    all_goals
      simp only [Option.map_eq_some_iff, Option.bind_eq_bind, Option.bind_eq_some_iff, Option.pure_def,
        Option.some.injEq] at h
      obtain ⟨_, ⟨m, hm, rfl⟩, rfl⟩ := h
      obtain ⟨hd, hn, rfl⟩ := readDigits_eq_some.mp hm
    · exact .minus hd hn
    · exact .plus hd hn
    · exact .plain hd hn
  · intro h
    cases h
    case plus hd hn  => rw [readSigned, readDigits_eq_some.mpr ⟨hd, hn, rfl⟩]; rfl
    case minus hd hn => rw [readSigned, readDigits_eq_some.mpr ⟨hd, hn, rfl⟩]; rfl
    case plain hd hn =>
      have hr : readSigned cs = (readDigits cs).map fun n => (n : ℤ) := by
        rw [readSigned.eq_def]
        split
        · exact absurd (hd '-' List.mem_cons_self) (by decide)
        · exact absurd (hd '+' List.mem_cons_self) (by decide)
        · rfl
      rw [hr, readDigits_eq_some.mpr ⟨hd, hn, rfl⟩]
      rfl

theorem readExponent_iff : readExponent cs = some e ↔ Exponent cs e := by
  constructor
  · intro h
    rw [readExponent.eq_def] at h
    split at h
    · cases h
      exact .none
    · exact .letter (.inl rfl) (readSigned_iff.mp h)
    · exact .letter (.inr rfl) (readSigned_iff.mp h)
    · cases h
  · intro h
    cases h
    case none        => rfl
    case letter hc h =>
      rcases hc with rfl | rfl
      · exact readSigned_iff.mpr h
      · exact readSigned_iff.mpr h

-- The parts of a number's text, the digits after the point without it.
theorem magnitude_iff {t : List Char} : Magnitude t e q ↔ ∃ ws ds es, AllDigits ws ∧ ws ≠ [] ∧ AllDigits ds ∧
    Exponent es e ∧ t = ws ++ afterPoint ds ++ es ∧ q = pointed ws ds * 10 ^ e := by
  constructor
  · rintro ⟨hw, hn, hf, he⟩
    cases hf
    case none         => exact ⟨_, [], _, hw, hn, nofun, he, rfl, by rw [add_zero, pointed_nil]⟩
    case digits hd hn' =>
      exact ⟨_, _, _, hw, hn, hd, he, by rw [afterPoint, if_neg hn'], by rw [pointed_eq]⟩
  · rintro ⟨ws, ds, es, hw, hn, hd, he, rfl, rfl⟩
    rw [pointed_eq]
    refine .mk hw hn ?_ he
    by_cases hd' : ds = []
    · subst hd'
      simpa [afterPoint] using Fraction.none
    · rw [afterPoint, if_neg hd']
      exact .digits hd hd'

theorem numeral_value (b : Bool) (ws ds : List Char) (e : ℤ) :
    Numeral.value ⟨b, ws, ds, e⟩ = (if b then -1 else 1) * (pointed ws ds * 10 ^ e) := by
  rw [Numeral.value, pointed, sub_eq_add_neg, zpow_add₀ (by norm_num), zpow_neg, zpow_natCast]
  ring

theorem readNumeral_magnitude (b : Bool) {t : List Char} (h : Magnitude t e q) :
    ∃ n, readNumeral ((if b then ['-'] else []) ++ t) = some n ∧ n.exponent = e ∧
      n.value = (if b then -1 else 1) * q := by
  obtain ⟨ws, ds, es, hw, hn, hd, he, rfl, rfl⟩ := magnitude_iff.mp h
  refine ⟨⟨b, ws, ds, e⟩, ?_, rfl, numeral_value b ws ds e⟩
  rw [← List.append_assoc, ← List.append_assoc]
  change readNumeral (write b ws ds ++ es) = _
  rw [readNumeral_write hw hd hn he.head, readExponent_iff.mpr he]
  rfl

-- The text of every number is read, with the exponent and the value that it has.
theorem exists_readNumeral (h : Denotes cs e q) :
    ∃ n, readNumeral cs = some n ∧ n.exponent = e ∧ n.value = q := by
  cases h
  case positive h =>
    obtain ⟨n, hr, he, hv⟩ := readNumeral_magnitude false h
    exact ⟨n, hr, he, by simpa using hv⟩
  case negative h =>
    obtain ⟨n, hr, he, hv⟩ := readNumeral_magnitude true h
    exact ⟨n, hr, he, by simpa using hv⟩

-- What is read without its sign.
theorem readNumeral_unsigned (h : readNumeral cs = some n) :
    ∃ q, Magnitude (if cs.head? = some '-' then cs.tail else cs) n.exponent q ∧
      n.value = (if cs.head? = some '-' then -1 else 1) * q := by
  rw [readNumeral] at h
  simp only [decide_eq_true_eq] at h
  generalize (if cs.head? = some '-' then cs.tail else cs) = unsigned at h ⊢
  have hw : AllDigits (unsigned.takeWhile (·.isDigit)) := forall_mem_takeWhile _ _
  have hparts := List.takeWhile_append_dropWhile (p := (·.isDigit)) (l := unsigned)
  generalize unsigned.takeWhile (·.isDigit) = ws at h hw hparts
  split at h
  case isTrue     => cases h
  case isFalse hn =>
    split at h
    case h_1 rest hrest =>
      have hd : AllDigits (rest.takeWhile (·.isDigit)) := forall_mem_takeWhile _ _
      have hparts' := List.takeWhile_append_dropWhile (p := (·.isDigit)) (l := rest)
      generalize rest.takeWhile (·.isDigit) = ds at h hd hparts'
      split at h
      case isTrue      => cases h
      case isFalse hn' =>
        obtain ⟨e, he, rfl⟩ := Option.map_eq_some_iff.mp h
        refine ⟨_, magnitude_iff.mpr ⟨ws, ds, _, hw, hn, hd, readExponent_iff.mp he, ?_, rfl⟩, ?_⟩
        · rw [← hparts, hrest, afterPoint, if_neg hn', List.append_assoc, List.cons_append, hparts']
        · simpa using numeral_value (decide (cs.head? = some '-')) ws ds e
    case h_2 =>
      obtain ⟨e, he, rfl⟩ := Option.map_eq_some_iff.mp h
      refine ⟨_, magnitude_iff.mpr ⟨ws, [], _, hw, hn, List.forall_mem_nil _, readExponent_iff.mp he, ?_, rfl⟩, ?_⟩
      · rw [afterPoint, if_pos rfl, List.append_nil, hparts]
      · simpa using numeral_value (decide (cs.head? = some '-')) ws [] e

-- What is read is the text of a number.
theorem readNumeral_denotes (h : readNumeral cs = some n) : Denotes cs n.exponent n.value := by
  obtain ⟨q, hm, hv⟩ := readNumeral_unsigned h
  rw [hv]
  by_cases hneg : cs.head? = some '-'
  · rw [if_pos hneg] at hm ⊢
    rw [neg_one_mul, ← List.cons_head?_tail hneg]
    exact .negative hm
  · rw [if_neg hneg] at hm ⊢
    rw [one_mul]
    exact .positive hm

theorem exists_trim (cs : List Char) : ∃ before after, cs = before ++ trim cs ++ after ∧
    (∀ c ∈ before, isSpace c = true) ∧ ∀ c ∈ after, isSpace c = true := by
  refine ⟨cs.takeWhile isSpace, ((cs.dropWhile isSpace).reverse.takeWhile isSpace).reverse, ?_,
    forall_mem_takeWhile _ _, fun c hc => forall_mem_takeWhile _ _ c (List.mem_reverse.mp hc)⟩
  rw [trim, List.append_assoc, ← List.reverse_append, List.takeWhile_append_dropWhile, List.reverse_reverse,
    List.takeWhile_append_dropWhile]

theorem trim_eq (hb : ∀ c ∈ before, isSpace c = true) (ha : ∀ c ∈ after, isSpace c = true)
    (hs : ∀ c ∈ cs, isSpace c = false) (hn : cs ≠ []) : trim (before ++ cs ++ after) = cs := by
  have hhead : ∀ c ∈ (cs ++ after).head?, isSpace c = false := by
    intro c hc
    rw [List.head?_append_of_ne_nil _ hn] at hc
    exact hs c (List.mem_of_mem_head? hc)
  have hlast : ∀ c ∈ cs.reverse.head?, isSpace c = false := fun c hc =>
    hs c (List.mem_reverse.mp (List.mem_of_mem_head? hc))
  rw [trim, List.append_assoc, dropWhile_span hb hhead, List.reverse_append,
    dropWhile_span (fun c hc => ha c (List.mem_reverse.mp hc)) hlast, List.reverse_reverse]

theorem Denotes.no_space (h : Denotes cs e q) : ∀ c ∈ cs, isSpace c = false := by
  intro c hc
  rcases h.chars hc with hd | hs
  · have := isDigit_iff.mp hd
    exact isSpace_eq_false (by omega) (by omega)
  · revert hs
    simp only [symbols, List.mem_cons, List.not_mem_nil, or_false]
    rintro (rfl | rfl | rfl | rfl | rfl)
    all_goals rfl

-- A text that stands for a number, with white space around it that does not matter.
def Reads (raw : String) (e : ℤ) (q : ℚ) : Prop :=
  ∃ before cs after, raw.toList = before ++ cs ++ after ∧ (∀ c ∈ before, isSpace c = true) ∧
    (∀ c ∈ after, isSpace c = true) ∧ Denotes cs e q

theorem reads_iff : Reads raw e q ↔ ∃ n, readNumeral (trim raw.toList) = some n ∧ n.exponent = e ∧ n.value = q := by
  constructor
  · rintro ⟨before, cs, after, hr, hb, ha, hd⟩
    rw [hr, trim_eq hb ha (Denotes.no_space hd) hd.ne_nil]
    exact exists_readNumeral hd
  · rintro ⟨n, hn, rfl, rfl⟩
    obtain ⟨before, after, hr, hb, ha⟩ := exists_trim raw.toList
    exact ⟨before, _, after, hr, hb, ha, readNumeral_denotes hn⟩

theorem exactDecimal_of_reads {out : String} (h : Reads raw e q) :
    exactDecimal raw = .ok out ↔ e.natAbs ≤ 60 ∧ Writes out q := by
  obtain ⟨n, hn, rfl, rfl⟩ := reads_iff.mp h
  exact exactDecimal_eq_ok_iff hn

theorem reads_of_exactDecimal {out : String} (h : exactDecimal raw = .ok out) : ∃ e q, Reads raw e q := by
  cases hn : readNumeral (trim raw.toList)
  case none   =>
    rw [exactDecimal, hn] at h
    cases h
  case some n => exact ⟨_, _, reads_iff.mpr ⟨n, hn, rfl, rfl⟩⟩

-- What `decimal` accepts stands for the number that it returns.
theorem reads_of_decimal {text : String} {d : Decimal} (h : decimal text = some d) : Reads text 0 (toRat d) := by
  obtain ⟨b, ws, fs, hp, rfl, rfl⟩ := decimal_eq_some h
  have hm : Magnitude (ws ++ afterPoint fs) 0 (pointed ws fs) := magnitude_iff.mpr
    ⟨ws, fs, [], hp.whole_digits, hp.nonempty, hp.fraction_digits, .none, (List.append_nil _).symm, by simp⟩
  refine ⟨[], write b ws fs, [], by simp, nofun, nofun, ?_⟩
  rw [toRat_written, written, write, List.append_assoc]
  cases b
  case false => simpa using Denotes.positive hm
  case true  => simpa using Denotes.negative hm

theorem Writes.reads {out : String} (h : Writes out q) : Reads out 0 q := by
  obtain ⟨d, hd, rfl⟩ := h.decimal
  exact reads_of_decimal hd

end Texts

section Sums

variable {q : ℚ} {t out : String} {qs : List ℚ} {ts : List String}

theorem exists_writes (h : Representable q) : ∃ t, Writes t q := by
  obtain ⟨m, hm⟩ := h.decimals
  let n : Numeral := ⟨decide (m < 0), Nat.toDigits 10 m.natAbs, [], -18⟩
  have hv : n.Valid := ⟨allDigits_toDigits _, fun _ hc => (by cases hc), Nat.toDigits_ne_nil⟩
  have hq : n.value = q := by
    have hp : (10 : ℚ) ^ (-18 - ((0 : ℕ) : ℤ)) = (10 ^ 18)⁻¹ := by norm_num
    simp only [n, Numeral.value, List.append_nil, List.length_nil, hp, Digits.value,
      Nat.ofDigitChars_ten_toDigits, Nat.cast_natAbs, Int.cast_abs]
    rw [← div_eq_mul_inv, div_eq_iff (ten_pow_ne 18), hm]
    by_cases hneg : m < 0
    · rw [if_pos (by simpa using hneg), abs_of_neg (by exact_mod_cast hneg), neg_one_mul, neg_neg]
    · rw [if_neg (by simpa using hneg), abs_of_nonneg (by exact_mod_cast not_lt.mp hneg), one_mul]
  obtain ⟨hd, hi⟩ := (representable_iff hv).mp (hq ▸ h)
  exact ⟨_, _, _, _, canonical_of_valid hv hd hi, rfl, (n.written_eq hv).trans hq⟩

theorem writes_natCast {n : ℕ} (h : n < 10 ^ 36) : Writes (String.ofList (Nat.toDigits 10 n)) n := by
  refine ⟨false, Nat.toDigits 10 n, [], ?_, ?_, ?_⟩
  · exact {
      whole_digits    := allDigits_toDigits n
      fraction_digits := fun _ hc => by cases hc
      nonempty        := Nat.toDigits_ne_nil
      leading         := noLeadingZero_toDigits n
      whole_length    := (Nat.length_toDigits_le_iff (by decide) (by decide)).mpr h
      fraction_length := Nat.zero_le 18
      trailing        := by simp [NoTrailingZero]
      sign            := fun h => nomatch h }
  · rw [write, if_neg Bool.false_ne_true, afterPoint, if_pos rfl, List.nil_append, List.append_nil]
  · rw [written, if_neg Bool.false_ne_true, one_mul, pointed_nil, Digits.value, Nat.ofDigitChars_ten_toDigits]

theorem representable_zero : Representable 0 := ⟨⟨0, by norm_num⟩, by norm_num⟩

-- All the sums on the way can be written.
def PartialSums (qs : List ℚ) : Prop := ∀ ps, ps <+: qs → Representable ps.sum

theorem partialSums_cons {q : ℚ} : PartialSums (q :: qs) ↔ ∀ ps, ps <+: qs → Representable (q + ps.sum) := by
  constructor
  · intro h ps hp
    have := h (q :: ps) (List.cons_prefix_cons.mpr ⟨rfl, hp⟩)
    rwa [List.sum_cons] at this
  · intro h ps hp
    rcases List.prefix_cons_iff.mp hp with rfl | ⟨rest, rfl, hr⟩
    · exact representable_zero
    · rw [List.sum_cons]
      exact h rest hr

theorem foldlM_addDecimal (ht : Writes t q) (hts : List.Forall₂ Writes ts qs) :
    ts.foldlM addDecimal t = .ok out ↔ (∀ ps, ps <+: qs → Representable (q + ps.sum)) ∧ Writes out (q + qs.sum) := by
  induction hts generalizing t q
  case nil =>
    rw [List.foldlM_nil, List.sum_nil, add_zero, Except.pure_eq_ok, Except.ok.injEq]
    constructor
    · rintro rfl
      refine ⟨fun ps hp => ?_, ht⟩
      rw [List.prefix_nil.mp hp, List.sum_nil, add_zero]
      exact ht.representable
    · exact fun h => ht.unique h.2
  case cons t' q' ts qs ht' _ hi =>
    have ⟨x, hx, hq⟩ := ht.decimal
    have ⟨y, hy, hq'⟩ := ht'.decimal
    have hadd {s : String} : addDecimal t t' = .ok s ↔ Writes s (q + q') := by
      rw [addDecimal_eq_ok_iff hx hy, hq, hq']
    rw [List.foldlM_cons, Except.bind_eq_ok, List.sum_cons, ← add_assoc]
    constructor
    · intro ⟨s, hs, h⟩
      have hw := hadd.mp hs
      have ⟨hp, ho⟩ := (hi hw).mp h
      refine ⟨fun ps hps => ?_, ho⟩
      rcases List.prefix_cons_iff.mp hps with rfl | ⟨rest, rfl, hr⟩
      · rw [List.sum_nil, add_zero]
        exact ht.representable
      · rw [List.sum_cons, ← add_assoc]
        exact hp rest hr
    · intro ⟨hp, ho⟩
      have hr : Representable (q + q') := by
        have := hp [q'] (List.cons_prefix_cons.mpr ⟨rfl, List.nil_prefix⟩)
        rwa [List.sum_singleton] at this
      have ⟨s, hs⟩ := exists_writes hr
      refine ⟨s, hadd.mpr hs, (hi hs).mpr ⟨fun ps hps => ?_, ho⟩⟩
      have := hp (q' :: ps) (List.cons_prefix_cons.mpr ⟨rfl, hps⟩)
      rwa [List.sum_cons, ← add_assoc] at this

end Sums

namespace JsonApi

variable {a b out t : String} {x y q : ℚ} {qs : List ℚ} {ts : List String} {aggregate : Aggregate}

theorem choose_eq (largest : Bool) (ha : Writes a x) (hb : Writes b y) :
    ∃ s, choose largest a b = .ok s ∧ Writes s (if largest then max x y else min x y) := by
  have ⟨_, hd, hx⟩ := ha.decimal
  have ⟨_, hd', hy⟩ := hb.decimal
  have hlt : compare x y ≠ .lt ↔ y ≤ x := by rw [ne_eq, compare_lt_iff_lt, not_lt]
  rw [choose, compareDecimal_eq hd hd', hx, hy, Except.ok_bind]
  simp only [hlt]
  refine ⟨_, rfl, ?_⟩
  cases largest
  case true =>
    by_cases h : y ≤ x
    · simpa [h, max_eq_left h] using ha
    · simpa [h, max_eq_right (not_le.mp h).le] using hb
  case false =>
    by_cases h : y ≤ x
    · simpa [h, min_eq_right h] using hb
    · simpa [h, min_eq_left (not_le.mp h).le] using ha

theorem foldlM_choose (largest : Bool) (ht : Writes t q) (hts : List.Forall₂ Writes ts qs) :
    ∃ s, ts.foldlM (choose largest) t = .ok s ∧
      Writes s (qs.foldl (fun x y => if largest then max x y else min x y) q) := by
  induction hts generalizing t q
  case nil                       => exact ⟨t, rfl, ht⟩
  case cons t' q' ts qs ht' _ hi =>
    have ⟨s, hs, hw⟩ := choose_eq largest ht ht'
    have ⟨out, ho, hw'⟩ := hi hw
    exact ⟨out, by rw [List.foldlM_cons, hs, Except.ok_bind, ho], hw'⟩

-- What is computed from the numbers of a list.
def Total (aggregate : Aggregate) (qs : List ℚ) (q : ℚ) : Prop :=
  match aggregate with
  | .sum => PartialSums qs ∧ q = qs.sum
  | .max => IsGreatest { x | x ∈ qs } q
  | .min => IsLeast { x | x ∈ qs } q
  | _    => False

theorem foldl_ite {α : Type*} (b : Bool) (f g : α → α → α) (l : List α) (a : α) :
    l.foldl (fun x y => if b then f x y else g x y) a = if b then l.foldl f a else l.foldl g a := by
  cases b
  case false => rfl
  case true  => rfl

theorem total_eq_ok_iff (h : aggregate = .sum ∨ aggregate = .max ∨ aggregate = .min) (hts : List.Forall₂ Writes ts qs)
    (hn : ts ≠ []) : total aggregate ts = .ok out ↔ ∃ q, Total aggregate qs q ∧ Writes out q := by
  cases hts
  case nil => contradiction
  case cons t q ts qs ht hts =>
    have choose_iff (largest : Bool) : (ts.foldlM (choose largest) t = .ok out) ↔
        Writes out (if largest then qs.foldl max q else qs.foldl min q) := by
      have ⟨s, hs, hw⟩ := foldlM_choose largest ht hts
      rw [foldl_ite] at hw
      rw [hs, Except.ok.injEq]
      exact ⟨fun h => h ▸ hw, fun h => hw.unique h⟩
    rcases h with rfl | rfl | rfl
    · have hsum : total .sum (t :: ts) = ts.foldlM addDecimal t := rfl
      simp only [Total, hsum, partialSums_cons, foldlM_addDecimal ht hts, List.sum_cons]
      exact ⟨fun h => ⟨_, ⟨h.1, rfl⟩, h.2⟩, fun ⟨_, ⟨hp, hq⟩, hw⟩ => ⟨hp, hq ▸ hw⟩⟩
    · have hmax : total .max (t :: ts) = ts.foldlM (choose true) t := rfl
      have hg := foldl_max_isGreatest (l := qs) q
      rw [hmax, choose_iff, if_pos rfl]
      exact ⟨fun h => ⟨_, hg, h⟩, fun ⟨_, hq, h⟩ => hq.unique hg ▸ h⟩
    · have hmin : total .min (t :: ts) = ts.foldlM (choose false) t := rfl
      have hl := foldl_min_isLeast (l := qs) q
      rw [hmin, choose_iff, if_neg Bool.false_ne_true]
      exact ⟨fun h => ⟨_, hl, h⟩, fun ⟨_, hq, h⟩ => hq.unique hl ▸ h⟩

variable {timeValue : TimeFormat → Json Utf16 → Except Issue ℕ} {r : Config} {list list' : List (Json Utf16)}
variable {v : Extracted}

theorem scaled_writes {p : ℕ} (h : Writes t q) : scaled t p = .ok out ↔ p ≤ 60 ∧ Writes out (q / 10 ^ p) := by
  have ⟨_, hd, hq⟩ := h.decimal
  by_cases hp : p = 0
  · rw [hp, scaled, if_pos rfl, Except.ok.injEq, pow_zero, div_one, and_iff_right (Nat.zero_le 60)]
    exact ⟨fun he => he ▸ h, fun hw => h.unique hw⟩
  · rw [scaled_eq_ok_iff hd hp, hq]

-- The number that is written at the field of an item, small enough to be taken.
def ItemReads (r : Config) (item : Json Utf16) (q : ℚ) : Prop :=
  ∃ node raw e, required item r.field = .ok node ∧ (node = .number raw ∨ node = .string raw) ∧
    Reads (toText raw) e q ∧ e.natAbs ≤ 60 ∧ Representable q

theorem number_eq_ok_iff {node : Json Utf16} : number node = .ok out ↔
    ∃ raw, (node = .number raw ∨ node = .string raw) ∧ exactDecimal (toText raw) = .ok out := by
  constructor
  · intro h
    rw [number.eq_def] at h
    split at h
    case h_1 raw => exact ⟨raw, .inl rfl, h⟩
    case h_2 raw => exact ⟨raw, .inr rfl, h⟩
    case h_3     => cases h
  · rintro ⟨raw, rfl | rfl, h⟩
    · exact h
    · exact h

theorem item_number_iff {item : Json Utf16} : (required item r.field >>= number) = .ok out ↔
    ∃ q, ItemReads r item q ∧ Writes out q := by
  simp only [Except.bind_eq_ok, number_eq_ok_iff]
  constructor
  · rintro ⟨node, hn, raw, hr, hd⟩
    obtain ⟨e, q, hq⟩ := reads_of_exactDecimal hd
    obtain ⟨he, hw⟩ := (exactDecimal_of_reads hq).mp hd
    exact ⟨q, ⟨node, raw, e, hn, hr, hq, he, hw.representable⟩, hw⟩
  · rintro ⟨q, ⟨node, raw, e, hn, hr, hq, he, _⟩, hw⟩
    exact ⟨node, hn, raw, hr, (exactDecimal_of_reads hq).mpr ⟨he, hw⟩⟩

theorem numbers_eq_ok_iff {texts : List String} : numbers r list = .ok texts ↔
    ∃ qs, List.Forall₂ (ItemReads r) (selected r list) qs ∧ List.Forall₂ Writes texts qs := by
  rw [numbers, Except.mapM_eq_ok]
  simp only [item_number_iff]
  generalize selected r list = items
  constructor
  · intro h
    induction h
    case nil                    => exact ⟨[], .nil, .nil⟩
    case cons hq _ hi =>
      obtain ⟨q, hr, hw⟩ := hq
      obtain ⟨qs, hrs, hws⟩ := hi
      exact ⟨q :: qs, .cons hr hrs, .cons hw hws⟩
  · rintro ⟨qs, hr, hw⟩
    induction hr generalizing texts
    case nil => cases hw; exact .nil
    case cons hr _ hi =>
      cases hw
      case cons hw hws => exact .cons ⟨_, hr, hw⟩ (hi hws)

theorem numbers_writes {texts : List String} (h : numbers r list = .ok texts) :
    ∃ qs, List.Forall₂ Writes texts qs :=
  have ⟨qs, _, hw⟩ := numbers_eq_ok_iff.mp h
  ⟨qs, hw⟩

-- Numbers that are small enough can be written.
theorem exists_texts {items : List (Json Utf16)} (h : List.Forall₂ (ItemReads r) items qs) :
    ∃ texts, List.Forall₂ Writes texts qs := by
  induction h
  case nil => exact ⟨[], .nil⟩
  case cons h _ hi =>
    obtain ⟨_, _, _, _, _, _, _, hr⟩ := h
    obtain ⟨t, ht⟩ := exists_writes hr
    obtain ⟨ts, hts⟩ := hi
    exact ⟨t :: ts, .cons ht hts⟩

theorem writes_unique {texts : List String} {qs qs' : List ℚ} (h : List.Forall₂ Writes texts qs)
    (h' : List.Forall₂ Writes texts qs') : qs = qs' := by
  induction h generalizing qs'
  case nil => cases h'; rfl
  case cons h _ hi =>
    cases h'
    case cons h' hs' => rw [h.unique_value h', hi hs']

theorem listValue_eq (h : r.aggregate = .sum ∨ r.aggregate = .max ∨ r.aggregate = .min) :
    listValue timeValue r list = if selected r list = [] then .error .valueMissing else (do
      let values ← numbers r list
      let total ← total r.aggregate values
      .decimal <$> scaled total r.scale) := by
  rw [listValue]
  rcases h with h | h | h <;> simp only [h]

theorem total_writes (hts : List.Forall₂ Writes ts qs) (h : Total aggregate qs q) : ∃ t, Writes t q := by
  have mem (hq : q ∈ qs) : ∃ t, Writes t q := by
    have ⟨i, hi, he⟩ := List.getElem_of_mem hq
    have ⟨hl, hw⟩ := List.forall₂_iff_get.mp hts
    rw [← he]
    exact ⟨_, hw i (hl ▸ hi) hi⟩
  cases aggregate
  case sum => exact exists_writes (h.2 ▸ h.1 qs List.prefix_rfl)
  case max => exact mem h.1
  case min => exact mem h.1
  all_goals cases h

theorem listValue_eq_ok_iff (h : r.aggregate = .sum ∨ r.aggregate = .max ∨ r.aggregate = .min) :
    listValue timeValue r list = .ok v ↔ ∃ texts qs q out, numbers r list = .ok texts ∧
      List.Forall₂ Writes texts qs ∧ texts ≠ [] ∧ Total r.aggregate qs q ∧ r.scale ≤ 60 ∧
      Writes out (q / 10 ^ r.scale) ∧ v = .decimal out := by
  have hlen {texts : List String} (hn : numbers r list = .ok texts) : texts = [] ↔ selected r list = [] := by
    have := (Except.mapM_eq_ok.mp hn).length_eq
    rw [← List.length_eq_zero_iff, ← List.length_eq_zero_iff, this]
  rw [listValue_eq h]
  constructor
  · intro hv
    split at hv
    case isTrue => cases hv
    case isFalse hne =>
      simp only [Except.bind_eq_ok, Except.map_eq_ok] at hv
      obtain ⟨texts, hn, t, ht, out, ho, rfl⟩ := hv
      have hne' : texts ≠ [] := fun he => hne ((hlen hn).mp he)
      obtain ⟨qs, hqs⟩ := numbers_writes hn
      obtain ⟨q, hq, hw⟩ := (total_eq_ok_iff h hqs hne').mp ht
      obtain ⟨hp, hw'⟩ := (scaled_writes hw).mp ho
      exact ⟨texts, qs, q, out, hn, hqs, hne', hq, hp, hw', rfl⟩
  · rintro ⟨texts, qs, q, out, hn, hqs, hne, hq, hp, hw, hv⟩
    obtain ⟨t, ht⟩ := total_writes hqs hq
    rw [if_neg fun he => hne ((hlen hn).mpr he), hn, Except.ok_bind,
      (total_eq_ok_iff h hqs hne).mpr ⟨q, hq, ht⟩, Except.ok_bind, (scaled_writes ht).mpr ⟨hp, hw⟩, hv]
    rfl

-- The total over the numbers of the items that are selected.
theorem listValue_reads (h : r.aggregate = .sum ∨ r.aggregate = .max ∨ r.aggregate = .min) :
    listValue timeValue r list = .ok v ↔ ∃ qs q out, List.Forall₂ (ItemReads r) (selected r list) qs ∧ qs ≠ [] ∧
      Total r.aggregate qs q ∧ r.scale ≤ 60 ∧ Writes out (q / 10 ^ r.scale) ∧ v = .decimal out := by
  have hne {texts : List String} {qs : List ℚ} (hw : List.Forall₂ Writes texts qs) : texts ≠ [] ↔ qs ≠ [] := by
    rw [← List.length_pos_iff, ← List.length_pos_iff, hw.length_eq]
  rw [listValue_eq_ok_iff h]
  constructor
  · rintro ⟨texts, qs, q, out, hn, hqs, hnil, ht, hp, hw, hv⟩
    obtain ⟨qs', hr, hw'⟩ := numbers_eq_ok_iff.mp hn
    cases writes_unique hqs hw'
    exact ⟨qs, q, out, hr, (hne hqs).mp hnil, ht, hp, hw, hv⟩
  · rintro ⟨qs, q, out, hr, hnil, ht, hp, hw, hv⟩
    obtain ⟨texts, hts⟩ := exists_texts hr
    exact ⟨texts, qs, q, out, numbers_eq_ok_iff.mpr ⟨qs, hr, hts⟩, hts, (hne hts).mpr hnil, ht, hp, hw, hv⟩

-- The sums that are needed for a list in its order can be written.
def SumsFit (r : Config) (list : List (Json Utf16)) : Prop :=
  ∀ qs, List.Forall₂ (ItemReads r) (selected r list) qs → PartialSums qs

def Counts (a : Aggregate) : Prop := a = .sum ∨ a = .max ∨ a = .min ∨ a = .count

theorem listValue_count (h : r.aggregate = .count) (hl : list.length ≤ 50000) :
    listValue timeValue r list = .ok v ↔ ∃ out, r.scale ≤ 60 ∧
      Writes out ((selected r list).length / 10 ^ r.scale) ∧ v = .decimal out := by
  have hle : (selected r list).length ≤ list.length := List.length_filter_le _ _
  have hw : Writes (String.ofList (Nat.toDigits 10 (selected r list).length)) ((selected r list).length : ℕ) :=
    writes_natCast (by omega)
  rw [listValue, h]
  simp only [Except.map_eq_ok, scaled_writes hw, and_assoc, @eq_comm _ _ v]

-- The items in another order have the same numbers in another order.
theorem numbers_perm {texts : List String} {qs : List ℚ} (hp : list.Perm list') (h : numbers r list = .ok texts)
    (hqs : List.Forall₂ Writes texts qs) :
    ∃ texts' qs', numbers r list' = .ok texts' ∧ List.Forall₂ Writes texts' qs' ∧ qs'.Perm qs := by
  have hs : (selected r list').Perm (selected r list) := (hp.filter _).symm
  have ⟨texts', hf, ht⟩ := List.perm_comp_forall₂ hs (Except.mapM_eq_ok.mp h)
  have ⟨qs', hf', hq⟩ := List.perm_comp_forall₂ ht hqs
  exact ⟨texts', qs', Except.mapM_eq_ok.mpr hf, hf', hq⟩

theorem total_perm {qs' : List ℚ} (hp : qs'.Perm qs) (hs : aggregate = .sum → PartialSums qs')
    (h : Total aggregate qs q) : Total aggregate qs' q := by
  have hset : { x | x ∈ qs' } = { x | x ∈ qs } := Set.ext fun x => hp.mem_iff
  cases aggregate
  case sum => exact ⟨hs rfl, by rw [hp.sum_eq, h.2]⟩
  case max =>
    rw [Total] at h ⊢
    rwa [hset]
  case min =>
    rw [Total] at h ⊢
    rwa [hset]
  all_goals cases h

theorem listValue_perm (hp : list.Perm list') (ha : Counts r.aggregate) (hs : r.aggregate = .sum → SumsFit r list')
    (h : listValue timeValue r list = .ok v) : listValue timeValue r list' = .ok v := by
  by_cases hc : r.aggregate = .count
  · have hl : (selected r list).length = (selected r list').length := (hp.filter _).length_eq
    rw [listValue, hc] at h ⊢
    rwa [← hl]
  · have ha' : r.aggregate = .sum ∨ r.aggregate = .max ∨ r.aggregate = .min := by
      rcases ha with ha | ha | ha | ha
      · exact .inl ha
      · exact .inr (.inl ha)
      · exact .inr (.inr ha)
      · exact absurd ha hc
    obtain ⟨texts, qs, q, out, hn, hqs, hne, hq, hscale, hw, hv⟩ := (listValue_eq_ok_iff ha').mp h
    obtain ⟨texts', qs', hn', hqs', hperm⟩ := numbers_perm hp hn hqs
    have hne' : texts' ≠ [] := by
      rw [← List.length_pos_iff, hqs'.length_eq, hperm.length_eq, ← hqs.length_eq, List.length_pos_iff]
      exact hne
    have hfit : r.aggregate = .sum → PartialSums qs' := by
      intro hsum
      obtain ⟨ps, hr, hw'⟩ := numbers_eq_ok_iff.mp hn'
      cases writes_unique hqs' hw'
      exact hs hsum _ hr
    have hq' := total_perm hperm hfit hq
    exact (listValue_eq_ok_iff ha').mpr ⟨texts', qs', q, out, hn', hqs', hne', hq', hscale, hw, hv⟩

end JsonApi

section Results

open JsonApi

-- A number's text is read as the canonical decimal of its value, or refused because of its size. Other
-- texts are refused.
structure ReadsExactly : Prop where
  accepts    : ∀ {raw e q}, Reads raw e q →
    ((∃ out, exactDecimal raw = .ok out) ↔ e.natAbs ≤ 60 ∧ Representable q)
  value      : ∀ {raw e q out}, Reads raw e q → exactDecimal raw = .ok out →
    Writes out q ∧ Reads out 0 q ∧ ∃ d, decimal out = some d ∧ toRat d = q
  others     : ∀ {raw out}, exactDecimal raw = .ok out → ∃ e q, Reads raw e q
  idempotent : ∀ {raw out}, exactDecimal raw = .ok out → exactDecimal out = .ok out
  equal      : ∀ {raw raw' e e' q q' out out'}, Reads raw e q → Reads raw' e' q' →
    exactDecimal raw = .ok out → exactDecimal raw' = .ok out' → (out = out' ↔ q = q')

-- The results are exact, and missing only where the exact number cannot be written.
structure ComputesExactly : Prop where
  decimal   : ∀ {a x}, decimal a = some x → Reads a 0 (toRat x)
  scaled    : ∀ {a x p out}, Settlement.decimal a = some x → p ≠ 0 →
    (Readers.scaled a p = .ok out ↔ p ≤ 60 ∧ Writes out (toRat x / 10 ^ p))
  unscaled  : ∀ a, Readers.scaled a 0 = .ok a
  fromUnits : ∀ {c p out}, Readers.fromUnits c p = .ok out ↔ Writes out (c / 10 ^ p)
  add       : ∀ {a b x y out}, Settlement.decimal a = some x → Settlement.decimal b = some y →
    (addDecimal a b = .ok out ↔ Writes out (toRat x + toRat y))
  compare   : ∀ {a b x y}, Settlement.decimal a = some x → Settlement.decimal b = some y →
    compareDecimal a b = .ok (Ord.compare (toRat x) (toRat y))

-- Lists are summed up exactly, and the order of their items does not matter.
structure AggregatesExactly (timeValue : TimeFormat → Json Utf16 → Except Issue ℕ) (r : Config) : Prop where
  total : r.aggregate = .sum ∨ r.aggregate = .max ∨ r.aggregate = .min → ∀ list v,
    (listValue timeValue r list = .ok v ↔ ∃ qs q out, List.Forall₂ (ItemReads r) (selected r list) qs ∧ qs ≠ [] ∧
      Total r.aggregate qs q ∧ r.scale ≤ 60 ∧ Writes out (q / 10 ^ r.scale) ∧ v = .decimal out)
  count : r.aggregate = .count → ∀ list v, list.length ≤ 50000 →
    (listValue timeValue r list = .ok v ↔ ∃ out, r.scale ≤ 60 ∧
      Writes out ((selected r list).length / 10 ^ r.scale) ∧ v = .decimal out)
  order : Counts r.aggregate → ∀ list list', list.Perm list' →
    (r.aggregate = .sum → SumsFit r list ∧ SumsFit r list') →
      ∀ v, listValue timeValue r list = .ok v ↔ listValue timeValue r list' = .ok v

theorem decimals_exact : ReadsExactly ∧ ComputesExactly ∧ ∀ timeValue r, AggregatesExactly timeValue r := by
  refine ⟨⟨fun h => ?_, fun h ho => ?_, reads_of_exactDecimal, exactDecimal_idempotent, fun h h' ho ho' => ?_⟩,
    ⟨reads_of_decimal, scaled_eq_ok_iff, fun a => rfl, fromUnits_eq_ok_iff _ _, addDecimal_eq_ok_iff,
      compareDecimal_eq⟩,
    fun timeValue r => ⟨fun h list v => listValue_reads h, fun h list v hl => listValue_count h hl, ?_⟩⟩
  · constructor
    · rintro ⟨out, ho⟩
      obtain ⟨he, hw⟩ := (exactDecimal_of_reads h).mp ho
      exact ⟨he, hw.representable⟩
    · rintro ⟨he, hr⟩
      obtain ⟨out, hw⟩ := exists_writes hr
      exact ⟨out, (exactDecimal_of_reads h).mpr ⟨he, hw⟩⟩
  · have hw := ((exactDecimal_of_reads h).mp ho).right
    exact ⟨hw, hw.reads, hw.decimal⟩
  · have hw := ((exactDecimal_of_reads h).mp ho).right
    have hw' := ((exactDecimal_of_reads h').mp ho').right
    exact ⟨fun he => hw.unique_value (he ▸ hw'), fun he => hw.unique (he ▸ hw')⟩
  · intro ha list list' hp hs v
    exact ⟨listValue_perm hp ha fun h => (hs h).2, listValue_perm hp.symm ha fun h => (hs h).1⟩

-- A report that sums a list up has the exact result for the numbers that the list has in the document,
-- which is one whose identity was checked.
theorem jsonApi_total {timeValue : TimeFormat → Json Utf16 → Except Issue ℕ} {r : Config} {body : Utf16}
    {v : Extracted} {publishedAt : Option ℕ} (ha : r.aggregate = .sum ∨ r.aggregate = .max ∨ r.aggregate = .min)
    (h : jsonApi timeValue r body = .ok (v, publishedAt)) :
    ∃ doc list qs q out, (Json.Text body.dropMark doc ∧ doc.depth ≤ 64 ∧ doc.Unique) ∧
      (∀ check ∈ r.checks, required doc check.path >>= scalarText = .ok check.equals) ∧
      required doc r.select = .ok (.array list) ∧ list.length ≤ 50000 ∧
      List.Forall₂ (ItemReads r) (selected r list) qs ∧ qs ≠ [] ∧ Total r.aggregate qs q ∧
      Writes out (q / 10 ^ r.scale) ∧ v = .decimal out := by
  have hv : r.aggregate ≠ .value := by
    rcases ha with ha | ha | ha <;> rw [ha] <;> decide
  simp only [jsonApi, Except.bind_eq_ok, if_neg hv] at h
  obtain ⟨doc, hd, u, hc, node, hn, h⟩ := h
  split at h
  case h_2 => cases h
  case h_1 list =>
    split at h
    case isTrue       => cases h
    case isFalse hlen =>
      obtain ⟨value, hl, h⟩ := Except.bind_eq_ok.mp h
      obtain ⟨qs, q, out, hr, hne, ht, _, hw, rfl⟩ := (listValue_reads ha).mp hl
      refine ⟨doc, list, qs, q, out, ExactJson.parseExactJSON_eq_ok_iff.mp hd, fun check hm => ?_, hn,
        not_lt.mp hlen, hr, hne, ht, hw, ?_⟩
      case refine_1 =>
        have hk := Except.forM_mem hc hm
        obtain ⟨text, htext, he⟩ := Except.bind_eq_ok.mp hk
        split at he
        case isTrue heq => rw [htext, heq]
        case isFalse    => cases he
      case refine_2 =>
        split at h
        case h_1 => cases h; rfl
        case h_2 =>
          simp only [Except.bind_eq_ok, Except.pure_eq_ok] at h
          obtain ⟨_, _, _, _, h⟩ := h
          cases h
          rfl

namespace Sample

-- A number with a sign, a fraction, an exponent and white space around it, and the same number in a
-- list beside another.
def text : String := " -12.50E+3 "

def config : Config := ⟨[], .sum, [], [], [], none, 2, .date, .number⟩

def list : List (Json Utf16) := [.string (Utf16.ofString text), .number (Utf16.ofString "1e2")]

theorem reads_text : Reads text 3 (-12500) := by
  have h : Notation.Magnitude (['1', '2'] ++ '.' :: ['5', '0'] ++ 'E' :: '+' :: ['3']) (value ['3'])
      ((value ['1', '2'] + value ['5', '0'] / 10 ^ 2) * 10 ^ (value ['3'] : ℤ)) :=
    .mk (List.all_eq_true.mp rfl) (by decide) (.digits (List.all_eq_true.mp rfl) (by decide))
      (.letter (.inr rfl) (.plus (List.all_eq_true.mp rfl) (by decide)))
  have h₁ : value ['1', '2'] = 12 := rfl
  have h₂ : value ['5', '0'] = 50 := rfl
  have h₃ : value ['3'] = 3 := rfl
  rw [h₁, h₂, h₃] at h
  have hd := Notation.Denotes.negative h
  norm_num at hd
  exact ⟨[' '], _, [' '], rfl, List.all_eq_true.mp rfl, List.all_eq_true.mp rfl, hd⟩

end Sample

theorem decimals_exact_sample :
    exactDecimal Sample.text = .ok "-12500" ∧ Writes "-12500" (-12500) ∧ Reads "-12500" 0 (-12500) ∧
      ¬ Representable (10 ^ 36) ∧
      listValue (fun _ _ => .error .valueInvalid) Sample.config Sample.list = .ok (.decimal "-124") ∧
      ∃ qs q, List.Forall₂ (ItemReads Sample.config) Sample.list qs ∧ q = qs.sum ∧ Writes "-124" (q / 10 ^ 2) := by
  have ht : exactDecimal Sample.text = .ok "-12500" := by decide +kernel
  have hl : listValue (fun _ _ => .error .valueInvalid) Sample.config Sample.list = .ok (.decimal "-124") := by
    decide +kernel
  obtain ⟨hw, hr, _⟩ := decimals_exact.left.value Sample.reads_text ht
  obtain ⟨qs, q, out, hqs, _, hq, _, hout, he⟩ :=
    ((decimals_exact.right.right _ Sample.config).total (.inl rfl) Sample.list _).mp hl
  cases he
  refine ⟨ht, hw, hr, fun h => ?_, hl, qs, q, hqs, hq.right, hout⟩
  have := h.integer
  norm_num at this

end Results

end Readers
