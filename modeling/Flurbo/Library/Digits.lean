import Mathlib.Algebra.Order.Field.Rat
import Mathlib.Algebra.Order.Ring.Nat
import Mathlib.Data.List.TakeWhile
import Mathlib.Tactic

-- Decimal digits with their value, and the zeros that do not change it.

section Spans

variable {α : Type*} {p : α → Bool} {as bs : List α}

-- A span ends before the first element that does not belong to it.
theorem takeWhile_span (h : ∀ a ∈ as, p a = true) (hb : ∀ b ∈ bs.head?, p b = false) :
    (as ++ bs).takeWhile p = as := by
  rw [List.takeWhile_append_of_pos h]
  cases bs
  case nil       => rw [List.takeWhile_nil, List.append_nil]
  case cons b bs => rw [List.takeWhile_cons_of_neg (by simp [hb b rfl]), List.append_nil]

theorem dropWhile_span (h : ∀ a ∈ as, p a = true) (hb : ∀ b ∈ bs.head?, p b = false) :
    (as ++ bs).dropWhile p = bs := by
  rw [List.dropWhile_append_of_pos h]
  cases bs
  case nil       => rfl
  case cons b bs => rw [List.dropWhile_cons_of_neg (by simp [hb b rfl])]

theorem forall_mem_takeWhile (p : α → Bool) (as : List α) : ∀ a ∈ as.takeWhile p, p a = true := fun _ ha =>
  List.mem_takeWhile_imp ha

end Spans

namespace Digits

abbrev value (cs : List Char) : ℕ := Nat.ofDigitChars 10 cs 0

def AllDigits (cs : List Char) : Prop := ∀ c ∈ cs, c.isDigit = true

variable {cs ds : List Char} {c : Char} {n : ℕ}

theorem AllDigits.append (h : AllDigits cs) (h' : AllDigits ds) : AllDigits (cs ++ ds) := fun c hc =>
  (List.mem_append.mp hc).elim (h c) (h' c)

theorem AllDigits.left (h : AllDigits (cs ++ ds)) : AllDigits cs := fun c hc =>
  h c (List.mem_append_left ds hc)

theorem AllDigits.right (h : AllDigits (cs ++ ds)) : AllDigits ds := fun c hc =>
  h c (List.mem_append_right cs hc)

theorem AllDigits.take (h : AllDigits cs) (n : ℕ) : AllDigits (cs.take n) := fun c hc =>
  h c (List.mem_of_mem_take hc)

theorem AllDigits.drop (h : AllDigits cs) (n : ℕ) : AllDigits (cs.drop n) := fun c hc =>
  h c (List.mem_of_mem_drop hc)

theorem allDigits_zeros (n : ℕ) : AllDigits (List.replicate n '0') := fun c hc => by
  rw [List.eq_of_mem_replicate hc]
  rfl

theorem allDigits_toDigits (n : ℕ) : AllDigits (Nat.toDigits 10 n) := fun _ hc =>
  Nat.isDigit_of_mem_toDigits (by decide) (by decide) hc

theorem isDigit_iff : c.isDigit = true ↔ 48 ≤ c.toNat ∧ c.toNat ≤ 57 := by
  rw [Char.isDigit, Bool.and_eq_true, decide_eq_true_iff, decide_eq_true_iff]
  exact Iff.rfl

theorem value_append (cs ds : List Char) : value (cs ++ ds) = 10 ^ ds.length * value cs + value ds := by
  rw [value, Nat.ofDigitChars_append, Nat.ofDigitChars_eq_ofDigitChars_zero]

theorem value_cons (c : Char) (cs : List Char) :
    value (c :: cs) = 10 ^ cs.length * (c.toNat - 48) + value cs := by
  rw [value, Nat.ofDigitChars_cons, Nat.ofDigitChars_eq_ofDigitChars_zero, Nat.mul_zero, Nat.zero_add]
  rfl

theorem eq_of_toNat {d : Char} (h : c.toNat = d.toNat) : c = d := Char.ext (UInt32.toNat_inj.mp h)

theorem value_zeros (n : ℕ) : value (List.replicate n '0') = 0 := by
  rw [value, Nat.ofDigitChars_replicate_zero, Nat.mul_zero]

theorem value_zeros_append (n : ℕ) (cs : List Char) : value (List.replicate n '0' ++ cs) = value cs := by
  rw [value_append, value_zeros, Nat.mul_zero, Nat.zero_add]

theorem value_append_zeros (cs : List Char) (n : ℕ) :
    value (cs ++ List.replicate n '0') = 10 ^ n * value cs := by
  rw [value_append, value_zeros, List.length_replicate, Nat.add_zero]

theorem value_lt (h : AllDigits cs) : value cs < 10 ^ cs.length := by
  induction cs
  case nil          => exact Nat.one_pos
  case cons c cs hi =>
    have hc := isDigit_iff.mp (h c (by simp))
    have ht := hi fun d hd => h d (by simp [hd])
    have hd : 10 ^ cs.length * (c.toNat - 48) ≤ 10 ^ cs.length * 9 := Nat.mul_le_mul_left _ (by omega)
    rw [value_cons, List.length_cons, Nat.pow_succ]
    omega

-- Digit sequences of one length are determined by their value.
theorem eq_of_value (h : AllDigits cs) (h' : AllDigits ds) (hl : cs.length = ds.length)
    (hv : value cs = value ds) : cs = ds := by
  induction cs generalizing ds
  case nil          => exact (List.length_eq_zero_iff.mp hl.symm).symm
  case cons c cs hi =>
    cases ds
    case nil       => cases hl
    case cons d ds =>
      have hl' : cs.length = ds.length := Nat.succ.inj hl
      have hc := isDigit_iff.mp (h c (by simp))
      have hd := isDigit_iff.mp (h' d (by simp))
      have hcs : AllDigits cs := fun e he => h e (by simp [he])
      have hds : AllDigits ds := fun e he => h' e (by simp [he])
      have hlt := value_lt hcs
      have hlt' := value_lt hds
      rw [value_cons, value_cons, ← hl'] at hv
      rw [← hl'] at hlt'
      have hp : 0 < 10 ^ cs.length := Nat.pow_pos (by decide)
      have hq : c.toNat - 48 = d.toNat - 48 := by
        have hdiv := congrArg (· / 10 ^ cs.length) hv
        simpa only [Nat.mul_add_div hp, Nat.div_eq_of_lt hlt, Nat.div_eq_of_lt hlt', Nat.add_zero] using hdiv
      have hcd : c = d := eq_of_toNat (by omega)
      have hv' : value cs = value ds := by rw [hq] at hv; omega
      rw [hcd, hi hcs hds hl' hv']

theorem value_eq_zero_iff (h : AllDigits cs) : value cs = 0 ↔ ∀ c ∈ cs, c = '0' := by
  constructor
  · intro hv
    have hz := eq_of_value h (allDigits_zeros cs.length) List.length_replicate.symm (hv.trans (value_zeros _).symm)
    exact fun c hc => List.eq_of_mem_replicate (hz ▸ hc)
  · intro hz
    rw [List.eq_replicate_iff.mpr ⟨rfl, hz⟩, value_zeros]

section Leading

def NoLeadingZero (cs : List Char) : Prop := 1 < cs.length → cs.head? ≠ some '0'

-- A digit always stays.
def stripLeading : List Char → List Char
  | '0' :: c :: cs => stripLeading (c :: cs)
  | cs             => cs

theorem stripLeading_spec (cs : List Char) : ∃ n, cs = List.replicate n '0' ++ stripLeading cs := by
  fun_induction stripLeading cs
  case case1 c cs hi =>
    have ⟨n, hn⟩ := hi
    exact ⟨n + 1, by rw [List.replicate_succ, List.cons_append, ← hn]⟩
  case case2 cs h => exact ⟨0, rfl⟩

theorem stripLeading_ne_nil (h : cs ≠ []) : stripLeading cs ≠ [] := by
  fun_induction stripLeading cs
  case case1 c cs hi => exact hi (by simp)
  case case2         => exact h

theorem noLeadingZero_stripLeading (cs : List Char) : NoLeadingZero (stripLeading cs) := by
  fun_induction stripLeading cs
  case case1 c cs hi => exact hi
  case case2 cs h    =>
    intro hl hz
    match cs with
    | [] | [_]    => simp at hl
    | c :: d :: e => exact h d e (by rw [Option.some.inj hz])

theorem noLeadingZero_toDigits (n : ℕ) : NoLeadingZero (Nat.toDigits 10 n) := by
  intro hl hz
  have hd := allDigits_toDigits n
  have hv : value (Nat.toDigits 10 n) = n := Nat.ofDigitChars_ten_toDigits
  have hlen {k : ℕ} (hk : 0 < k) := Nat.length_toDigits_le_iff (n := n) (show 1 < 10 by decide) hk
  generalize Nat.toDigits 10 n = cs at *
  cases cs
  case nil       => cases hz
  case cons c cs =>
    rw [Option.some.inj hz] at hd hv
    have hcs : value cs < 10 ^ cs.length := value_lt fun d hd' => hd d (List.mem_cons_of_mem _ hd')
    have hv' : value cs = n := by rw [← hv, value_cons]; simp
    simp only [List.length_cons] at hl hlen
    have := (hlen (k := cs.length) (by omega)).mpr (hv' ▸ hcs)
    omega

theorem value_stripLeading (cs : List Char) : value (stripLeading cs) = value cs := by
  have ⟨n, hn⟩ := stripLeading_spec cs
  conv_rhs => rw [hn, value_zeros_append]

theorem AllDigits.stripLeading (h : AllDigits cs) : AllDigits (stripLeading cs) := by
  have ⟨n, hn⟩ := stripLeading_spec cs
  rw [hn] at h
  exact h.right

theorem le_value (h : AllDigits cs) (hn : cs ≠ []) (hz : cs.head? ≠ some '0') :
    10 ^ (cs.length - 1) ≤ value cs := by
  cases cs
  case nil       => contradiction
  case cons c cs =>
    have hc := isDigit_iff.mp (h c (by simp))
    have hne : c.toNat ≠ 48 := fun hc => hz (by rw [@eq_of_toNat c '0' hc]; rfl)
    rw [value_cons, List.length_cons, Nat.add_sub_cancel]
    exact Nat.le_add_right_of_le (Nat.le_mul_of_pos_right _ (by omega))

-- Without leading zeros the value determines the number of digits.
theorem length_le_iff (h : AllDigits cs) (hn : cs ≠ []) (hz : NoLeadingZero cs) (hp : 0 < n) :
    cs.length ≤ n ↔ value cs < 10 ^ n := by
  constructor
  · exact fun hl => (value_lt h).trans_le (Nat.pow_le_pow_right (by decide) hl)
  · intro hv
    by_contra hl
    have hle := le_value h hn (hz (by omega))
    have hpow : 10 ^ n ≤ 10 ^ (cs.length - 1) := Nat.pow_le_pow_right (by decide) (by omega)
    omega

theorem eq_of_value_canonical (h : AllDigits cs) (h' : AllDigits ds) (hn : cs ≠ []) (hn' : ds ≠ [])
    (hz : NoLeadingZero cs) (hz' : NoLeadingZero ds) (hv : value cs = value ds) : cs = ds := by
  have hp := List.length_pos_iff.mpr hn
  have hp' := List.length_pos_iff.mpr hn'
  have h₁ := (length_le_iff h hn hz hp').mpr (hv ▸ value_lt h')
  have h₂ := (length_le_iff h' hn' hz' hp).mpr (hv ▸ value_lt h)
  exact eq_of_value h h' (by omega) hv

end Leading

section Trailing

def NoTrailingZero (cs : List Char) : Prop := cs.getLast? ≠ some '0'

def stripTrailing (cs : List Char) : List Char := (cs.reverse.dropWhile (· = '0')).reverse

theorem stripTrailing_spec (cs : List Char) : ∃ n, cs = stripTrailing cs ++ List.replicate n '0' := by
  have ht : (cs.reverse.takeWhile (· = '0')) =
      List.replicate (cs.reverse.takeWhile (· = '0')).length '0' := by
    rw [List.eq_replicate_iff]
    exact ⟨rfl, fun c hc => by simpa using List.mem_takeWhile_imp hc⟩
  refine ⟨(cs.reverse.takeWhile (· = '0')).length, ?_⟩
  rw [stripTrailing, ← List.reverse_replicate, ← ht, ← List.reverse_append, List.takeWhile_append_dropWhile,
    List.reverse_reverse]

theorem noTrailingZero_stripTrailing (cs : List Char) : NoTrailingZero (stripTrailing cs) := by
  rw [NoTrailingZero, stripTrailing, List.getLast?_reverse]
  intro h
  have := List.head?_dropWhile_not (p := (· = '0')) cs.reverse
  rw [h] at this
  simp at this

theorem AllDigits.stripTrailing (h : AllDigits cs) : AllDigits (stripTrailing cs) := by
  have ⟨n, hn⟩ := stripTrailing_spec cs
  rw [hn] at h
  exact h.left

-- The last digit of what does not end in zero is seen in the value.
theorem not_dvd_value (h : AllDigits cs) (hn : cs ≠ []) (hz : NoTrailingZero cs) : ¬ 10 ∣ value cs := by
  obtain ⟨init, c, rfl⟩ := (List.eq_nil_or_concat cs).resolve_left hn
  rw [List.concat_eq_append] at *
  have hc := isDigit_iff.mp (h c (by simp))
  have hne : c.toNat ≠ 48 := fun hc => hz (by rw [List.getLast?_append_cons, @eq_of_toNat c '0' hc]; rfl)
  have hv : value [c] = c.toNat - 48 := by rw [value_cons]; simp [value]
  rw [value_append, List.length_singleton, pow_one, hv]
  omega

end Trailing

section Pointed

-- The number that is written with a point between the two parts.
def pointed (whole fraction : List Char) : ℚ := value (whole ++ fraction) / 10 ^ fraction.length

variable {ws fs ws' fs' : List Char}

theorem ten_pow_pos (n : ℕ) : (0 : ℚ) < 10 ^ n := pow_pos (by norm_num) n

theorem ten_pow_ne (n : ℕ) : (10 : ℚ) ^ n ≠ 0 := (ten_pow_pos n).ne'

theorem pointed_take_drop (cs : List Char) (n : ℕ) :
    pointed (cs.take n) (cs.drop n) = value cs / 10 ^ (cs.length - n) := by
  rw [pointed, List.take_append_drop, List.length_drop]

theorem pointed_eq (ws fs : List Char) : pointed ws fs = value ws + value fs / 10 ^ fs.length := by
  rw [pointed, value_append, Nat.cast_add, Nat.cast_mul, Nat.cast_pow, Nat.cast_ofNat, add_div,
    mul_div_cancel_left₀ _ (ten_pow_ne _)]

theorem pointed_nonneg (ws fs : List Char) : 0 ≤ pointed ws fs :=
  div_nonneg (Nat.cast_nonneg _) (ten_pow_pos _).le

theorem pointed_nil (ws : List Char) : pointed ws [] = value ws := by
  rw [pointed, List.append_nil, List.length_nil, pow_zero, div_one]

theorem pointed_eq_zero_iff : pointed ws fs = 0 ↔ value (ws ++ fs) = 0 := by
  rw [pointed, div_eq_zero_iff, or_iff_left (ten_pow_ne _), Nat.cast_eq_zero]

theorem pointed_stripLeading (ws fs : List Char) : pointed (stripLeading ws) fs = pointed ws fs := by
  rw [pointed_eq, pointed_eq, value_stripLeading]

theorem pointed_append_zeros (ws fs : List Char) (n : ℕ) :
    pointed ws (fs ++ List.replicate n '0') = pointed ws fs := by
  rw [pointed, pointed, ← List.append_assoc, value_append_zeros, List.length_append, List.length_replicate,
    Nat.cast_mul, Nat.cast_pow, Nat.cast_ofNat, Nat.add_comm, pow_add, mul_div_mul_left _ _ (ten_pow_ne n)]

theorem pointed_stripTrailing (ws fs : List Char) : pointed ws (stripTrailing fs) = pointed ws fs := by
  have ⟨n, hn⟩ := stripTrailing_spec fs
  conv_rhs => rw [hn, pointed_append_zeros]

theorem pointed_lt_iff (h : AllDigits fs) (n : ℕ) : pointed ws fs < 10 ^ n ↔ value ws < 10 ^ n := by
  have hf : (value fs : ℚ) / 10 ^ fs.length < 1 := by
    rw [div_lt_one (ten_pow_pos _)]
    exact_mod_cast value_lt h
  have hf' : (0 : ℚ) ≤ value fs / 10 ^ fs.length := div_nonneg (Nat.cast_nonneg _) (ten_pow_pos _).le
  rw [pointed_eq]
  constructor
  · intro hl
    have : (value ws : ℚ) < 10 ^ n := by linarith
    exact_mod_cast this
  · intro hl
    have : (value ws : ℚ) + 1 ≤ 10 ^ n := by exact_mod_cast hl
    linarith

-- The digits that remain on either side of the point say what can be written with so many digits.
theorem whole_length_le_iff (hw : AllDigits ws) (hf : AllDigits fs) (hn : ws ≠ []) (hz : NoLeadingZero ws)
    (hp : 0 < n) : ws.length ≤ n ↔ pointed ws fs < 10 ^ n := by
  rw [length_le_iff hw hn hz hp, pointed_lt_iff hf]

theorem NoTrailingZero.append (hz : NoTrailingZero fs) (hn : fs ≠ []) : NoTrailingZero (ws ++ fs) := by
  rw [NoTrailingZero, List.getLast?_append_of_ne_nil _ hn]
  exact hz

theorem fraction_length_le_iff (hw : AllDigits ws) (hf : AllDigits fs) (hz : NoTrailingZero fs) :
    fs.length ≤ n ↔ ∃ m : ℕ, pointed ws fs * 10 ^ n = m := by
  rw [pointed]
  constructor
  · intro hl
    refine ⟨value (ws ++ fs) * 10 ^ (n - fs.length), ?_⟩
    rw [Nat.cast_mul, Nat.cast_pow, Nat.cast_ofNat, div_mul_eq_mul_div, div_eq_iff (ten_pow_ne _), mul_assoc,
      ← pow_add, Nat.sub_add_cancel hl]
  · intro ⟨m, hm⟩
    by_contra hl
    have hne : fs ≠ [] := by rintro rfl; simp at hl
    have hpow : (10 : ℚ) ^ fs.length = 10 ^ (fs.length - n) * 10 ^ n := by rw [← pow_add]; congr 1; omega
    have hv : value (ws ++ fs) = m * 10 ^ (fs.length - n) := by
      rw [hpow, div_mul_eq_mul_div, mul_div_mul_right _ _ (ten_pow_ne n), div_eq_iff (ten_pow_ne _)] at hm
      exact_mod_cast hm
    refine not_dvd_value (hw.append hf) (by simp [hne]) (hz.append hne) ?_
    rw [hv]
    exact Dvd.dvd.mul_left (dvd_pow_self 10 (by omega)) m

-- No number is written in two ways.
theorem pointed_inj (hw : AllDigits ws) (hf : AllDigits fs) (hn : ws ≠ []) (hl : NoLeadingZero ws)
    (ht : NoTrailingZero fs) (hw' : AllDigits ws') (hf' : AllDigits fs') (hn' : ws' ≠ [])
    (hl' : NoLeadingZero ws') (ht' : NoTrailingZero fs') (hv : pointed ws fs = pointed ws' fs') :
    ws = ws' ∧ fs = fs' := by
  have h₁ : fs'.length ≤ fs.length := (fraction_length_le_iff hw' hf' ht').mpr <| by
    rw [← hv]
    exact (fraction_length_le_iff hw hf ht).mp le_rfl
  have h₂ : fs.length ≤ fs'.length := (fraction_length_le_iff hw hf ht).mpr <| by
    rw [hv]
    exact (fraction_length_le_iff hw' hf' ht').mp le_rfl
  have hlen : fs.length = fs'.length := le_antisymm h₂ h₁
  have hval : value (ws ++ fs) = value (ws' ++ fs') := by
    rw [pointed, pointed, hlen, div_left_inj' (ten_pow_ne _)] at hv
    exact_mod_cast hv
  rw [value_append, value_append, hlen] at hval
  have hlt := value_lt hf
  have hlt' := value_lt hf'
  have hp : 0 < 10 ^ fs'.length := Nat.pow_pos (by decide)
  rw [hlen] at hlt
  have hwv : value ws = value ws' := by
    have hdiv := congrArg (· / 10 ^ fs'.length) hval
    simpa only [Nat.mul_add_div hp, Nat.div_eq_of_lt hlt, Nat.div_eq_of_lt hlt', Nat.add_zero] using hdiv
  have hfv : value fs = value fs' := by rw [hwv] at hval; exact Nat.add_left_cancel hval
  exact ⟨eq_of_value_canonical hw hw' hn hn' hl hl' hwv, eq_of_value hf hf' hlen hfv⟩

end Pointed

end Digits
