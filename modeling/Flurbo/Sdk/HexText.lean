import Flurbo.Sdk.Abi

-- Hexadecimal texts in lower case, of which the value and the length determine each other.

open Except

namespace Sdk

section Text

variable {s t : List Char} {c : Char} {width n : ℕ}

def LowerHex (s : List Char) : Prop := ∀ c ∈ s, Ts.isLowerHexdigit c

instance (s : List Char) : Decidable (LowerHex s) := List.decidableBAll _ s

-- The lower-case digits of a number at a width.
def hexText (width n : ℕ) : List Char := (Words.fixed 16 width n).map Nat.digitChar

theorem isLowerHexdigit_iff : Ts.isLowerHexdigit c ↔ Rust.isAsciiHexdigit c ∧ c.toLower = c := by
  have hcode : Ts.isLowerHexdigit c ↔ (48 ≤ c.toNat ∧ c.toNat ≤ 57) ∨ (97 ≤ c.toNat ∧ c.toNat ≤ 102) := by
    simp only [Ts.isLowerHexdigit, Bool.or_eq_true, Bool.and_eq_true, decide_eq_true_eq, le_iff_toNat,
      Char.reduceToNat]
  rw [hcode, isAsciiHexdigit_iff]
  have hsmall : ∀ n < 103, (Char.ofNat n).toLower = Char.ofNat n ↔ ¬ (65 ≤ n ∧ n ≤ 90) := by decide
  refine ⟨fun h => ⟨by omega, ?_⟩, fun ⟨h, hl⟩ => ?_⟩
  · have := (hsmall c.toNat (by omega)).mpr (by omega)
    rwa [Char.ofNat_toNat] at this
  · have := (hsmall c.toNat (by omega)).mp (by rwa [Char.ofNat_toNat])
    omega

theorem LowerHex.allHex (h : LowerHex s) : AllHex s := fun c hc => (isLowerHexdigit_iff.mp (h c hc)).left

theorem LowerHex.append (h : LowerHex s) (h' : LowerHex t) : LowerHex (s ++ t) := fun c hc =>
  (List.mem_append.mp hc).elim (h c) (h' c)

theorem LowerHex.drop (h : LowerHex s) (n : ℕ) : LowerHex (s.drop n) := fun c hc => h c (List.mem_of_mem_drop hc)

theorem LowerHex.take (h : LowerHex s) (n : ℕ) : LowerHex (s.take n) := fun c hc => h c (List.mem_of_mem_take hc)

theorem lowerHex_zeros (n : ℕ) : LowerHex (List.replicate n '0') := fun c hc => by
  rw [List.eq_of_mem_replicate hc]
  decide

theorem digitChar_spec : ∀ n < 16, Ts.isLowerHexdigit n.digitChar ∧ nibble n.digitChar = n := by decide

theorem digitChar_nibble (h : Ts.isLowerHexdigit c) : (nibble c).digitChar = c := by
  have hcode : c.toNat < 103 := by
    have := isAsciiHexdigit_iff.mp (isLowerHexdigit_iff.mp h).left
    omega
  have : ∀ n < 103, Ts.isLowerHexdigit (Char.ofNat n) → (nibble (Char.ofNat n)).digitChar = Char.ofNat n := by
    decide
  have := this c.toNat hcode
  rw [Char.ofNat_toNat] at this
  exact this h

theorem length_hexText (width n : ℕ) : (hexText width n).length = width := by
  rw [hexText, List.length_map, Words.length_fixed]

theorem lowerHex_hexText (width n : ℕ) : LowerHex (hexText width n) :=
  List.forall_mem_map.mpr fun _ hw => (digitChar_spec _ (Words.fits_fixed (by decide) _ hw)).left

theorem map_nibble_hexText (width n : ℕ) : (hexText width n).map nibble = Words.fixed 16 width n := by
  rw [hexText, List.map_map]
  have h : ∀ w ∈ Words.fixed 16 width n, nibble w.digitChar = w := fun w hw =>
    (digitChar_spec w (Words.fits_fixed (by decide) w hw)).right
  exact (List.map_congr_left h).trans (List.map_id _)

theorem hexValue_hexText (h : n < 16 ^ width) : hexValue (hexText width n) = n := by
  rw [hexValue, map_nibble_hexText, Words.value_fixed h]

theorem fits_nibbles (s : List Char) : Words.Fits 16 (s.map nibble) :=
  List.forall_mem_map.mpr fun c _ => nibble_lt c

theorem hexValue_lt (s : List Char) : hexValue s < 16 ^ s.length := by
  have := Words.value_lt (fits_nibbles s)
  rwa [List.length_map] at this

-- A text in lower case is determined by its length and its value.
theorem eq_hexText (h : LowerHex s) (hl : s.length = width) (hv : hexValue s = n) : s = hexText width n := by
  have hs : s = (s.map nibble).map Nat.digitChar := by
    rw [List.map_map]
    have hd : ∀ c ∈ s, (nibble c).digitChar = c := fun c hc => digitChar_nibble (h c hc)
    exact ((List.map_congr_left hd).trans (List.map_id _)).symm
  have hn : n < 16 ^ width := by
    rw [← hv, ← hl]
    exact hexValue_lt s
  have hw : s.map nibble = Words.fixed 16 width n := by
    refine Words.eq_of_value (fits_nibbles s) (Words.fits_fixed (by decide)) ?_ ?_
    · rw [List.length_map, Words.length_fixed, hl]
    · rw [Words.value_fixed hn, ← hv, hexValue]
  rw [hs, hw, hexText]

theorem hexValue_zeros_append (k : ℕ) (s : List Char) : hexValue (List.replicate k '0' ++ s) = hexValue s := by
  rw [hexValue, List.map_append, List.map_replicate, nibble_zero, Words.value_append, Words.value_zeros,
    Nat.zero_mul, Nat.zero_add, hexValue]

-- Leading zeros make a text wider.
theorem zeros_append_hexText (h : n < 16 ^ width) (k : ℕ) :
    List.replicate k '0' ++ hexText width n = hexText (k + width) n := by
  refine eq_hexText ((lowerHex_zeros k).append (lowerHex_hexText width n)) ?_ ?_
  · rw [List.length_append, List.length_replicate, length_hexText]
  · rw [hexValue_zeros_append, hexValue_hexText h]

theorem lowerHex_toDigits (n : ℕ) : LowerHex (Nat.toDigits 16 n) ∧ hexValue (Nat.toDigits 16 n) = n := by
  induction n using Nat.strong_induction_on
  case h n hi =>
    have hdigit (n : ℕ) (h : n < 16) : LowerHex [n.digitChar] ∧ hexValue [n.digitChar] = n := by
      obtain ⟨hl, hv⟩ := digitChar_spec n h
      refine ⟨List.forall_mem_singleton.mpr hl, ?_⟩
      rw [hexValue, List.map_singleton, hv, Words.value_cons, Words.value_nil]
      simp
    rw [Nat.toDigits_eq_if (by decide)]
    split
    case isTrue h  => exact hdigit n h
    case isFalse h =>
      obtain ⟨hl, hv⟩ := hi (n / 16) (by omega)
      obtain ⟨hl', hv'⟩ := hdigit (n % 16) (by omega)
      refine ⟨hl.append hl', ?_⟩
      rw [hexValue] at hv hv' ⊢
      rw [List.map_append, Words.value_append, hv, hv']
      simp only [List.map_singleton, List.length_singleton, pow_one]
      exact Nat.div_add_mod' n 16

theorem padded_eq (hw : 0 < width) (h : n < 16 ^ width) : Ts.padded width n = hexText width n := by
  have ⟨hl, hv⟩ := lowerHex_toDigits n
  have hlen : (Nat.toDigits 16 n).length ≤ width := (Nat.length_toDigits_le_iff (by decide) hw).mpr h
  rw [Ts.padded]
  refine eq_hexText ((lowerHex_zeros _).append hl) ?_ ?_
  · rw [List.length_append, List.length_replicate]
    omega
  · rw [hexValue_zeros_append, hv]

end Text

section Words

open U256

variable {v : U256} {n : ℕ}

theorem wordHex_eq (v : U256) : Rust.wordHex v = hexText 64 v.toNat := by
  have ⟨_, hlen, hval⟩ := wordHex_spec v
  refine eq_hexText (fun c hc => ?_) hlen hval
  obtain ⟨b, hb, hc⟩ := List.mem_flatMap.mp hc
  have hall : ∀ b ∈ List.range 256, LowerHex (Rust.hex02 b) := by decide +kernel
  exact hall b (List.mem_range.mpr (v.fits b hb)) c hc

theorem toNat_fromU128 (h : n < 2 ^ 128) : (fromU128 n).toNat = n := by
  have h' : n < 256 ^ 16 := h
  rw [U256.toNat, fromU128, Words.value_append, Words.value_zeros, Nat.zero_mul, Nat.zero_add, Words.value_fixed h']

theorem lt_bits_iff (v : U256) (k : ℕ) : k < Rust.bits v ↔ 2 ^ k ≤ v.toNat := by
  rw [rust_bits_eq, Nat.lt_size]

theorem cpp_bits_eq_rust : Cpp.bits = Rust.bits := by
  funext v
  rw [cpp_bits_eq, rust_bits_eq]

theorem isZero_iff : v.isZero ↔ v.toNat = 0 := by
  rw [isZero, List.all_eq_true, U256.toNat, Words.value_eq_zero_iff (by decide)]
  simp

theorem toU128_eq (h : v.toNat < 2 ^ 128) : Rust.toU128 v = some v.toNat := by
  rw [Rust.toU128, if_neg (by rw [lt_bits_iff]; omega)]
  have hsplit : Words.value 256 (v.bytes.take 16) * 256 ^ 16 + Words.value 256 (v.bytes.drop 16) = v.toNat := by
    rw [U256.toNat, ← List.take_append_drop 16 v.bytes, Words.value_append, List.take_append_drop, List.length_drop,
      v.length_eq]
  have hlow : 256 ^ 16 = 2 ^ 128 := by decide
  have hzero : Words.value 256 (v.bytes.take 16) = 0 := by
    by_contra hne
    have := Nat.mul_le_mul_right (256 ^ 16) (Nat.one_le_iff_ne_zero.mpr hne)
    omega
  rw [hzero, Nat.zero_mul, Nat.zero_add] at hsplit
  rw [hsplit]

theorem toU128_eq_cpp : Cpp.toU128 = Rust.toU128 := by
  funext v
  rw [Cpp.toU128, Rust.toU128, cpp_bits_eq_rust]

theorem hex02_length {b : ℕ} (h : b < 256) : (Rust.hex02 b).length = 2 := by
  rw [(hex02_eq h).left]
  rfl

theorem flatMap_hex02_drop {bytes : List ℕ} (h : Words.Fits 256 bytes) (k : ℕ) :
    (bytes.flatMap Rust.hex02).drop (2 * k) = (bytes.drop k).flatMap Rust.hex02 := by
  induction bytes generalizing k
  case nil             => simp
  case cons b bytes hi =>
    have ⟨hb, h⟩ := h.cons
    match k with
    | 0     => rfl
    | k + 1 =>
      rw [List.flatMap_cons, List.drop_succ_cons, ← hi h, Nat.mul_succ, Nat.add_comm, ← List.drop_drop,
        List.drop_left' (hex02_length hb)]

theorem addressText_eq (h : v.toNat < 2 ^ 160) : Rust.addressText v = Ts.addressFromWord v.toNat ∧
    Cpp.addressText v = Ts.addressFromWord v.toNat := by
  have h' : v.toNat < 16 ^ 40 := h
  have hdrop : (Rust.wordHex v).drop 24 = hexText 40 v.toNat := by
    rw [wordHex_eq, ← zeros_append_hexText h' 24, List.drop_left' (by simp)]
  rw [Rust.addressText, Cpp.addressText, Ts.addressFromWord, padded_eq (by decide) h', cpp_wordHex_eq, hdrop,
    ← flatMap_hex02_drop v.fits 12, ← Rust.wordHex, hdrop]
  exact ⟨rfl, rfl⟩

end Words

-- What is documented of the conversion to lower case in TypeScript and in Rust: texts of ASCII are converted
-- letter by letter, and no text with another character becomes one of hexadecimal digits and the letter x.
structure LowerCase (lower : List Char → List Char) : Prop where
  ascii (s : List Char) : (∀ c ∈ s, c.toNat < 128) → lower s = s.map Char.toLower
  hex (s : List Char)   : (∀ c ∈ lower s, Rust.isAsciiHexdigit c ∨ c = 'x') → ∀ c ∈ s, c.toNat < 128

-- The marker, and then hexadecimal digits.
def Hexed (s : List Char) : Prop := ['0', 'x'].isPrefixOf s ∧ AllHex (s.drop 2)

instance (s : List Char) : Decidable (Hexed s) := inferInstanceAs (Decidable (_ ∧ _))

section Case

variable {lower : List Char → List Char} {s : List Char} {c : Char}

theorem toLower_eq_self (h : ¬ c.toNat < 128) : c.toLower = c := by
  refine dif_neg fun hc => h ?_
  have : c.toNat ≤ 'Z'.toNat := hc.right
  exact this.trans_lt (by decide)

theorem toLower_toLower (c : Char) : c.toLower.toLower = c.toLower := by
  by_cases h : c.toNat < 128
  case neg => rw [toLower_eq_self h, toLower_eq_self h]
  case pos =>
    have : ∀ n < 128, (Char.ofNat n).toLower.toLower = (Char.ofNat n).toLower := by decide
    have := this c.toNat h
    rwa [Char.ofNat_toNat] at this

theorem lowerCase_cpp : LowerCase Cpp.lower where
  ascii := fun _ _ => rfl
  hex   := fun s hs c hc => by
    by_contra hn
    have := hs c (List.mem_map.mpr ⟨c, hc, toLower_eq_self hn⟩)
    rw [isAsciiHexdigit_iff] at this
    obtain h | rfl := this
    · omega
    · exact hn (by decide)

theorem Hexed.digits (h : Hexed s) : ∀ c ∈ s, Rust.isAsciiHexdigit c ∨ c = 'x' := by
  obtain ⟨t, rfl⟩ := List.isPrefixOf_iff_prefix.mp h.left
  intro c hc
  obtain hc | hc := List.mem_append.mp hc
  · simp only [List.mem_cons, List.not_mem_nil, or_false] at hc
    exact hc.imp (fun h => by rw [h]; decide) id
  · exact .inl (h.right c hc)

theorem LowerCase.eq_cpp (hl : LowerCase lower) (h : Hexed (lower s)) : lower s = Cpp.lower s :=
  hl.ascii s (hl.hex s h.digits)

theorem LowerCase.hexed_iff (hl : LowerCase lower) : Hexed (lower s) ↔ Hexed (Cpp.lower s) := by
  refine ⟨fun h => hl.eq_cpp h ▸ h, fun h => ?_⟩
  rwa [hl.ascii s (lowerCase_cpp.hex s h.digits)]

theorem LowerCase.lowerHex (hl : LowerCase lower) (h : Hexed (lower s)) : LowerHex ((lower s).drop 2) := by
  intro c hc
  refine isLowerHexdigit_iff.mpr ⟨h.right c hc, ?_⟩
  have hm := List.mem_of_mem_drop hc
  rw [hl.eq_cpp h] at hm
  obtain ⟨d, _, rfl⟩ := List.mem_map.mp hm
  exact toLower_toLower d

theorem LowerCase.isHex_iff (hl : LowerCase lower) : Ts.isHex (lower s) ↔ Hexed (lower s) := by
  rw [Ts.isHex, Bool.and_eq_true, List.all_eq_true]
  refine ⟨fun h => ⟨h.left, LowerHex.allHex h.right⟩, fun h => ⟨h.left, hl.lowerHex h⟩⟩

theorem hexval_nonneg_iff : 0 ≤ Cpp.hexval c ↔ Rust.isAsciiHexdigit c := by
  rw [hexval_eq]
  split <;> simp [*]

theorem hexData_iff : Cpp.hexData s ↔ Hexed s := by
  simp only [Cpp.hexData, Bool.and_eq_true, List.all_eq_true, decide_eq_true_eq, hexval_nonneg_iff, Hexed, AllHex]

theorem lowerHex_eq : Rust.lowerHex lower s = if Hexed (lower s) then some (lower s) else none := by
  simp only [Rust.lowerHex]
  refine if_congr ?_ rfl rfl
  simp only [Bool.and_eq_true, List.all_eq_true, Hexed, AllHex]

end Case

section Slices

open U256

variable {body rest word : List Char} {i k n : ℕ} {kinds : List Kind} {ns : List ℕ}

theorem length_slice (h : (i + 1) * 64 ≤ body.length) : (slice body i).length = 64 := by
  rw [slice, List.length_take, List.length_drop]
  omega

theorem slice_append_zero (h : word.length = 64) : slice (word ++ rest) 0 = word := by
  rw [slice, Nat.zero_mul, List.drop_zero, List.take_left' h]

theorem slice_append_succ (h : word.length = 64) : slice (word ++ rest) (i + 1) = slice rest i := by
  rw [slice, slice, Nat.succ_mul, Nat.add_comm, ← List.drop_drop, List.drop_left' h]

theorem allHex_slice (h : AllHex body) (i : ℕ) : AllHex (slice body i) := fun c hc =>
  h c (List.mem_of_mem_drop (List.mem_of_mem_take hc))

theorem hexValue_slice_lt (body : List Char) (i : ℕ) : hexValue (slice body i) < 2 ^ 256 := by
  refine (hexValue_lt _).trans_le ?_
  rw [show 2 ^ 256 = 16 ^ 64 by decide]
  exact Nat.pow_le_pow_right (by decide) (List.length_take_le 64 _)

theorem fromHex_slice (h : AllHex body) (hi : (i + 1) * 64 ≤ body.length) :
    ∃ v, Rust.fromHex (slice body i) = some v ∧ v.toNat = hexValue (slice body i) := by
  have hlen := length_slice hi
  have hu := unprefixed_of_allHex (allHex_slice h i)
  obtain ⟨v, hv, hval⟩ := fromHex_of_allHex (by rw [hu]; exact allHex_slice h i)
    (by rw [hu]; exact List.ne_nil_of_length_pos (by omega)) (by rw [hu, hlen])
  exact ⟨v, hv, hval.trans (by rw [hu])⟩

-- The numbers of the words, in order.
def numbers (body : List Char) (n : ℕ) : List ℕ := (List.range n).map fun i => hexValue (slice body i)

theorem mapIdx_eq (kinds : List Kind) (body : List Char) :
    (kinds.mapIdx fun i _ => hexValue (slice body i)) = numbers body kinds.length := by
  refine List.ext_getElem (by simp [numbers]) fun j _ _ => ?_
  simp [numbers]

theorem numbers_append (h : word.length = 64) : numbers (word ++ rest) (n + 1) = hexValue word :: numbers rest n := by
  rw [numbers, List.range_succ_eq_map, List.map_cons, List.map_map, slice_append_zero h]
  congr 1
  refine List.map_congr_left fun i _ => ?_
  rw [Function.comp_apply, slice_append_succ h]

theorem flatMap_numbers (h : LowerHex body) (hl : body.length = n * 64) : (numbers body n).flatMap (hexText 64) = body := by
  induction n generalizing body
  case zero      =>
    rw [Nat.zero_mul] at hl
    exact (List.length_eq_zero_iff.mp hl).symm
  case succ n hi =>
    have hlen : (body.take 64).length = 64 := by rw [List.length_take]; omega
    have hrest : (body.drop 64).length = n * 64 := by rw [List.length_drop]; omega
    have hword := eq_hexText (h.take 64) hlen rfl
    conv_lhs => rw [← List.take_append_drop 64 body, numbers_append hlen, List.flatMap_cons, hi (h.drop 64) hrest,
      ← hword, List.take_append_drop]

theorem numbers_flatMap (h : ∀ n ∈ ns, n < 2 ^ 256) : numbers (ns.flatMap (hexText 64)) ns.length = ns := by
  induction ns
  case nil          => rfl
  case cons n ns hi =>
    have ⟨hn, h⟩ := List.forall_mem_cons.mp h
    rw [List.flatMap_cons, List.length_cons, numbers_append (length_hexText 64 n), hi h, hexValue_hexText hn]

theorem length_flatMap (ns : List ℕ) : (ns.flatMap (hexText 64)).length = ns.length * 64 := by
  rw [List.length_flatMap]
  simp [length_hexText]

theorem lowerHex_flatMap (ns : List ℕ) : LowerHex (ns.flatMap (hexText 64)) := by
  intro c hc
  obtain ⟨n, _, hc⟩ := List.mem_flatMap.mp hc
  exact lowerHex_hexText 64 n c hc

theorem readArg_eq (h : AllHex body) {kind : Kind} (hi : (i + 1) * 64 ≤ body.length) :
    ∃ v, v.toNat = hexValue (slice body i) ∧ Rust.readArg body (kind, i) =
      if 2 ^ kind.bits ≤ hexValue (slice body i) then .error (.invalidInput "Non-canonical calldata.") else .ok v := by
  obtain ⟨v, hv, hval⟩ := fromHex_slice h hi
  refine ⟨v, hval, ?_⟩
  rw [Rust.readArg, hv, unwrap, ok_bind, pure_eq_ok]
  exact if_congr (by rw [lt_bits_iff, hval]) rfl rfl

theorem cpp_readArg_eq : Cpp.readArg = Rust.readArg := by
  funext body ⟨kind, i⟩
  rw [Cpp.readArg, Rust.readArg, cpp_bits_eq_rust, rust_fromHex_eq]

theorem readArgs_eq (h : AllHex body) (hl : (k + kinds.length) * 64 ≤ body.length) :
    (List.map toNat) <$> (kinds.zipIdx k).mapM (Rust.readArg body) =
      let ns := (List.range kinds.length).map fun i => hexValue (slice body (k + i))
      if (ns.zip kinds).any fun (v, kind) => 2 ^ kind.bits ≤ v then
        .error (.invalidInput "Non-canonical calldata.")
      else
        .ok ns := by
  induction kinds generalizing k
  case nil                => rfl
  case cons kind kinds hi =>
    rw [List.length_cons] at hl
    have hi := @hi (k + 1) (by omega)
    obtain ⟨v, hval, hv⟩ := @readArg_eq body k h kind (by omega)
    have hcomp : (fun i => hexValue (slice body (k + i))) ∘ Nat.succ = fun i => hexValue (slice body (k + 1 + i)) := by
      funext i
      rw [Function.comp_apply, Nat.add_succ, Nat.succ_add]
    simp only [List.zipIdx_cons, List.mapM_cons, hv, List.length_cons, List.range_succ_eq_map, List.map_cons,
      List.map_map, List.zip_cons_cons, List.any_cons, Nat.add_zero, hcomp]
    by_cases hk : 2 ^ kind.bits ≤ hexValue (slice body k)
    case pos => simp [hk]
    case neg =>
      simp only [hk, if_false, ok_bind, decide_false, Bool.false_or]
      have hcons (x : Except FlurboError (List U256)) :
          (List.map toNat) <$> (x >>= fun vs => pure (v :: vs)) = (v.toNat :: ·) <$> ((List.map toNat) <$> x) := by
        cases x <;> rfl
      rw [hcons, hi, hval]
      simp only
      split <;> rfl

end Slices

end Sdk
