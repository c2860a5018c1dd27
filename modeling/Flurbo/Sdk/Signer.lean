import Flurbo.Library.Fallible
import Flurbo.Library.Rlp
import Flurbo.Sdk.U256

-- What is signed for a transaction. Texts are lists of characters, one for each byte.

open Except

namespace Sdk

inductive SignerError
  | invalid (message : String)
  | panicked
  deriving DecidableEq

-- The length of a text is a signed word of 64 bits.
structure Tx1559 where
  chainId              : BitVec 64
  nonce                : BitVec 64
  recipient            : List Char
  data                 : List Char
  value                : BitVec 128
  gas                  : BitVec 128
  maxFeePerGas         : BitVec 128
  maxPriorityFeePerGas : BitVec 128
  recipient_lt         : recipient.length < 2 ^ 63
  data_lt              : data.length < 2 ^ 63

namespace Rust

-- The bytes of a character after its first one. No slice starts or ends before such a byte.
def isContinuation (c : Char) : Bool := 128 ≤ c.toNat && c.toNat < 192

-- `&h[i..i + 2]` for every second `i`, up to the first pair that is not read.
def fromHexPairs : List Char → Except SignerError (List ℕ)
  | []           => .ok []
  | [_]          => .error .panicked
  | c :: d :: cs =>
    if cs.head?.any isContinuation then
      .error .panicked
    else
      match u8FromStrRadix16 [c, d] with
      | none   => .error (.invalid "Invalid hex.")
      | some b => do return b :: (← fromHexPairs cs)

def fromHexBytes (s : List Char) : Except SignerError (List ℕ) :=
  if ¬ ['0', 'x'].isPrefixOf s then
    .error (.invalid "Expected 0x-prefixed hex.")
  else if (s.drop 2).length % 2 ≠ 0 then
    .error (.invalid "Expected an even number of hex digits.")
  else
    fromHexPairs (s.drop 2)

def rlpLen (length offset : ℕ) : Except SignerError (List ℕ) :=
  if length < 56 then
    .ok [offset + length % 256]
  else
    let be := Words.fixed 256 8 (length % 2 ^ 64)
    match be.findIdx? (· ≠ 0) with
    | none       => .error .panicked
    | some start => .ok ((offset + 55 + (8 - start) % 256) :: be.drop start)

def rlpBytes (b : List ℕ) : Except SignerError (List ℕ) :=
  match b with
  | [x] => if x < 128 then .ok [x] else do return (← rlpLen 1 128) ++ [x]
  | b   => do return (← rlpLen b.length 128) ++ b

def rlpUint (v : BitVec 128) : Except SignerError (List ℕ) :=
  let be := Words.fixed 256 16 v.toNat
  rlpBytes (be.drop ((be.findIdx? (· ≠ 0)).getD 16))

def rlpList (items : List ℕ) : Except SignerError (List ℕ) := do
  return (← rlpLen items.length 192) ++ items

def fields (tx : Tx1559) : Except SignerError (List ℕ) := do
  let recipient ← fromHexBytes tx.recipient
  if recipient.length ≠ 20 then
    .error (.invalid "Invalid recipient.")
  else do
    let chainId ← rlpUint (tx.chainId.zeroExtend 128)
    let nonce ← rlpUint (tx.nonce.zeroExtend 128)
    let maxPriorityFeePerGas ← rlpUint tx.maxPriorityFeePerGas
    let maxFeePerGas ← rlpUint tx.maxFeePerGas
    let gas ← rlpUint tx.gas
    let recipient ← rlpBytes recipient
    let value ← rlpUint tx.value
    let data ← rlpBytes (← fromHexBytes tx.data)
    -- The access list is empty.
    return chainId ++ nonce ++ maxPriorityFeePerGas ++ maxFeePerGas ++ gas ++ recipient ++ value ++ data ++ [192]

def unsignedSerialized (tx : Tx1559) : Except SignerError (List ℕ) := do
  return 2 :: (← rlpList (← fields tx))

end Rust

namespace Cpp

def fromHexPairs : List Char → Except SignerError (List ℕ)
  | c :: d :: cs =>
    if hexval c < 0 ∨ hexval d < 0 then
      .error (.invalid "Invalid hex.")
    else do
      return ((hexval c * 16 + hexval d) % 256).toNat :: (← fromHexPairs cs)
  | _            => .ok []

def fromHexBytes (s : List Char) : Except SignerError (List ℕ) :=
  if ¬ ['0', 'x'].isPrefixOf s ∨ s.length % 2 ≠ 0 then
    .error (.invalid "Expected 0x-prefixed hex with an even number of digits.")
  else
    fromHexPairs (s.drop 2)

-- `for (; v; v >>= 8) be.insert(be.begin(), v & 0xff)`
def bigEndian (v : ℕ) : List ℕ :=
  if v = 0 then [] else bigEndian (v >>> 8) ++ [v &&& 255]
termination_by v
decreasing_by
  rw [Nat.shiftRight_eq_div_pow]
  exact Nat.div_lt_self (Nat.pos_of_ne_zero ‹_›) (by decide)

def rlpLen (length offset : ℕ) : List ℕ :=
  if length < 56 then
    [(offset + length) % 256]
  else
    (offset + 55 + (bigEndian length).length) % 256 :: bigEndian length

def rlpBytes (b : List ℕ) : List ℕ :=
  match b with
  | [x] => if x < 128 then [x] else rlpLen 1 128 ++ [x]
  | b   => rlpLen b.length 128 ++ b

def rlpUint (v : BitVec 128) : List ℕ := rlpBytes (bigEndian v.toNat)

def rlpList (items : List ℕ) : List ℕ := rlpLen items.length 192 ++ items

def fields (tx : Tx1559) : Except SignerError (List ℕ) := do
  let recipient ← fromHexBytes tx.recipient
  if recipient.length ≠ 20 then
    .error (.invalid "Invalid recipient.")
  else do
    let data ← fromHexBytes tx.data
    return rlpUint (tx.chainId.zeroExtend 128) ++ rlpUint (tx.nonce.zeroExtend 128) ++
      rlpUint tx.maxPriorityFeePerGas ++ rlpUint tx.maxFeePerGas ++ rlpUint tx.gas ++ rlpBytes recipient ++
      rlpUint tx.value ++ rlpBytes data ++ [192]

def unsignedSerialized (tx : Tx1559) : Except SignerError (List ℕ) := do
  return 2 :: rlpList (← fields tx)

end Cpp

section Encoding

variable {length offset v : ℕ} {b : List ℕ}

theorem drop_findIdx {α : Type} {p : α → Bool} {l : List α} {n : ℕ} (h : l.length ≤ n) :
    l.drop ((l.findIdx? p).getD n) = l.dropWhile (!p ·) := by
  induction l generalizing n
  case nil         => simp
  case cons a l hi =>
    rw [List.findIdx?_cons]
    cases hp : p a
    case true  => simp [hp]
    case false =>
      have hl : l.length ≤ n - 1 := by simp only [List.length_cons] at h; omega
      have hn : n = n - 1 + 1 := by simp only [List.length_cons] at h; omega
      have hi := hi hl
      rw [List.dropWhile_cons_of_pos (by simp [hp]), ← hi, if_neg (by simp)]
      cases l.findIdx? p
      case none   => rw [Option.map_none, Option.getD_none, Option.getD_none, hn, List.drop_succ_cons]; rfl
      case some i => rfl

theorem not_ne_zero : (fun w : ℕ => !decide (w ≠ 0)) = fun w => decide (w = 0) := by
  funext w
  simp

theorem rust_rlpLen_eq (h : length < 2 ^ 64) : Rust.rlpLen length offset = .ok (Rlp.header offset length) := by
  rw [Rust.rlpLen, Rlp.header]
  split
  case isTrue hl  => rw [Nat.mod_eq_of_lt (by omega)]
  case isFalse hl =>
    have hdrop := drop_findIdx (p := (· ≠ 0)) (l := Words.fixed 256 8 length) (n := 8) (by simp [Words.fixed])
    have h' : length < 256 ^ 8 := h
    rw [not_ne_zero, Words.dropWhile_fixed (by decide) h'] at hdrop
    rw [Nat.mod_eq_of_lt h]
    cases hf : (Words.fixed 256 8 length).findIdx? (· ≠ 0)
    case none   =>
      rw [hf, Option.getD_none, List.drop_of_length_le (by simp [Words.fixed])] at hdrop
      have := Words.value_minimal 256 length
      rw [← hdrop, Words.value_nil] at this
      omega
    case some i =>
      rw [hf, Option.getD_some] at hdrop
      have hlen : (Words.minimal 256 length).length = 8 - i := by rw [← hdrop]; simp [Words.fixed]
      simp only [hf]
      rw [hdrop, hlen, Nat.mod_eq_of_lt (by omega)]

theorem cpp_bigEndian_eq : Cpp.bigEndian v = Words.minimal 256 v := by
  induction v using Nat.strong_induction_on
  case h v hi =>
    rw [Cpp.bigEndian]
    split
    case isTrue h  => rw [h]; simp [Words.minimal]
    case isFalse h =>
      have hdiv : v >>> 8 = v / 256 := Nat.shiftRight_eq_div_pow v 8
      rw [Words.minimal_rec (by decide) h, ← hi _ (Nat.div_lt_self (Nat.pos_of_ne_zero h) (by decide)), hdiv,
        show 255 = 2 ^ 8 - 1 by decide, Nat.and_two_pow_sub_one_eq_mod]

theorem cpp_rlpLen_eq (h : length < 2 ^ 64) (ho : offset ≤ 192) :
    Cpp.rlpLen length offset = Rlp.header offset length := by
  have h' : length < 256 ^ 8 := h
  have hlen := Words.length_minimal_le (by decide) h'
  rw [Cpp.rlpLen, Rlp.header, cpp_bigEndian_eq]
  split
  case isTrue hl => rw [Nat.mod_eq_of_lt (by omega)]
  case isFalse   => rw [Nat.mod_eq_of_lt (by omega)]

theorem rust_rlpBytes_eq (h : b.length < 2 ^ 64) : Rust.rlpBytes b = .ok (Rlp.encodeBytes b) := by
  match b with
  | []          => rfl
  | [x]         =>
    rw [Rust.rlpBytes, Rlp.encodeBytes, rust_rlpLen_eq (by decide)]
    split <;> rfl
  | x :: y :: b =>
    rw [Rust.rlpBytes, Rlp.encodeBytes, rust_rlpLen_eq h]
    · rfl
    · simp
    · simp

theorem cpp_rlpBytes_eq (h : b.length < 2 ^ 64) : Cpp.rlpBytes b = Rlp.encodeBytes b := by
  match b with
  | []          => rfl
  | [x]         => rw [Cpp.rlpBytes, Rlp.encodeBytes, cpp_rlpLen_eq (by decide) (by decide)]
  | x :: y :: b =>
    rw [Cpp.rlpBytes, Rlp.encodeBytes, cpp_rlpLen_eq h (by decide)]
    · simp
    · simp

theorem rlpUint_eq (v : BitVec 128) : Rust.rlpUint v = .ok (Rlp.encode (.number v.toNat)) ∧
    Cpp.rlpUint v = Rlp.encode (.number v.toNat) := by
  have hdrop := drop_findIdx (p := (· ≠ 0)) (l := Words.fixed 256 16 v.toNat) (n := 16) (by simp [Words.fixed])
  have hlt : v.toNat < 256 ^ 16 := v.isLt
  have hlen := Words.length_minimal_le (by decide) hlt
  rw [not_ne_zero, Words.dropWhile_fixed (by decide) hlt] at hdrop
  rw [Rust.rlpUint, Cpp.rlpUint, hdrop, cpp_bigEndian_eq, rust_rlpBytes_eq (by omega), cpp_rlpBytes_eq (by omega),
    Rlp.Item.number, Rlp.encode]
  exact ⟨rfl, rfl⟩

end Encoding

section Texts

variable {s : List Char} {c d : Char}

-- The bytes that pairs of digits stand for. A sign counts as a zero.
def bytesOf (s : List Char) : List ℕ := Words.pairs 16 (s.map nibble)

-- The pairs that `u8::from_str_radix` reads: a digit may be replaced by a plus sign before another.
def ReadsPair (c d : Char) : Prop := (c = '+' ∨ Rust.isAsciiHexdigit c) ∧ Rust.isAsciiHexdigit d

instance (c d : Char) : Decidable (ReadsPair c d) := inferInstanceAs (Decidable (_ ∧ _))

-- Every pair is read.
def ReadsAsHex : List Char → Bool
  | []           => true
  | [_]          => false
  | c :: d :: cs => ReadsPair c d && ReadsAsHex cs

-- A pair ends within a character, after pairs that are read.
def Cuts : List Char → Bool
  | c :: d :: cs => cs.head?.any Rust.isContinuation || (ReadsPair c d && Cuts cs)
  | _            => false

theorem u8FromStrRadix16_of_reads (h : ReadsPair c d) :
    Rust.u8FromStrRadix16 [c, d] = some (nibble c * 16 + nibble d) := by
  obtain ⟨rfl | hc, hd⟩ := h
  case inl =>
    have hlt := nibble_lt d
    have hplus : nibble '+' = 0 := rfl
    simp only [Rust.u8FromStrRadix16, if_pos, List.foldlM_cons, List.foldlM_nil, toDigit16_eq hd,
      Option.bind_eq_bind, Option.bind_some, Nat.zero_mul, Nat.zero_add, hplus]
    rw [if_pos (by omega)]
    rfl
  case inr => exact u8FromStrRadix16_pair hc hd

theorem toDigit16_eq_none (h : ¬ Rust.isAsciiHexdigit c) : Rust.toDigit16 c = none :=
  Option.not_isSome_iff_eq_none.mp h

theorem u8FromStrRadix16_of_not_reads (h : ¬ ReadsPair c d) : Rust.u8FromStrRadix16 [c, d] = none := by
  by_cases hc : c = '+'
  case pos =>
    have hd : ¬ Rust.isAsciiHexdigit d := fun hd => h ⟨.inl hc, hd⟩
    simp only [Rust.u8FromStrRadix16, if_pos hc, List.foldlM_cons, toDigit16_eq_none hd]
    rfl
  case neg =>
    simp only [Rust.u8FromStrRadix16, if_neg hc, List.foldlM_cons]
    by_cases hx : Rust.isAsciiHexdigit c
    case neg => rw [toDigit16_eq_none hx]; rfl
    case pos =>
      have hd : ¬ Rust.isAsciiHexdigit d := fun hd => h ⟨.inr hx, hd⟩
      have hlt := nibble_lt c
      rw [toDigit16_eq hx, toDigit16_eq_none hd]
      simp only [Option.bind_eq_bind, Option.bind_some, Nat.zero_mul, Nat.zero_add]
      rw [if_pos (by omega)]
      rfl

theorem rust_fromHexPairs_eq (h : s.length % 2 = 0) : Rust.fromHexPairs s =
    if Cuts s then .error .panicked
    else if ReadsAsHex s then .ok (bytesOf s)
    else .error (.invalid "Invalid hex.") := by
  fun_induction ReadsAsHex s
  case case1              => rfl
  case case2              => simp at h
  case case3 c d cs hi    =>
    have hi := hi (by simp only [List.length_cons] at h; omega)
    rw [Rust.fromHexPairs, Cuts]
    by_cases hcut : cs.head?.any Rust.isContinuation
    case pos => rw [if_pos hcut, hcut, Bool.true_or, if_pos rfl]
    case neg =>
      rw [if_neg hcut, Bool.not_eq_true _ |>.mp hcut, Bool.false_or]
      by_cases hp : ReadsPair c d
      case pos =>
        rw [u8FromStrRadix16_of_reads hp, decide_eq_true hp, Bool.true_and, Bool.true_and]
        simp only [hi]
        split_ifs <;> rfl
      case neg =>
        rw [u8FromStrRadix16_of_not_reads hp, decide_eq_false hp, Bool.false_and, Bool.false_and]
        rfl

theorem cpp_fromHexPairs_eq (h : s.length % 2 = 0) : Cpp.fromHexPairs s =
    if AllHex s then .ok (bytesOf s) else .error (.invalid "Invalid hex.") := by
  fun_induction ReadsAsHex s
  case case1              => rfl
  case case2              => simp at h
  case case3 c d cs hi    =>
    have hi := hi (by simp only [List.length_cons] at h; omega)
    have hneg (c : Char) : Cpp.hexval c < 0 ↔ ¬ Rust.isAsciiHexdigit c := by
      rw [hexval_eq]
      split <;> simp [*]
    have hall : AllHex (c :: d :: cs) ↔ Rust.isAsciiHexdigit c ∧ Rust.isAsciiHexdigit d ∧ AllHex cs := by
      simp [AllHex]
    have hguard : (Cpp.hexval c < 0 ∨ Cpp.hexval d < 0) ↔
        ¬ (Rust.isAsciiHexdigit c ∧ Rust.isAsciiHexdigit d) := by
      rw [hneg, hneg, not_and_or]
    rw [Cpp.fromHexPairs]
    by_cases hp : Rust.isAsciiHexdigit c ∧ Rust.isAsciiHexdigit d
    case pos =>
      have h₁ := nibble_lt c
      have h₂ := nibble_lt d
      rw [if_neg (mt hguard.mp (not_not.mpr hp)), hi, hexval_eq, hexval_eq, if_pos hp.left, if_pos hp.right]
      by_cases hcs : AllHex cs
      case pos =>
        rw [if_pos hcs, if_pos (hall.mpr ⟨hp.left, hp.right, hcs⟩), ok_bind,
          show (((nibble c : ℤ) * 16 + nibble d) % 256).toNat = nibble c * 16 + nibble d by omega]
        rfl
      case neg =>
        rw [if_neg hcs, if_neg fun h => hcs (hall.mp h).right.right]
        rfl
    case neg =>
      rw [if_pos (hguard.mpr hp), if_neg fun h => hp ⟨(hall.mp h).left, (hall.mp h).right.left⟩]

-- `0x` and an even number of bytes.
def Marked (s : List Char) : Prop := ['0', 'x'].isPrefixOf s ∧ (s.drop 2).length % 2 = 0

instance (s : List Char) : Decidable (Marked s) := inferInstanceAs (Decidable (_ ∧ _))

theorem rust_fromHexBytes_of_marked (h : Marked s) : Rust.fromHexBytes s =
    if Cuts (s.drop 2) then .error .panicked
    else if ReadsAsHex (s.drop 2) then .ok (bytesOf (s.drop 2))
    else .error (.invalid "Invalid hex.") := by
  rw [Rust.fromHexBytes, if_neg (not_not.mpr h.left), if_neg (not_not.mpr h.right), rust_fromHexPairs_eq h.right]

theorem rust_fromHexBytes_of_not_marked (h : ¬ Marked s) : ∃ message, Rust.fromHexBytes s = .error (.invalid message) := by
  rw [Rust.fromHexBytes]
  split
  case isTrue      => exact ⟨_, rfl⟩
  case isFalse h₁  => exact ⟨_, if_pos fun h₂ => h ⟨not_not.mp h₁, h₂⟩⟩

theorem cpp_fromHexBytes_eq : (Marked s ∧ AllHex (s.drop 2) → Cpp.fromHexBytes s = .ok (bytesOf (s.drop 2))) ∧
    (¬ (Marked s ∧ AllHex (s.drop 2)) → ∃ message, Cpp.fromHexBytes s = .error (.invalid message)) := by
  rw [Cpp.fromHexBytes]
  by_cases hm : Marked s
  case pos =>
    have hprefix := List.isPrefixOf_iff_prefix.mp hm.left
    have hlen := hprefix.length_le
    have heven := hm.right
    rw [List.length_drop] at heven
    simp only [List.length_cons, List.length_nil] at hlen
    rw [if_neg (by rw [not_or, not_not]; exact ⟨hm.left, by omega⟩), cpp_fromHexPairs_eq hm.right]
    exact ⟨fun h => if_pos h.right, fun h => ⟨_, if_neg fun ha => h ⟨hm, ha⟩⟩⟩
  case neg =>
    refine ⟨fun h => absurd h.left hm, fun _ => ⟨_, if_pos ?_⟩⟩
    by_contra hn
    rw [not_or, not_not] at hn
    have hlen := (List.isPrefixOf_iff_prefix.mp hn.left).length_le
    simp only [List.length_cons, List.length_nil] at hlen
    exact hm ⟨hn.left, by rw [List.length_drop]; omega⟩

theorem length_bytesOf (s : List Char) : (bytesOf s).length = s.length / 2 := by
  rw [bytesOf, Words.length_pairs, List.length_map]

end Texts

section Transactions

variable {tx tx' : Tx1559}

-- The nine fields that are signed, with the bytes of the recipient and of the calldata.
def itemsOf (tx : Tx1559) (recipient data : List ℕ) : List Rlp.Item :=
  [.number tx.chainId.toNat, .number tx.nonce.toNat, .number tx.maxPriorityFeePerGas.toNat,
    .number tx.maxFeePerGas.toNat, .number tx.gas.toNat, .bytes recipient, .number tx.value.toNat, .bytes data,
    .list []]

theorem length_header_le {offset length : ℕ} (h : length < 2 ^ 64) : (Rlp.header offset length).length ≤ 9 := by
  have h' : length < 256 ^ 8 := h
  have := Words.length_minimal_le (by decide) h'
  unfold Rlp.header
  split
  · simp
  · rw [List.length_cons]
    omega

theorem length_encodeBytes_le {b : List ℕ} (h : b.length < 2 ^ 64) : (Rlp.encodeBytes b).length ≤ 9 + b.length := by
  unfold Rlp.encodeBytes
  split
  case h_1 x =>
    split
    · simp
    · exact Nat.le_add_left 2 8
  case h_2   =>
    have := @length_header_le 128 _ h
    rw [List.length_append]
    omega

theorem length_encode_number_le (v : BitVec 128) : (Rlp.encode (.number v.toNat)).length ≤ 25 := by
  have hlt : v.toNat < 256 ^ 16 := v.isLt
  have hlen := Words.length_minimal_le (by decide) hlt
  have := length_encodeBytes_le (b := Words.minimal 256 v.toNat) (by omega)
  rw [Rlp.Item.number, Rlp.encode]
  omega

theorem encodeAll_itemsOf (tx : Tx1559) (recipient data : List ℕ) : Rlp.encodeAll (itemsOf tx recipient data) =
    Rlp.encode (.number tx.chainId.toNat) ++ Rlp.encode (.number tx.nonce.toNat) ++
      Rlp.encode (.number tx.maxPriorityFeePerGas.toNat) ++ Rlp.encode (.number tx.maxFeePerGas.toNat) ++
      Rlp.encode (.number tx.gas.toNat) ++ Rlp.encodeBytes recipient ++ Rlp.encode (.number tx.value.toNat) ++
      Rlp.encodeBytes data ++ [192] := by
  simp only [itemsOf, Rlp.encodeAll, Rlp.encode, List.append_assoc, List.append_nil]
  rfl

theorem toNat_zeroExtend (v : BitVec 64) : (v.zeroExtend 128).toNat = v.toNat := by
  rw [BitVec.toNat_setWidth]
  exact Nat.mod_eq_of_lt (v.isLt.trans (by decide))

theorem length_encodeAll_lt {recipient data : List ℕ} (hr : recipient.length = 20) (hd : data.length < 2 ^ 63) :
    (Rlp.encodeAll (itemsOf tx recipient data)).length < 2 ^ 64 := by
  have h₁ := length_encode_number_le (tx.chainId.zeroExtend 128)
  have h₂ := length_encode_number_le (tx.nonce.zeroExtend 128)
  have h₃ := length_encode_number_le tx.maxPriorityFeePerGas
  have h₄ := length_encode_number_le tx.maxFeePerGas
  have h₅ := length_encode_number_le tx.gas
  have h₆ := length_encode_number_le tx.value
  have h₇ := length_encodeBytes_le (b := recipient) (by omega)
  have h₈ := length_encodeBytes_le (b := data) (by omega)
  rw [toNat_zeroExtend] at h₁ h₂
  rw [encodeAll_itemsOf]
  simp only [List.length_append, List.length_singleton]
  omega

-- Once the two texts are read, both languages write the canonical form of the nine fields.
theorem rust_unsignedSerialized_eq {recipient data : List ℕ} (hr : Rust.fromHexBytes tx.recipient = .ok recipient)
    (hl : recipient.length = 20) (hd : Rust.fromHexBytes tx.data = .ok data) (hn : data.length < 2 ^ 63) :
    Rust.unsignedSerialized tx = .ok (2 :: Rlp.encode (.list (itemsOf tx recipient data))) := by
  have hlen := @length_encodeAll_lt tx _ _ hl hn
  rw [Rust.unsignedSerialized, Rust.fields, hr, ok_bind, if_neg (not_not.mpr hl)]
  simp only [(rlpUint_eq _).left, rust_rlpBytes_eq (show recipient.length < 2 ^ 64 by omega), hd,
    rust_rlpBytes_eq (show data.length < 2 ^ 64 by omega), ok_bind, toNat_zeroExtend, pure_eq_ok]
  rw [← encodeAll_itemsOf, Rust.rlpList, rust_rlpLen_eq hlen, Rlp.encode]
  rfl

theorem cpp_unsignedSerialized_eq {recipient data : List ℕ} (hr : Cpp.fromHexBytes tx.recipient = .ok recipient)
    (hl : recipient.length = 20) (hd : Cpp.fromHexBytes tx.data = .ok data) (hn : data.length < 2 ^ 63) :
    Cpp.unsignedSerialized tx = .ok (2 :: Rlp.encode (.list (itemsOf tx recipient data))) := by
  have hlen := @length_encodeAll_lt tx _ _ hl hn
  rw [Cpp.unsignedSerialized, Cpp.fields, hr, ok_bind, if_neg (not_not.mpr hl)]
  simp only [(rlpUint_eq _).right, cpp_rlpBytes_eq (show recipient.length < 2 ^ 64 by omega), hd,
    cpp_rlpBytes_eq (show data.length < 2 ^ 64 by omega), ok_bind, toNat_zeroExtend]
  rw [← encodeAll_itemsOf, pure_eq_ok, ok_bind, Cpp.rlpList, cpp_rlpLen_eq hlen (by decide), Rlp.encode]
  rfl

-- An address and calldata in hexadecimal.
def WellFormed (tx : Tx1559) : Prop :=
  (Marked tx.recipient ∧ AllHex (tx.recipient.drop 2) ∧ (tx.recipient.drop 2).length = 40) ∧
    Marked tx.data ∧ AllHex (tx.data.drop 2)

instance (tx : Tx1559) : Decidable (WellFormed tx) := inferInstanceAs (Decidable (_ ∧ _))

def canonical (tx : Tx1559) : List ℕ :=
  2 :: Rlp.encode (.list (itemsOf tx (bytesOf (tx.recipient.drop 2)) (bytesOf (tx.data.drop 2))))

-- A pair of the recipient ends within a character, or else all is read and a pair of the calldata ends
-- within a character or one of the two texts has a sign.
def Misread (tx : Tx1559) : Prop :=
  Marked tx.recipient ∧ (Cuts (tx.recipient.drop 2) ∨
    (ReadsAsHex (tx.recipient.drop 2) ∧ (tx.recipient.drop 2).length = 40) ∧ Marked tx.data ∧
      (Cuts (tx.data.drop 2) ∨
        ReadsAsHex (tx.data.drop 2) ∧ ¬ (AllHex (tx.recipient.drop 2) ∧ AllHex (tx.data.drop 2))))

instance (tx : Tx1559) : Decidable (Misread tx) := inferInstanceAs (Decidable (_ ∧ _))

-- A serializer succeeds exactly on what is well formed, with the canonical bytes, and never panics.
def Faithful (serialize : Tx1559 → Except SignerError (List ℕ)) (tx : Tx1559) : Prop :=
  (∀ out, serialize tx = .ok out ↔ WellFormed tx ∧ out = canonical tx) ∧ serialize tx ≠ .error .panicked

theorem Faithful.of_eq {serialize : Tx1559 → Except SignerError (List ℕ)} (h : WellFormed tx)
    (hs : serialize tx = .ok (canonical tx)) : Faithful serialize tx := by
  rw [Faithful, hs]
  exact ⟨fun out => by simp [h, eq_comm], nofun⟩

theorem Faithful.of_invalid {serialize : Tx1559 → Except SignerError (List ℕ)} {message : String}
    (h : ¬ WellFormed tx) (hs : serialize tx = .error (.invalid message)) : Faithful serialize tx := by
  rw [Faithful, hs]
  exact ⟨fun out => by simp [h], by simp⟩

theorem ReadsAsHex.of_allHex {s : List Char} (h : AllHex s) (hl : s.length % 2 = 0) : ReadsAsHex s := by
  fun_induction ReadsAsHex s
  case case1           => rfl
  case case2           => simp at hl
  case case3 c d cs hi =>
    have ⟨hc, h⟩ := List.forall_mem_cons.mp h
    have ⟨hd, h⟩ := List.forall_mem_cons.mp h
    rw [Bool.and_eq_true, decide_eq_true_iff]
    exact ⟨⟨.inr hc, hd⟩, hi h (by simp only [List.length_cons] at hl; omega)⟩

theorem length_bytesOf_drop_lt {s : List Char} (h : s.length < 2 ^ 63) : (bytesOf (s.drop 2)).length < 2 ^ 63 := by
  rw [length_bytesOf, List.length_drop]
  omega

theorem cpp_faithful (tx : Tx1559) : Faithful Cpp.unsignedSerialized tx := by
  have ⟨hr, hr'⟩ := cpp_fromHexBytes_eq (s := tx.recipient)
  have ⟨hd, hd'⟩ := cpp_fromHexBytes_eq (s := tx.data)
  by_cases h₁ : Marked tx.recipient ∧ AllHex (tx.recipient.drop 2)
  case neg =>
    obtain ⟨message, hm⟩ := hr' h₁
    refine @Faithful.of_invalid tx _ message (fun h => h₁ ⟨h.left.left, h.left.right.left⟩) ?_
    rw [Cpp.unsignedSerialized, Cpp.fields, hm]
    rfl
  case pos =>
    have hlen := length_bytesOf (tx.recipient.drop 2)
    have heven := h₁.left.right
    by_cases h₂ : (tx.recipient.drop 2).length = 40
    case neg =>
      refine @Faithful.of_invalid tx _ "Invalid recipient." (fun h => h₂ h.left.right.right) ?_
      rw [Cpp.unsignedSerialized, Cpp.fields, hr h₁, ok_bind, if_pos (by omega)]
      rfl
    case pos =>
      by_cases h₃ : Marked tx.data ∧ AllHex (tx.data.drop 2)
      case neg =>
        obtain ⟨message, hm⟩ := hd' h₃
        refine @Faithful.of_invalid tx _ message (fun h => h₃ h.right) ?_
        rw [Cpp.unsignedSerialized, Cpp.fields, hr h₁, ok_bind, if_neg (by omega), hm]
        rfl
      case pos =>
        exact Faithful.of_eq ⟨⟨h₁.left, h₁.right, h₂⟩, h₃⟩ <|
          cpp_unsignedSerialized_eq (hr h₁) (by omega) (hd h₃) (length_bytesOf_drop_lt tx.data_lt)

-- What the Rust runtime makes of the recipient, and then of the calldata.
theorem rust_unsignedSerialized_of_recipient {e : SignerError} (h : Rust.fromHexBytes tx.recipient = .error e) :
    Rust.unsignedSerialized tx = .error e := by
  rw [Rust.unsignedSerialized, Rust.fields, h]
  rfl

theorem rust_unsignedSerialized_of_data {e : SignerError} {recipient : List ℕ}
    (hr : Rust.fromHexBytes tx.recipient = .ok recipient) (hl : recipient.length = 20)
    (h : Rust.fromHexBytes tx.data = .error e) : Rust.unsignedSerialized tx = .error e := by
  rw [Rust.unsignedSerialized, Rust.fields, hr, ok_bind, if_neg (not_not.mpr hl)]
  simp only [(rlpUint_eq _).left, rust_rlpBytes_eq (show recipient.length < 2 ^ 64 by omega), h, ok_bind]
  rfl

theorem rust_faithful_of_recipient_iff (hr : Marked tx.recipient) (hc : ¬ Cuts (tx.recipient.drop 2))
    (hreads : ReadsAsHex (tx.recipient.drop 2)) (hl : (tx.recipient.drop 2).length = 40) :
    Faithful Rust.unsignedSerialized tx ↔ ¬ (Marked tx.data ∧ (Cuts (tx.data.drop 2) ∨
      ReadsAsHex (tx.data.drop 2) ∧ ¬ (AllHex (tx.recipient.drop 2) ∧ AllHex (tx.data.drop 2)))) := by
  have hread : Rust.fromHexBytes tx.recipient = .ok (bytesOf (tx.recipient.drop 2)) := by
    rw [rust_fromHexBytes_of_marked hr, if_neg hc, if_pos hreads]
  have hlen : (bytesOf (tx.recipient.drop 2)).length = 20 := by rw [length_bytesOf, hl]
  by_cases hd : Marked tx.data
  case neg =>
    obtain ⟨message, hm⟩ := rust_fromHexBytes_of_not_marked hd
    refine iff_of_true ?_ fun h => hd h.left
    exact .of_invalid (fun h => hd h.right.left) (rust_unsignedSerialized_of_data hread hlen hm)
  case pos =>
    by_cases hcut : Cuts (tx.data.drop 2)
    case pos =>
      refine iff_of_false (fun h => h.right ?_) fun h => h ⟨hd, .inl hcut⟩
      exact rust_unsignedSerialized_of_data hread hlen (by rw [rust_fromHexBytes_of_marked hd, if_pos hcut])
    case neg =>
      by_cases hdata : ReadsAsHex (tx.data.drop 2)
      case neg =>
        refine iff_of_true ?_ fun h => h.right.elim hcut fun h => hdata h.left
        refine @Faithful.of_invalid tx _ "Invalid hex." (fun h => hdata (ReadsAsHex.of_allHex h.right.right hd.right)) ?_
        exact rust_unsignedSerialized_of_data hread hlen
          (by rw [rust_fromHexBytes_of_marked hd, if_neg hcut, if_neg hdata])
      case pos =>
        have hok := rust_unsignedSerialized_eq hread hlen
          (by rw [rust_fromHexBytes_of_marked hd, if_neg hcut, if_pos hdata]) (length_bytesOf_drop_lt tx.data_lt)
        by_cases hall : AllHex (tx.recipient.drop 2) ∧ AllHex (tx.data.drop 2)
        case pos =>
          refine iff_of_true ?_ fun h => h.right.elim hcut fun h => h.right hall
          exact .of_eq ⟨⟨hr, hall.left, hl⟩, hd, hall.right⟩ hok
        case neg =>
          -- A sign is read as a digit.
          refine iff_of_false (fun h => hall ?_) fun h => h ⟨hd, .inr ⟨hdata, hall⟩⟩
          have hwell := ((h.left _).mp hok).left
          exact ⟨hwell.left.right.left, hwell.right.right⟩

-- The Rust runtime is faithful unless it misreads a text.
theorem rust_faithful_iff (tx : Tx1559) : Faithful Rust.unsignedSerialized tx ↔ ¬ Misread tx := by
  by_cases hr : Marked tx.recipient
  case neg =>
    obtain ⟨message, hm⟩ := rust_fromHexBytes_of_not_marked hr
    refine iff_of_true ?_ fun h => hr h.left
    exact .of_invalid (fun h => hr h.left.left) (rust_unsignedSerialized_of_recipient hm)
  case pos =>
    by_cases hcut : Cuts (tx.recipient.drop 2)
    case pos =>
      refine iff_of_false (fun h => h.right ?_) fun h => h ⟨hr, .inl hcut⟩
      exact rust_unsignedSerialized_of_recipient (by rw [rust_fromHexBytes_of_marked hr, if_pos hcut])
    case neg =>
      by_cases hreads : ReadsAsHex (tx.recipient.drop 2)
      case neg =>
        refine iff_of_true ?_ fun h => h.right.elim hcut fun h => hreads h.left.left
        refine @Faithful.of_invalid tx _ "Invalid hex." (fun h => hreads (ReadsAsHex.of_allHex h.left.right.left hr.right)) ?_
        exact rust_unsignedSerialized_of_recipient
          (by rw [rust_fromHexBytes_of_marked hr, if_neg hcut, if_neg hreads])
      case pos =>
        by_cases hl : (tx.recipient.drop 2).length = 40
        case neg =>
          have hlen := length_bytesOf (tx.recipient.drop 2)
          have heven := hr.right
          refine iff_of_true ?_ fun h => h.right.elim hcut fun h => hl h.left.right
          refine @Faithful.of_invalid tx _ "Invalid recipient." (fun h => hl h.left.right.right) ?_
          rw [Rust.unsignedSerialized, Rust.fields, rust_fromHexBytes_of_marked hr, if_neg hcut, if_pos hreads,
            ok_bind, if_pos (by omega)]
          rfl
        case pos =>
          rw [rust_faithful_of_recipient_iff hr hcut hreads hl, Misread]
          simp [hr, hcut, hreads, hl]

theorem number_fits (v : BitVec 128) : (Rlp.Item.number v.toNat).Fits := by
  have hlt : v.toNat < 256 ^ 16 := v.isLt
  have hlen := Words.length_minimal_le (by decide) hlt
  rw [Rlp.Item.number, Rlp.Item.Fits]
  omega

theorem itemsOf_fits {recipient data : List ℕ} (hr : recipient.length = 20) (hd : data.length < 2 ^ 63) :
    (Rlp.Item.list (itemsOf tx recipient data)).Fits := by
  have h₁ := number_fits (tx.chainId.zeroExtend 128)
  have h₂ := number_fits (tx.nonce.zeroExtend 128)
  rw [toNat_zeroExtend] at h₁ h₂
  have hb {b : List ℕ} (h : b.length < 2 ^ 64) : (Rlp.Item.bytes b).Fits := by rwa [Rlp.Item.Fits]
  have hnil : (Rlp.Item.list []).Fits := by
    rw [Rlp.Item.Fits, Rlp.encodeAll]
    exact ⟨by rw [Rlp.AllFit]; trivial, by decide⟩
  rw [Rlp.Item.Fits]
  refine ⟨?_, length_encodeAll_lt hr hd⟩
  simp only [itemsOf, Rlp.AllFit]
  exact ⟨h₁, h₂, number_fits _, number_fits _, number_fits _, hb (by omega), number_fits _, hb (by omega), hnil, trivial⟩

-- What is signed, with the numbers by value.
structure SignedFields where
  chainId              : ℕ
  nonce                : ℕ
  maxPriorityFeePerGas : ℕ
  maxFeePerGas         : ℕ
  gas                  : ℕ
  recipient            : List ℕ
  value                : ℕ
  data                 : List ℕ
  deriving DecidableEq

def signedOf (tx : Tx1559) : SignedFields where
  chainId              := tx.chainId.toNat
  nonce                := tx.nonce.toNat
  maxPriorityFeePerGas := tx.maxPriorityFeePerGas.toNat
  maxFeePerGas         := tx.maxFeePerGas.toNat
  gas                  := tx.gas.toNat
  recipient            := bytesOf (tx.recipient.drop 2)
  value                := tx.value.toNat
  data                 := bytesOf (tx.data.drop 2)

def readItems : List Rlp.Item → Option SignedFields
  | [.bytes chainId, .bytes nonce, .bytes priority, .bytes fee, .bytes gas, .bytes recipient, .bytes value, .bytes data,
      .list []] => some {
      chainId              := Words.value 256 chainId
      nonce                := Words.value 256 nonce
      maxPriorityFeePerGas := Words.value 256 priority
      maxFeePerGas         := Words.value 256 fee
      gas                  := Words.value 256 gas
      recipient            := recipient
      value                := Words.value 256 value
      data                 := data
    }
  | _ => none

def readSigned : List ℕ → Option SignedFields
  | 2 :: bytes =>
    match Rlp.decodeExact bytes with
    | some (.list items) => readItems items
    | _                  => none
  | _          => none

theorem readSigned_canonical (h : WellFormed tx) : readSigned (canonical tx) = some (signedOf tx) := by
  have hr : (bytesOf (tx.recipient.drop 2)).length = 20 := by rw [length_bytesOf, h.left.right.right]
  have hfits := @itemsOf_fits tx _ _ hr (length_bytesOf_drop_lt tx.data_lt)
  rw [canonical, readSigned, Rlp.decodeExact_encode hfits]
  simp only [itemsOf, Rlp.Item.number, readItems, Words.value_minimal, signedOf]

-- A digit is known from its value up to the case of a letter.
theorem toLower_eq {c d : Char} (hc : Rust.isAsciiHexdigit c) (hd : Rust.isAsciiHexdigit d)
    (h : nibble c = nibble d) : c.toLower = d.toLower := by
  have key (c : Char) (hc : Rust.isAsciiHexdigit c) : c.toLower = Nat.digitChar (nibble c) := by
    have hlt : c.toNat < 103 := by
      have := isAsciiHexdigit_iff.mp hc
      omega
    have : ∀ n < 103, Rust.isAsciiHexdigit (Char.ofNat n) →
        (Char.ofNat n).toLower = Nat.digitChar (nibble (Char.ofNat n)) := by decide
    have := this c.toNat hlt
    rw [Char.ofNat_toNat] at this
    exact this hc
  rw [key c hc, key d hd, h]

theorem map_toLower_eq {s t : List Char} (hs : AllHex s) (ht : AllHex t) (hs' : s.length % 2 = 0)
    (ht' : t.length % 2 = 0) (h : bytesOf s = bytesOf t) : s.map Char.toLower = t.map Char.toLower := by
  fun_induction ReadsAsHex s generalizing t
  case case1           =>
    rcases t with _ | ⟨c', _ | ⟨d', t⟩⟩
    case nil       => rfl
    case cons.nil  => simp at ht'
    case cons.cons => simp [bytesOf, Words.pairs] at h
  case case2           => simp at hs'
  case case3 c d cs hi =>
    rcases t with _ | ⟨c', _ | ⟨d', t⟩⟩
    case nil       => simp [bytesOf, Words.pairs] at h
    case cons.nil  => simp at ht'
    case cons.cons =>
      obtain ⟨hc, hs⟩ := List.forall_mem_cons.mp hs
      obtain ⟨hd, hs⟩ := List.forall_mem_cons.mp hs
      obtain ⟨hc', ht⟩ := List.forall_mem_cons.mp ht
      obtain ⟨hd', ht⟩ := List.forall_mem_cons.mp ht
      have h : nibble c * 16 + nibble d = nibble c' * 16 + nibble d' ∧ bytesOf cs = bytesOf t :=
        List.cons_eq_cons.mp h
      have h₁ := nibble_lt d
      have h₂ := nibble_lt d'
      have hi := hi hs ht (by simp only [List.length_cons] at hs'; omega)
        (by simp only [List.length_cons] at ht'; omega) h.right
      simp only [List.map_cons, hi, toLower_eq hc hc' (by omega), toLower_eq hd hd' (by omega)]

-- The same numbers, and the same texts up to the case of letters.
def SameUpToCase (tx tx' : Tx1559) : Prop :=
  (tx.chainId = tx'.chainId ∧ tx.nonce = tx'.nonce ∧ tx.maxPriorityFeePerGas = tx'.maxPriorityFeePerGas ∧
    tx.maxFeePerGas = tx'.maxFeePerGas ∧ tx.gas = tx'.gas ∧ tx.value = tx'.value) ∧
    tx.recipient.map Char.toLower = tx'.recipient.map Char.toLower ∧
    tx.data.map Char.toLower = tx'.data.map Char.toLower

instance (tx tx' : Tx1559) : Decidable (SameUpToCase tx tx') := inferInstanceAs (Decidable (_ ∧ _))

theorem Marked.eq_append {s : List Char} (h : Marked s) : s = ['0', 'x'] ++ s.drop 2 := by
  obtain ⟨t, rfl⟩ := List.isPrefixOf_iff_prefix.mp h.left
  rfl

theorem sameUpToCase_of_canonical (h : WellFormed tx) (h' : WellFormed tx') (he : canonical tx = canonical tx') :
    SameUpToCase tx tx' := by
  have hs : signedOf tx = signedOf tx' := by
    have := readSigned_canonical h
    rw [he, readSigned_canonical h'] at this
    exact (Option.some.inj this).symm
  have hr := map_toLower_eq h.left.right.left h'.left.right.left h.left.left.right h'.left.left.right
    (congrArg SignedFields.recipient hs)
  have hd := map_toLower_eq h.right.right h'.right.right h.right.left.right h'.right.left.right
    (congrArg SignedFields.data hs)
  refine ⟨⟨?_, ?_, ?_, ?_, ?_, ?_⟩, ?_, ?_⟩
  · exact BitVec.eq_of_toNat_eq (congrArg SignedFields.chainId hs)
  · exact BitVec.eq_of_toNat_eq (congrArg SignedFields.nonce hs)
  · exact BitVec.eq_of_toNat_eq (congrArg SignedFields.maxPriorityFeePerGas hs)
  · exact BitVec.eq_of_toNat_eq (congrArg SignedFields.maxFeePerGas hs)
  · exact BitVec.eq_of_toNat_eq (congrArg SignedFields.gas hs)
  · exact BitVec.eq_of_toNat_eq (congrArg SignedFields.value hs)
  · rw [h.left.left.eq_append, h'.left.left.eq_append, List.map_append, List.map_append, hr]
  · rw [h.right.left.eq_append, h'.right.left.eq_append, List.map_append, List.map_append, hd]

-- Either language has written the bytes.
def Writes (tx : Tx1559) (out : List ℕ) : Prop :=
  Rust.unsignedSerialized tx = .ok out ∨ Cpp.unsignedSerialized tx = .ok out

theorem Writes.canonical {out : List ℕ} (h : Writes tx out) (hm : ¬ Misread tx) :
    WellFormed tx ∧ out = canonical tx :=
  h.elim (((rust_faithful_iff tx).mpr hm).left out).mp ((cpp_faithful tx).left out).mp

-- The two serializers are total, canonical, readable and injective on what the Rust one does not misread.
theorem serialization_exact (tx : Tx1559) :
    (Faithful Rust.unsignedSerialized tx ∧ Faithful Cpp.unsignedSerialized tx ↔ ¬ Misread tx) ∧
    (∀ out, ¬ Misread tx → Writes tx out → readSigned out = some (signedOf tx)) ∧
    ∀ tx' out, ¬ Misread tx → ¬ Misread tx' → Writes tx out → Writes tx' out → SameUpToCase tx tx' := by
  refine ⟨?_, fun out hm hw => ?_, fun tx' out hm hm' hw hw' => ?_⟩
  case refine_1 => rw [rust_faithful_iff, and_iff_left (cpp_faithful tx)]
  case refine_2 =>
    have ⟨h, he⟩ := hw.canonical hm
    rw [he, readSigned_canonical h]
  case refine_3 =>
    have ⟨h, he⟩ := hw.canonical hm
    have ⟨h', he'⟩ := hw'.canonical hm'
    exact sameUpToCase_of_canonical h h' (he.symm.trans he')

-- A transfer of calldata of one byte to the zero address.
def sampleTx (data : List Char) (h : data.length < 2 ^ 63) : Tx1559 where
  chainId              := 10143
  nonce                := 0
  recipient            := ['0', 'x'] ++ List.replicate 40 '0'
  data                 := data
  value                := 0
  gas                  := 21000
  maxFeePerGas         := 50
  maxPriorityFeePerGas := 2
  recipient_lt         := by decide
  data_lt              := h

theorem serialization_exact_transfer :
    let tx  := sampleTx ['0', 'x', 'a', 'B'] (by decide)
    let tx' := sampleTx ['0', 'x', 'A', 'b'] (by decide)
    (∃ out, Writes tx out ∧ Writes tx' out ∧ readSigned out = some (signedOf tx)) ∧ SameUpToCase tx tx' := by
  intro tx tx'
  obtain ⟨_, hread, hsame⟩ := serialization_exact tx
  have hm : ¬ Misread tx := by decide
  have hm' : ¬ Misread tx' := by decide
  have hr : Rust.fromHexBytes tx.recipient = .ok (List.replicate 20 0) := by decide
  have hd : Rust.fromHexBytes tx.data = .ok [171] := by decide
  have hd' : Rust.fromHexBytes tx'.data = .ok [171] := by decide
  have hw : Writes tx _ := .inl (rust_unsignedSerialized_eq hr rfl hd (by decide))
  have hw' : Writes tx' _ := .inl (@rust_unsignedSerialized_eq tx' _ _ hr rfl hd' (by decide))
  exact ⟨⟨_, hw, hw', hread _ hm hw⟩, hsame tx' _ hm hm' hw hw'⟩

-- A sign in the calldata is signed as a digit, and a slice that ends within a character is a panic.
theorem serialization_misread :
    let signed := sampleTx ['0', 'x', '+', '1'] (by decide)
    let plain  := sampleTx ['0', 'x', '0', '1'] (by decide)
    let cut    := sampleTx ['0', 'x', '1', 'Ã', '©', '0'] (by decide)
    (∃ out, Rust.unsignedSerialized signed = .ok out ∧ Rust.unsignedSerialized plain = .ok out) ∧
    ¬ WellFormed signed ∧ Cpp.unsignedSerialized signed = .error (.invalid "Invalid hex.") ∧
    ¬ Faithful Rust.unsignedSerialized signed ∧ ¬ SameUpToCase signed plain ∧
    Rust.unsignedSerialized cut = .error .panicked := by
  intro signed plain cut
  have hr : Rust.fromHexBytes signed.recipient = .ok (List.replicate 20 0) := by decide
  have hr' : Cpp.fromHexBytes signed.recipient = .ok (List.replicate 20 0) := by decide
  have hd : Rust.fromHexBytes signed.data = .ok [1] := by decide
  have hd' : Rust.fromHexBytes plain.data = .ok [1] := by decide
  have hsigned := rust_unsignedSerialized_eq hr rfl hd (by decide)
  have hplain := @rust_unsignedSerialized_eq plain _ _ hr rfl hd' (by decide)
  refine ⟨⟨_, hsigned, hplain⟩, by decide, ?_, ?_, by decide, ?_⟩
  · have hd : Cpp.fromHexBytes signed.data = .error (.invalid "Invalid hex.") := by decide
    rw [Cpp.unsignedSerialized, Cpp.fields, hr', ok_bind, if_neg (by decide), hd]
    rfl
  · exact fun h => (rust_faithful_iff signed).mp h (by decide)
  · exact @rust_unsignedSerialized_of_data cut _ _ hr rfl (by decide)

end Transactions

end Sdk
