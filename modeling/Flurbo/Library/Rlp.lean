import Flurbo.Library.Words

-- The canonical form of nested byte strings and lists, in which every length is as short as it can be.

namespace Rlp

open Words

inductive Item
  | bytes (b : List ℕ)
  | list (items : List Item)

-- The number of a field has no leading zeros, and zero has no digits.
def Item.number (n : ℕ) : Item := .bytes (minimal 256 n)

def header (offset length : ℕ) : List ℕ :=
  if length < 56 then
    [offset + length]
  else
    (offset + 55 + (minimal 256 length).length) :: minimal 256 length

def encodeBytes (b : List ℕ) : List ℕ :=
  match b with
  | [x] => if x < 128 then [x] else header 128 1 ++ [x]
  | b   => header 128 b.length ++ b

mutual

def encode : Item → List ℕ
  | .bytes b    => encodeBytes b
  | .list items => header 192 (encodeAll items).length ++ encodeAll items

def encodeAll : List Item → List ℕ
  | []            => []
  | item :: items => encode item ++ encodeAll items

end

-- The length that a first byte announces and what follows it. Longer forms than necessary are refused.
def readHeader (offset tag : ℕ) (bs : List ℕ) : Option (ℕ × List ℕ) :=
  if tag < offset + 56 then
    some (tag - offset, bs)
  else
    let digits := bs.take (tag - offset - 55)
    if digits.length = tag - offset - 55 ∧ digits.head? ≠ some 0 ∧ 56 ≤ value 256 digits then
      some (value 256 digits, bs.drop (tag - offset - 55))
    else
      none

def decodeBytes (length : ℕ) (bs : List ℕ) : Option (Item × List ℕ) :=
  match bs.take length with
  | [x] => if length = 1 ∧ 128 ≤ x then some (.bytes [x], bs.drop length) else none
  | b   => if b.length = length then some (.bytes b, bs.drop length) else none

mutual

def decode : ℕ → List ℕ → Option (Item × List ℕ)
  | 0, _                => none
  | _, []               => none
  | fuel + 1, tag :: bs =>
    if tag < 128 then
      some (.bytes [tag], bs)
    else if tag < 192 then do
      let (length, bs) ← readHeader 128 tag bs
      decodeBytes length bs
    else do
      let (length, bs) ← readHeader 192 tag bs
      if length ≤ bs.length then
        let items ← decodeAll fuel (bs.take length)
        some (.list items, bs.drop length)
      else
        none

def decodeAll : ℕ → List ℕ → Option (List Item)
  | _, []            => some []
  | 0, _ :: _        => none
  | fuel + 1, b :: bs => do
    let (item, bs) ← decode fuel (b :: bs)
    let items ← decodeAll fuel bs
    some (item :: items)

end

-- Lengths are words of 64 bits.
mutual

def Item.Fits : Item → Prop
  | .bytes b    => b.length < 2 ^ 64
  | .list items => AllFit items ∧ (encodeAll items).length < 2 ^ 64

def AllFit : List Item → Prop
  | []            => True
  | item :: items => item.Fits ∧ AllFit items

end

variable {offset length fuel tag : ℕ} {b bs rest : List ℕ} {item : Item} {items : List Item}

-- Reading undoes writing, and the first byte of a header lies between its offset and the next one.
theorem readHeader_header (h : length < 2 ^ 64) (rest : List ℕ) : ∃ tag bs, header offset length = tag :: bs ∧
    offset ≤ tag ∧ tag < offset + 64 ∧ readHeader offset tag (bs ++ rest) = some (length, rest) := by
  rw [header]
  split
  case isTrue hl  =>
    refine ⟨_, _, rfl, by omega, by omega, ?_⟩
    rw [readHeader, if_pos (by omega), Nat.add_sub_cancel_left]
    rfl
  case isFalse hl =>
    have hlen : (minimal 256 length).length ≤ 8 := length_minimal_le (by decide) h
    have hpos : 0 < (minimal 256 length).length := by
      refine List.length_pos_iff.mpr fun hn => ?_
      have := value_minimal 256 length
      rw [hn, value_nil] at this
      omega
    refine ⟨_, _, rfl, by omega, by omega, ?_⟩
    have htag : offset + 55 + (minimal 256 length).length - offset - 55 = (minimal 256 length).length := by omega
    simp only [readHeader]
    rw [if_neg (by omega), htag, List.take_left, List.drop_left, value_minimal,
      if_pos ⟨rfl, head?_minimal _ _, by omega⟩]

theorem header_ne_nil : header offset length ≠ [] := by
  unfold header
  split <;> simp

theorem encodeBytes_ne_nil : encodeBytes b ≠ [] := by
  unfold encodeBytes
  split
  · split <;> simp
  · exact List.append_ne_nil_of_left_ne_nil header_ne_nil _

theorem encode_pos : 0 < (encode item).length := by
  refine List.length_pos_iff.mpr ?_
  cases item
  case bytes b    => rw [encode]; exact encodeBytes_ne_nil
  case list items => rw [encode]; exact List.append_ne_nil_of_left_ne_nil header_ne_nil _

theorem decodeBytes_append (h : ∀ x, b = [x] → False) :
    decodeBytes b.length (b ++ rest) = some (.bytes b, rest) := by
  rw [decodeBytes, List.take_left, List.drop_left]
  match b, h with
  | [], _          => rfl
  | [x], h         => exact (h x rfl).elim
  | x :: y :: b, _ => exact if_pos rfl

theorem decode_encodeBytes (hl : b.length < 2 ^ 64) (rest : List ℕ) :
    decode (fuel + 1) (encodeBytes b ++ rest) = some (.bytes b, rest) := by
  unfold encodeBytes
  split
  case h_1 x =>
    split
    case isTrue hx  => rw [List.singleton_append, decode, if_pos hx]
    case isFalse hx =>
      obtain ⟨tag, bs, hh, hle, hlt, hread⟩ := @readHeader_header 128 1 (by decide) ([x] ++ rest)
      rw [hh, List.cons_append, List.cons_append, List.append_assoc, decode, if_neg (by omega), if_pos (by omega), hread]
      simp [decodeBytes, not_lt.mp hx]
  case h_2 hne =>
    obtain ⟨tag, bs, hh, hle, hlt, hread⟩ := @readHeader_header 128 _ hl (b ++ rest)
    rw [hh, List.cons_append, List.cons_append, List.append_assoc, decode, if_neg (by omega), if_pos (by omega), hread]
    exact decodeBytes_append hne

theorem decodeAll_append {first : List ℕ} (h : decode fuel (first ++ rest) = some (item, rest)) (hn : first ≠ []) :
    decodeAll (fuel + 1) (first ++ rest) = (decodeAll fuel rest).map (item :: ·) := by
  obtain ⟨c, cs, rfl⟩ := List.exists_cons_of_ne_nil hn
  rw [List.cons_append] at h ⊢
  rw [decodeAll, h]
  simp only [Option.bind_eq_bind, Option.bind_some]
  cases decodeAll fuel rest <;> rfl

mutual

theorem decode_encode : ∀ (item : Item) (fuel : ℕ) (rest : List ℕ), item.Fits → 2 * (encode item).length ≤ fuel →
    decode fuel (encode item ++ rest) = some (item, rest)
  | .bytes b, fuel, rest, hf, hn    => by
    have hpos := @encode_pos (.bytes b)
    obtain ⟨fuel, rfl⟩ := Nat.exists_eq_succ_of_ne_zero (show fuel ≠ 0 by omega)
    rw [Item.Fits] at hf
    rw [encode]
    exact decode_encodeBytes hf rest
  | .list items, fuel, rest, hf, hn => by
    rw [Item.Fits] at hf
    rw [encode] at hn ⊢
    obtain ⟨tag, bs, hh, hle, hlt, hread⟩ := @readHeader_header 192 _ hf.right (encodeAll items ++ rest)
    rw [hh, List.cons_append, List.length_cons, List.length_append] at hn
    obtain ⟨fuel, rfl⟩ := Nat.exists_eq_succ_of_ne_zero (show fuel ≠ 0 by omega)
    have hall := decodeAll_encodeAll items fuel hf.left (by omega)
    rw [hh, List.cons_append, List.cons_append, List.append_assoc, decode, if_neg (by omega), if_neg (by omega), hread]
    simp only [Option.bind_eq_bind, Option.bind_some, List.take_left, List.drop_left, hall]
    exact if_pos (by simp)

theorem decodeAll_encodeAll : ∀ (items : List Item) (fuel : ℕ), AllFit items → 2 * (encodeAll items).length + 1 ≤ fuel →
    decodeAll fuel (encodeAll items) = some items
  | [], fuel, _, _               => by simp [encodeAll, decodeAll]
  | item :: items, fuel, hf, hn => by
    rw [AllFit] at hf
    rw [encodeAll] at hn ⊢
    have hpos := @encode_pos item
    rw [List.length_append] at hn
    obtain ⟨fuel, rfl⟩ := Nat.exists_eq_succ_of_ne_zero (show fuel ≠ 0 by omega)
    have hitem := decode_encode item fuel (encodeAll items) hf.left (by omega)
    rw [decodeAll_append hitem (List.length_pos_iff.mp hpos), decodeAll_encodeAll items fuel hf.right (by omega)]
    rfl

end

-- The one item that the bytes are.
def decodeExact (bs : List ℕ) : Option Item :=
  match decode (2 * bs.length) bs with
  | some (item, []) => some item
  | _               => none

theorem decodeExact_encode (h : item.Fits) : decodeExact (encode item) = some item := by
  have := decode_encode item (2 * (encode item).length) [] h le_rfl
  rw [List.append_nil] at this
  rw [decodeExact, this]

end Rlp
