import Flurbo.Sdk.AbiCalls

-- The logs that the codecs read, and where the codecs agree.

open Except

namespace Sdk

section Logs

open U256

variable {lower : List Char → List Char} {data t : List Char} {n : ℕ} {ws : List ℕ} {topics : List (List Char)}
  {log : RawLog} {e : DecodedEvent ℕ}

theorem drop_add_two (d : List Char) (i : ℕ) : (d.drop (2 + i * 64)).take 64 = slice (d.drop 2) i := by
  rw [slice, List.drop_drop]

theorem eq_marked (h : Hexed data) : data = ['0', 'x'] ++ data.drop 2 := by
  obtain ⟨t, rfl⟩ := List.isPrefixOf_iff_prefix.mp h.left
  rfl

theorem hexed_marked {s : List Char} (h : AllHex s) : Hexed (['0', 'x'] ++ s) := ⟨rfl, h⟩

theorem decodeWords_iff (hl : LowerCase lower) : Ts.decodeWords lower data n = .ok ws ↔
    ws.length = n ∧ (∀ w ∈ ws, w < 2 ^ 256) ∧ Cpp.lower data = ['0', 'x'] ++ ws.flatMap (hexText 64) := by
  simp only [Ts.decodeWords, drop_add_two]
  rw [← numbers]
  by_cases hx : Hexed (lower data)
  case neg =>
    rw [if_pos (.inl (mt hl.isHex_iff.mp hx))]
    refine iff_of_false (fun h => by cases h) fun h => hx (hl.hexed_iff.mpr ?_)
    rw [h.2.2]
    exact hexed_marked (lowerHex_flatMap ws).allHex
  case pos =>
    have hlower := hl.lowerHex hx
    have hmark := eq_marked hx
    have hhex := hl.isHex_iff.mpr hx
    rw [hl.eq_cpp hx] at hlower hmark hhex ⊢
    generalize Cpp.lower data = d at hlower hmark hhex
    constructor
    case mp  =>
      intro h
      split_ifs at h with hg
      rw [not_or, not_not, not_not] at hg
      have hlen : (d.drop 2).length = n * 64 := by rw [List.length_drop]; omega
      obtain rfl := ok.inj h
      refine ⟨by simp [numbers], fun w hw => ?_, ?_⟩
      · obtain ⟨i, _, rfl⟩ := List.mem_map.mp hw
        exact hexValue_slice_lt _ i
      · rw [flatMap_numbers hlower hlen, ← hmark]
    case mpr =>
      rintro ⟨hn, hlt, hd⟩
      have hnumbers := numbers_flatMap hlt
      rw [hn] at hnumbers
      have hlen : d.length = 2 + n * 64 := by rw [hd, List.length_append, length_flatMap, hn]; rfl
      rw [if_neg (by rw [not_or, not_not, not_not]; exact ⟨hhex, hlen⟩), hd]
      exact congrArg ok hnumbers

theorem rust_decodeWords_eq (hl : LowerCase lower) (data : List Char) (n : ℕ) :
    (List.map toNat) <$> Rust.decodeWords lower data n = Ts.decodeWords lower data n := by
  simp only [Rust.decodeWords, Ts.decodeWords, lowerHex_eq, drop_add_two]
  by_cases hx : Hexed (lower data)
  case neg =>
    rw [if_neg hx, if_pos (.inl (mt hl.isHex_iff.mp hx))]
    rfl
  case pos =>
    rw [if_pos hx]
    by_cases hlen : (lower data).length = 2 + n * 64
    case neg =>
      rw [if_pos (.inr hlen)]
      simp only [if_pos hlen]
      rfl
    case pos =>
      have hd : ((lower data).drop 2).length = n * 64 := by rw [List.length_drop, hlen]; omega
      rw [if_neg (by rw [not_or, not_not, not_not]; exact ⟨hl.isHex_iff.mpr hx, hlen⟩)]
      simp only [if_neg (not_not.mpr hlen)]
      have hread : ∀ i ∈ List.range n, ∃ v, Rust.fromHex (slice ((lower data).drop 2) i) = some v ∧
          v.toNat = hexValue (slice ((lower data).drop 2) i) := fun i hi => by
        have := List.mem_range.mp hi
        exact fromHex_slice hx.right (by rw [hd]; omega)
      generalize (lower data).drop 2 = body at hread
      have hok : (List.range n).mapM (fun i => unwrap (Rust.fromHex (slice body i))) =
          .ok ((List.range n).map fun i => (Rust.fromHex (slice body i)).getD zero) := by
        refine mapM_ok fun i hi => ?_
        obtain ⟨v, hv, _⟩ := hread i hi
        rw [hv]
        rfl
      rw [hok]
      refine congrArg ok ?_
      rw [List.map_map]
      refine List.map_congr_left fun i hi => ?_
      obtain ⟨v, hv, hval⟩ := hread i hi
      rw [Function.comp_apply, hv, Option.getD_some, hval]

theorem cpp_decodeWords_eq (data : List Char) (n : ℕ) : Cpp.decodeWords data n = Rust.decodeWords Cpp.lower data n := by
  simp only [Cpp.decodeWords, Rust.decodeWords, lowerHex_eq, ← rust_fromHex_eq]
  by_cases hx : Hexed (Cpp.lower data)
  case neg => rw [if_neg hx, if_pos (.inl (mt hexData_iff.mp hx))]
  case pos =>
    rw [if_pos hx]
    refine if_congr ?_ rfl rfl
    rw [or_iff_right (not_not.mpr (hexData_iff.mpr hx))]

theorem rust_words?_eq (hl : LowerCase lower) (data : List Char) (n : ℕ) :
    (Option.map (List.map toNat)) <$> Rust.words? lower data n = .ok (Ts.decodeWords lower data n).toOption := by
  have hts : Ts.decodeWords lower data n ≠ .error .panicked := by
    simp only [Ts.decodeWords]
    split <;> simp
  rw [Rust.words?]
  rw [← rust_decodeWords_eq hl] at hts ⊢
  cases h : Rust.decodeWords lower data n
  case ok ws   => rfl
  case error e =>
    rw [h] at hts
    cases e
    case panicked => exact absurd rfl hts
    all_goals rfl

theorem cpp_words?_eq (data : List Char) (n : ℕ) : Cpp.words? data n = Rust.words? Cpp.lower data n := by
  rw [Cpp.words?, Rust.words?, cpp_decodeWords_eq]

-- A topic or a word of the data, as it is written.
def marked (n : ℕ) : List Char := ['0', 'x'] ++ hexText 64 n

theorem isPrefixOf_marked (n : ℕ) : ['0', 'x'].isPrefixOf (marked n) :=
  List.isPrefixOf_iff_prefix.mpr (List.prefix_append _ _)

theorem drop_marked (n : ℕ) : (marked n).drop 2 = hexText 64 n := List.drop_left' rfl

-- The logs of the pool, in lower case, and the events that they stand for.
inductive IsEvent (topics : List (List Char)) (data address : List Char) : DecodedEvent ℕ → Prop
  | traded {who scope mask quantity amount : ℕ} {isBuy : Bool} :
    who < 2 ^ 160 → scope < 2 ^ 32 → mask < 2 ^ 256 → quantity < 2 ^ 128 → amount < 2 ^ 128 →
    topics = [topicTraded, marked who, marked scope, marked mask] →
    data = ['0', 'x'] ++ [isBuy.toNat, quantity, amount].flatMap (hexText 64) →
    IsEvent topics data address (.traded address (['0', 'x'] ++ hexText 40 who) scope mask isBuy quantity amount)
  | redeemed {who scope mask quantity amount : ℕ} :
    who < 2 ^ 160 → scope < 2 ^ 32 → mask < 2 ^ 256 → quantity < 2 ^ 128 → amount < 2 ^ 128 →
    topics = [topicRedeemed, marked who, marked scope, marked mask] →
    data = ['0', 'x'] ++ [quantity, amount].flatMap (hexText 64) →
    IsEvent topics data address (.redeemed address (['0', 'x'] ++ hexText 40 who) scope mask quantity amount)

def DecodedEvent.address {Mask : Type} : DecodedEvent Mask → List Char
  | traded address ..   => address
  | redeemed address .. => address

theorem IsEvent.address_eq {data address : List Char} (h : IsEvent topics data address e) : e.address = address := by
  cases h <;> rfl

theorem IsEvent.of_address {data address : List Char} (h : IsEvent topics data address e) (address' : List Char) :
    ∃ e, IsEvent topics data address' e := by
  cases h
  case traded hw hs hm hq ha ht hd   => exact ⟨_, .traded hw hs hm hq ha ht hd⟩
  case redeemed hw hs hm hq ha ht hd => exact ⟨_, .redeemed hw hs hm hq ha ht hd⟩

theorem addressFromWord_eq (h : n < 2 ^ 160) : Ts.addressFromWord n = ['0', 'x'] ++ hexText 40 n := by
  rw [Ts.addressFromWord, padded_eq (by decide) (by rwa [show 16 ^ 40 = 2 ^ 160 by decide])]

theorem isTopic_iff (hl : LowerCase lower) : Ts.isTopic (lower t) ↔ Hexed (lower t) ∧ (lower t).length = 66 := by
  rw [Ts.isTopic, Bool.and_eq_true, Bool.and_eq_true, List.all_eq_true, decide_eq_true_eq, List.length_drop]
  refine ⟨fun h => ⟨⟨h.left.left, LowerHex.allHex h.right⟩, by omega⟩, fun h => ⟨⟨h.left.left, by omega⟩, hl.lowerHex h.left⟩⟩

theorem isTopic_iff_marked : Ts.isTopic t ↔ t = marked (hexValue (t.drop 2)) := by
  rw [Ts.isTopic, Bool.and_eq_true, Bool.and_eq_true, List.all_eq_true, decide_eq_true_eq]
  constructor
  case mp  =>
    intro ⟨⟨hp, hlen⟩, hlow⟩
    rw [marked, ← eq_hexText hlow hlen rfl]
    exact eq_marked ⟨hp, LowerHex.allHex hlow⟩
  case mpr =>
    intro h
    rw [h, drop_marked]
    exact ⟨⟨isPrefixOf_marked _, length_hexText 64 _⟩, lowerHex_hexText 64 _⟩

theorem isTopic_marked (n : ℕ) : Ts.isTopic (marked n) := by
  rw [Ts.isTopic, drop_marked, Bool.and_eq_true, Bool.and_eq_true, List.all_eq_true, decide_eq_true_eq]
  exact ⟨⟨isPrefixOf_marked n, length_hexText 64 n⟩, lowerHex_hexText 64 n⟩

theorem hexValue_marked (h : n < 2 ^ 256) : hexValue ((marked n).drop 2) = n := by
  rw [drop_marked, hexValue_hexText (by rwa [show 16 ^ 64 = 2 ^ 256 by decide])]

-- Topics are the same in either lower case.
theorem map_lower_eq (hl : LowerCase lower) (h : (topics.map lower).all Ts.isTopic) :
    topics.map lower = topics.map Cpp.lower := by
  refine List.map_congr_left fun t ht => ?_
  have := List.all_eq_true.mp h _ (List.mem_map_of_mem ht)
  exact hl.eq_cpp ((isTopic_iff hl).mp this).left

theorem all_isTopic_iff (hl : LowerCase lower) : (topics.map lower).all Ts.isTopic ↔
    (topics.map Cpp.lower).all Ts.isTopic := by
  refine ⟨fun h => map_lower_eq hl h ▸ h, fun h => ?_⟩
  have heq : topics.map lower = topics.map Cpp.lower := by
    refine List.map_congr_left fun t ht => ?_
    have := List.all_eq_true.mp h _ (List.mem_map_of_mem ht)
    exact hl.eq_cpp (hl.hexed_iff.mpr ((isTopic_iff lowerCase_cpp).mp this).left)
  rwa [heq]

theorem decodePoolLog_iff (hl : LowerCase lower) : Ts.decodePoolLog lower log = some e ↔
    IsEvent (log.topics.map Cpp.lower) (Cpp.lower log.data) (lower log.address) e := by
  constructor
  case mp  =>
    intro h
    rw [Ts.decodePoolLog] at h
    split at h
    case h_2                => cases h
    case h_1 t₀ t₁ t₂ t₃ ht =>
      by_cases hall : [t₀, t₁, t₂, t₃].all Ts.isTopic
      case neg => rw [if_pos hall] at h; cases h
      case pos =>
        rw [if_neg (not_not.mpr hall)] at h
        have htopics := map_lower_eq hl (ht ▸ hall)
        rw [ht] at htopics
        have hmark : ∀ t ∈ [t₀, t₁, t₂, t₃], t = marked (hexValue (t.drop 2)) := fun t hm =>
          isTopic_iff_marked.mp (List.all_eq_true.mp hall t hm)
        have hmask : hexValue (t₃.drop 2) < 2 ^ 256 := by
          have := hexValue_lt (t₃.drop 2)
          rw [hmark t₃ (by simp), drop_marked, length_hexText] at this
          rw [hmark t₃ (by simp), drop_marked]
          exact this
        by_cases hrange : 2 ^ 160 ≤ hexValue (t₁.drop 2) ∨ 2 ^ 32 ≤ hexValue (t₂.drop 2)
        case pos => simp only [if_pos hrange] at h; cases h
        case neg =>
          simp only [if_neg hrange] at h
          rw [not_or, not_le, not_le] at hrange
          rw [addressFromWord_eq hrange.left] at h
          have h₁ := hmark t₁ (by simp)
          have h₂ := hmark t₂ (by simp)
          have h₃ := hmark t₃ (by simp)
          split_ifs at h with h₀ h₀
          case pos =>
            split at h
            case h_2                          => cases h
            case h_1 isBuy quantity amount hw =>
              split_ifs at h with hr
              rw [not_or, not_or, not_lt, not_le, not_le] at hr
              have ⟨_, _, hd⟩ := (decodeWords_iff hl).mp hw
              obtain rfl := Option.some.inj h
              refine .traded hrange.left hrange.right hmask hr.right.left hr.right.right ?_ ?_
              · rw [← htopics, h₀, ← h₁, ← h₂, ← h₃]
              · obtain rfl | rfl : isBuy = 0 ∨ isBuy = 1 := by omega
                · exact hd
                · exact hd
          case pos =>
            split at h
            case h_2                    => cases h
            case h_1 quantity amount hw =>
              split_ifs at h with hr
              rw [not_or, not_le, not_le] at hr
              have ⟨_, _, hd⟩ := (decodeWords_iff hl).mp hw
              obtain rfl := Option.some.inj h
              refine .redeemed hrange.left hrange.right hmask hr.left hr.right ?_ hd
              rw [← htopics, h₀, ← h₁, ← h₂, ← h₃]
  case mpr =>
    have hpow {k : ℕ} (hk : k ≤ 256) {m : ℕ} (h : m < 2 ^ k) : m < 2 ^ 256 :=
      h.trans_le (Nat.pow_le_pow_right (by decide) hk)
    have htopics {t₀ : List Char} {a b c : ℕ} (h₀ : Ts.isTopic t₀)
        (h : log.topics.map Cpp.lower = [t₀, marked a, marked b, marked c]) :
        log.topics.map lower = [t₀, marked a, marked b, marked c] ∧
          [t₀, marked a, marked b, marked c].all Ts.isTopic := by
      have hall : [t₀, marked a, marked b, marked c].all Ts.isTopic := by
        simp [h₀, isTopic_marked]
      rw [← h] at hall ⊢
      exact ⟨map_lower_eq hl ((all_isTopic_iff hl).mpr hall), hall⟩
    intro h
    cases h
    case traded who scope mask quantity amount isBuy hw hs hm hq ha ht hd =>
      obtain ⟨ht, hall⟩ := htopics (by decide) ht
      have hbit : isBuy.toNat < 2 := Bool.toNat_lt isBuy
      have hwords : Ts.decodeWords lower log.data 3 = .ok [isBuy.toNat, quantity, amount] := by
        refine (decodeWords_iff hl).mpr ⟨rfl, ?_, hd⟩
        simp only [List.forall_mem_cons]
        exact ⟨hpow (show 1 ≤ 256 by decide) hbit, hpow (by decide) hq, hpow (by decide) ha, by simp⟩
      rw [Ts.decodePoolLog, ht]
      simp only [if_neg (not_not.mpr hall), hexValue_marked (hpow (by decide) hw), hexValue_marked (hpow (by decide) hs),
        hexValue_marked hm, hwords, addressFromWord_eq hw]
      rw [if_neg (by omega), if_pos trivial, if_neg (by omega)]
      cases isBuy <;> rfl
    case redeemed who scope mask quantity amount hw hs hm hq ha ht hd =>
      obtain ⟨ht, hall⟩ := htopics (by decide) ht
      have hwords : Ts.decodeWords lower log.data 2 = .ok [quantity, amount] := by
        refine (decodeWords_iff hl).mpr ⟨rfl, ?_, hd⟩
        simp only [List.forall_mem_cons]
        exact ⟨hpow (by decide) hq, hpow (by decide) ha, by simp⟩
      rw [Ts.decodePoolLog, ht]
      simp only [if_neg (not_not.mpr hall), hexValue_marked (hpow (by decide) hw), hexValue_marked (hpow (by decide) hs),
        hexValue_marked hm, hwords, addressFromWord_eq hw]
      rw [if_neg (by omega), if_neg (by decide), if_pos trivial, if_neg (by omega)]

theorem rust_isTopic_iff : Rust.isTopic t ↔ Hexed t ∧ t.length = 66 := by
  rw [Rust.isTopic, Bool.and_eq_true, Bool.and_eq_true, List.all_eq_true, decide_eq_true_eq, Hexed, AllHex, and_assoc,
    and_comm]

theorem rust_all_isTopic (hl : LowerCase lower) (topics : List (List Char)) :
    (topics.map lower).all Rust.isTopic = (topics.map lower).all Ts.isTopic := by
  rw [List.all_map, List.all_map]
  congr 1
  funext t
  rw [Function.comp_apply, Function.comp_apply, Bool.eq_iff_iff, rust_isTopic_iff, isTopic_iff hl]

theorem fromHex_topic (h : Ts.isTopic t) : ∃ v, Rust.fromHex t = some v ∧ v.toNat = hexValue (t.drop 2) := by
  have hu : unprefixed t = t.drop 2 := if_pos (by simp only [Ts.isTopic, Bool.and_eq_true] at h; exact h.left.left)
  have hm := isTopic_iff_marked.mp h
  have hlen : (t.drop 2).length = 64 := by rw [hm, drop_marked, length_hexText]
  obtain ⟨v, hv, hval⟩ := @fromHex_of_allHex t (by rw [hu, hm, drop_marked]; exact (lowerHex_hexText 64 _).allHex)
    (by rw [hu]; exact List.ne_nil_of_length_pos (by omega)) (by rw [hu, hlen])
  exact ⟨v, hv, hval.trans (by rw [hu])⟩

theorem words?_cases (hl : LowerCase lower) (data : List Char) (n : ℕ) :
    (∃ vs, Rust.words? lower data n = .ok (some vs) ∧ Ts.decodeWords lower data n = .ok (vs.map toNat)) ∨
    (∃ e, Rust.words? lower data n = .ok none ∧ Ts.decodeWords lower data n = .error e) := by
  have h := rust_words?_eq hl data n
  cases hw : Rust.words? lower data n
  case error e => rw [hw] at h; cases h
  case ok ws   =>
    rw [hw] at h
    have h := ok.inj h
    cases hts : Ts.decodeWords lower data n
    case error e =>
      rw [hts] at h
      refine .inr ⟨e, ?_, rfl⟩
      match ws with
      | none    => rfl
      | some vs => cases h
    case ok ns   =>
      rw [hts] at h
      match ws with
      | none    => cases h
      | some vs =>
        refine .inl ⟨vs, rfl, ?_⟩
        rw [Option.some.inj h]

theorem rust_decodePoolLog_eq (hl : LowerCase lower) (log : RawLog) :
    (Option.map (DecodedEvent.map toNat)) <$> Rust.decodePoolLog lower log = .ok (Ts.decodePoolLog lower log) := by
  have htopic := rust_all_isTopic hl log.topics
  rw [Rust.decodePoolLog, Ts.decodePoolLog]
  generalize log.topics.map lower = ts at htopic
  match ts with
  | [t₀, t₁, t₂, t₃] =>
    simp only [htopic]
    by_cases hall : [t₀, t₁, t₂, t₃].all Ts.isTopic
    case neg => rw [if_pos hall, if_pos hall]; rfl
    case pos =>
      rw [if_neg (not_not.mpr hall), if_neg (not_not.mpr hall)]
      have hmem := List.all_eq_true.mp hall
      obtain ⟨who, hwho, hwho'⟩ := fromHex_topic (hmem t₁ (by simp))
      obtain ⟨scope, hscope, hscope'⟩ := fromHex_topic (hmem t₂ (by simp))
      obtain ⟨mask, hmask, hmask'⟩ := fromHex_topic (hmem t₃ (by simp))
      simp only [hwho, hscope, hmask, ← hwho', ← hscope', ← hmask', lt_bits_iff]
      by_cases hr : 2 ^ 160 ≤ who.toNat ∨ 2 ^ 32 ≤ scope.toNat
      case pos => rw [if_pos hr, if_pos hr]; rfl
      case neg =>
        rw [if_neg hr, if_neg hr]
        rw [not_or, not_le, not_le] at hr
        have hu64 : Rust.toU64 scope = some scope.toNat := by
          rw [Rust.toU64, toU128_eq (by omega)]
          exact Option.filter_some_pos (decide_eq_true (by omega))
        simp only [hu64, (addressText_eq hr.left).left, Nat.mod_eq_of_lt hr.right]
        by_cases h₀ : t₀ = topicTraded
        case pos =>
          rw [if_pos h₀, if_pos h₀]
          obtain ⟨vs, hv, hts⟩ | ⟨e, hv, hts⟩ := words?_cases hl log.data 3
          case inr => rw [hv, hts]; rfl
          case inl =>
            rw [hv, hts, ok_bind]
            have hlen := ((decodeWords_iff hl).mp hts).left
            rw [List.length_map] at hlen
            obtain ⟨isBuy, quantity, amount, rfl⟩ := List.length_eq_three.mp hlen
            simp only [List.map_cons, List.map_nil, pow_one]
            by_cases hw : 2 ≤ isBuy.toNat ∨ 2 ^ 128 ≤ quantity.toNat ∨ 2 ^ 128 ≤ amount.toNat
            case pos => rw [if_pos hw, if_pos (show 1 < isBuy.toNat ∨ _ from hw)]; rfl
            case neg =>
              rw [if_neg hw, if_neg (show ¬ (1 < isBuy.toNat ∨ _) from hw)]
              rw [not_or, not_or, not_le, not_le, not_le] at hw
              have hbit : (!isBuy.isZero) = decide (isBuy.toNat = 1) := by
                rw [Bool.eq_iff_iff, Bool.not_eq_true', ← Bool.not_eq_true, isZero_iff, decide_eq_true_eq]
                omega
              rw [toU128_eq hw.right.left, toU128_eq hw.right.right, hbit]
              rfl
        case neg =>
          rw [if_neg h₀, if_neg h₀]
          by_cases h₁ : t₀ = topicRedeemed
          case neg => rw [if_neg h₁, if_neg h₁]; rfl
          case pos =>
            rw [if_pos h₁, if_pos h₁]
            obtain ⟨vs, hv, hts⟩ | ⟨e, hv, hts⟩ := words?_cases hl log.data 2
            case inr => rw [hv, hts]; rfl
            case inl =>
              rw [hv, hts, ok_bind]
              have hlen := ((decodeWords_iff hl).mp hts).left
              rw [List.length_map] at hlen
              obtain ⟨quantity, amount, rfl⟩ := List.length_eq_two.mp hlen
              simp only [List.map_cons, List.map_nil]
              by_cases hw : 2 ^ 128 ≤ quantity.toNat ∨ 2 ^ 128 ≤ amount.toNat
              case pos => rw [if_pos hw, if_pos hw]; rfl
              case neg =>
                rw [if_neg hw, if_neg hw]
                rw [not_or, not_le, not_le] at hw
                rw [toU128_eq hw.left, toU128_eq hw.right]
                rfl
  | [] | [_] | [_, _] | [_, _, _] | _ :: _ :: _ :: _ :: _ :: _ => rfl

theorem cpp_decodePoolLog_eq (log : RawLog) : Cpp.decodePoolLog log = Rust.decodePoolLog Cpp.lower log := by
  have htopic := rust_all_isTopic lowerCase_cpp log.topics
  have hcpp (t : List Char) : (t.length = 66 && Cpp.hexData t) = Rust.isTopic t := by
    rw [Bool.eq_iff_iff, rust_isTopic_iff, Bool.and_eq_true, hexData_iff, decide_eq_true_eq, and_comm]
  rw [Cpp.decodePoolLog, Rust.decodePoolLog]
  generalize log.topics.map Cpp.lower = ts at htopic
  rcases ts with _ | ⟨t₀, _ | ⟨t₁, _ | ⟨t₂, _ | ⟨t₃, _ | ⟨t₄, ts⟩⟩⟩⟩⟩
  case cons.cons.cons.cons.nil =>
    simp only [hcpp, htopic]
    by_cases hall : [t₀, t₁, t₂, t₃].all Ts.isTopic
    case neg => rw [if_pos hall, if_pos hall]
    case pos =>
      rw [if_neg (not_not.mpr hall), if_neg (not_not.mpr hall)]
      have hmem := List.all_eq_true.mp hall
      obtain ⟨who, hwho, hwho'⟩ := fromHex_topic (hmem t₁ (by simp))
      obtain ⟨scope, hscope, _⟩ := fromHex_topic (hmem t₂ (by simp))
      obtain ⟨mask, hmask, _⟩ := fromHex_topic (hmem t₃ (by simp))
      simp only [← rust_fromHex_eq, hwho, hscope, hmask, unwrap, ok_bind, cpp_bits_eq_rust, lt_bits_iff]
      by_cases hr : 2 ^ 160 ≤ who.toNat ∨ 2 ^ 32 ≤ scope.toNat
      case pos => rw [if_pos hr, if_pos hr]; rfl
      case neg =>
        rw [if_neg hr, if_neg hr]
        rw [not_or, not_le, not_le] at hr
        have hu128 : Rust.toU128 scope = some scope.toNat := toU128_eq (by omega)
        have hu64 : Rust.toU64 scope = some scope.toNat := by
          rw [Rust.toU64, hu128]
          exact Option.filter_some_pos (decide_eq_true (by omega))
        obtain ⟨hr₁, hr₂⟩ := addressText_eq hr.left
        simp only [hu64, hu128, hr₁, hr₂, toU128_eq_cpp, ok_bind, cpp_words?_eq]
        by_cases h₀ : t₀ = topicTraded
        case pos =>
          rw [if_pos h₀, if_pos h₀]
          cases Rust.words? Cpp.lower log.data 3
          case error => rfl
          case ok ws =>
            rcases ws with _ | ws
            case none => rfl
            rcases ws with _ | ⟨isBuy, _ | ⟨quantity, _ | ⟨amount, _ | ⟨rest, ws⟩⟩⟩⟩
            case cons.cons.cons.nil =>
              simp only [ok_bind]
              by_cases hw : 2 ^ 1 ≤ isBuy.toNat ∨ 2 ^ 128 ≤ quantity.toNat ∨ 2 ^ 128 ≤ amount.toNat
              case pos => rw [if_pos hw, if_pos hw]
              case neg =>
                rw [if_neg hw, if_neg hw]
                rw [not_or, not_or, not_le, not_le, not_le] at hw
                rw [toU128_eq hw.right.left, toU128_eq hw.right.right]
                rfl
            all_goals rfl
        case neg =>
          rw [if_neg h₀, if_neg h₀]
          by_cases h₁ : t₀ = topicRedeemed
          case neg => rw [if_neg h₁, if_neg h₁]; rfl
          case pos =>
            rw [if_pos h₁, if_pos h₁]
            cases Rust.words? Cpp.lower log.data 2
            case error => rfl
            case ok ws =>
              rcases ws with _ | ws
              case none => rfl
              rcases ws with _ | ⟨quantity, _ | ⟨amount, _ | ⟨rest, ws⟩⟩⟩
              case cons.cons.nil =>
                simp only [ok_bind]
                by_cases hw : 2 ^ 128 ≤ quantity.toNat ∨ 2 ^ 128 ≤ amount.toNat
                case pos => rw [if_pos hw, if_pos hw]
                case neg =>
                  rw [if_neg hw, if_neg hw]
                  rw [not_or, not_le, not_le] at hw
                  rw [toU128_eq hw.left, toU128_eq hw.right]
                  rfl
              all_goals rfl
  all_goals rfl

end Logs

section Codecs

open U256

variable {lower : List Char → List Char} {data text : List Char} {name : FunctionName} {ns : List ℕ}
  {args : List Ts.Word} {log : RawLog}

theorem LowerHex.lower_eq {s : List Char} (h : LowerHex s) : Cpp.lower s = s :=
  (List.map_congr_left fun c hc => (isLowerHexdigit_iff.mp (h c hc)).right).trans (List.map_id _)

theorem cpp_lower_append (s t : List Char) : Cpp.lower (s ++ t) = Cpp.lower s ++ Cpp.lower t := List.map_append

theorem lower_callText (name : FunctionName) (ns : List ℕ) : Cpp.lower (callText name ns) = callText name ns := by
  have hselector : Cpp.lower name.selector = name.selector := by cases name <;> decide
  rw [callText, cpp_lower_append, hselector, (lowerHex_flatMap ns).lower_eq]

-- An argument for a number that was decoded.
def Kind.argument (kind : Kind) (n : ℕ) : Ts.Word :=
  match kind with
  | .address => .string (Ts.addressFromWord n)
  | .bool    => .boolean (n = 1)
  | _        => .bigint n

def arguments (name : FunctionName) (ns : List ℕ) : List Ts.Word :=
  (name.signature.zip ns).map fun (kind, n) => kind.argument n

theorem decodeCall_cpp_lower (hl : LowerCase lower) (data : List Char) :
    Ts.decodeCall Cpp.lower data = Ts.decodeCall lower data := by
  by_cases hx : Hexed (lower data)
  case pos => simp only [Ts.decodeCall, hl.eq_cpp hx]
  case neg =>
    have hx' := mt hl.hexed_iff.mpr hx
    simp only [Ts.decodeCall]
    rw [if_pos (.inl (mt lowerCase_cpp.isHex_iff.mp hx')), if_pos (.inl (mt hl.isHex_iff.mp hx))]

theorem represents_argument {kind : Kind} {n : ℕ} (h : n < 2 ^ kind.bits) : Represents kind (kind.argument n) n := by
  cases kind
  case address =>
    have h' : n < 16 ^ 40 := h
    have hlow := lowerHex_hexText 40 n
    have := @Represents.address (['0', 'x'] ++ hexText 40 n) (hexed_marked hlow.allHex)
      (by rw [List.length_append, length_hexText]; rfl)
    have hdrop : (['0', 'x'] ++ hexText 40 n).drop 2 = hexText 40 n := List.drop_left' rfl
    rw [hdrop, hexValue_hexText h'] at this
    rwa [Kind.argument, addressFromWord_eq h]
  case bool    =>
    obtain rfl | rfl : n = 0 ∨ n = 1 := by
      have : n < 2 := h
      omega
    · exact .bool false
    · exact .bool true
  all_goals exact .bigint ⟨by decide, by decide⟩ h

theorem stands_arguments (h : InRange name ns) : Stands name (arguments name ns) ns := by
  rw [InRange] at h
  refine ⟨by simp [arguments, h.length_eq], ?_⟩
  rw [arguments]
  generalize name.signature = kinds at h
  induction h
  case nil               => exact .nil
  case cons hk _ hi => exact .cons (represents_argument hk) hi

theorem decodeCall_encodeCall (hl : LowerCase lower) (h : Ts.encodeCall name args = .ok text) :
    ∃ ns, Stands name args ns ∧ Ts.decodeCall lower text = .ok (name, ns) := by
  obtain ⟨ns, hs, rfl⟩ := encodeCall_iff.mp h
  exact ⟨ns, hs, (decodeCall_iff hl).mpr ⟨hs.inRange, lower_callText name ns⟩⟩

theorem encodeCall_decodeCall (hl : LowerCase lower) (h : Ts.decodeCall lower data = .ok (name, ns)) :
    Ts.encodeCall name (arguments name ns) = .ok (lower data) := by
  have ⟨hr, hd⟩ := (decodeCall_iff hl).mp h
  have hx : Hexed (lower data) := by
    rw [hl.hexed_iff, hd]
    exact hexed_callText name ns
  exact encodeCall_iff.mpr ⟨ns, stands_arguments hr, by rw [hl.eq_cpp hx, hd]⟩

theorem cpp_decodePoolLog_iff (hl : LowerCase lower) (log : RawLog) :
    (Option.map (DecodedEvent.map toNat)) <$> Cpp.decodePoolLog log = .ok (Ts.decodePoolLog lower log) ↔
      (lower log.address = Cpp.lower log.address ∨
        ∀ e, ¬ IsEvent (log.topics.map Cpp.lower) (Cpp.lower log.data) (lower log.address) e) := by
  rw [cpp_decodePoolLog_eq, rust_decodePoolLog_eq lowerCase_cpp, ok.injEq]
  by_cases ha : lower log.address = Cpp.lower log.address
  case pos =>
    refine iff_of_true ?_ (.inl ha)
    refine Option.ext fun e => ?_
    rw [decodePoolLog_iff hl, decodePoolLog_iff lowerCase_cpp, ha]
  case neg =>
    rw [or_iff_right ha]
    constructor
    case mp  =>
      intro h e he
      have hts := (decodePoolLog_iff hl).mpr he
      rw [← h, decodePoolLog_iff lowerCase_cpp] at hts
      exact ha (he.address_eq.symm.trans hts.address_eq)
    case mpr =>
      intro h
      have hnone {lower' : List Char → List Char} (hl' : LowerCase lower') : Ts.decodePoolLog lower' log = none := by
        refine Option.eq_none_iff_forall_not_mem.mpr fun e he => ?_
        obtain ⟨e, he⟩ := ((decodePoolLog_iff hl').mp he).of_address (lower log.address)
        exact h e he
      rw [hnone hl, hnone lowerCase_cpp]

-- A conversion that knows one letter beyond ASCII.
def accentLower (s : List Char) : List Char := s.map fun c => if c = 'É' then 'é' else c.toLower

theorem lowerCase_accent : LowerCase accentLower where
  ascii := fun s hs => List.map_congr_left fun c hc => if_neg fun he => absurd (hs c hc) (by rw [he]; decide)
  hex   := fun s hs c hc => by
    by_contra hn
    have := hs _ (List.mem_map_of_mem hc)
    by_cases he : c = 'É'
    case pos => rw [if_pos he] at this; exact absurd this (by decide)
    case neg =>
      rw [if_neg he, toLower_eq_self hn] at this
      exact hn (lowerCase_cpp.hex [c] (by simpa [Cpp.lower, toLower_eq_self hn] using this) c (by simp))

def sampleAddress : List Char := ['0', 'x'] ++ hexText 40 0xa9

def sampleLog : RawLog where
  address := ['É']
  topics  := [topicRedeemed, marked 1, marked 3, marked 8]
  data    := ['0', 'x'] ++ [5, 5].flatMap (hexText 64)

-- The codecs write and read exactly the calls and the events of the pool. The one of C++ differs for a
-- negative argument that a cast brings into range, and for an address that is not lowered letter by letter.
theorem codecs_exact (hl : LowerCase lower) :
    (∀ name args text, Ts.encodeCall name args = .ok text ↔
      ∃ ns, Stands name args ns ∧ text = callText name ns) ∧
    (∀ name args, Rust.encodeCall name args = Ts.encodeCall name (args.map Arg.toWord)) ∧
    (∀ name (args : List Cpp.Literal), (∀ text, Cpp.encodeCall name (args.map Cpp.arg) = .ok text ↔
      ∃ ns, Stands name (args.map Cpp.Literal.toWord) ns ∧ text = callText name ns) ↔ ¬ Wraps name args) ∧
    (∀ data name ns, Ts.decodeCall lower data = .ok (name, ns) ↔
      InRange name ns ∧ Cpp.lower data = callText name ns) ∧
    (∀ data, (fun r => (r.1, r.2.map toNat)) <$> Rust.decodeCall lower data = Ts.decodeCall lower data ∧
      (fun r => (r.1, r.2.map toNat)) <$> Cpp.decodeCall data = Ts.decodeCall lower data) ∧
    (∀ name args text, Ts.encodeCall name args = .ok text →
      ∃ ns, Stands name args ns ∧ Ts.decodeCall lower text = .ok (name, ns)) ∧
    (∀ data name ns, Ts.decodeCall lower data = .ok (name, ns) →
      Ts.encodeCall name (arguments name ns) = .ok (lower data)) ∧
    (∀ log e, Ts.decodePoolLog lower log = some e ↔
      IsEvent (log.topics.map Cpp.lower) (Cpp.lower log.data) (lower log.address) e) ∧
    (∀ log, (Option.map (DecodedEvent.map toNat)) <$> Rust.decodePoolLog lower log =
      .ok (Ts.decodePoolLog lower log)) ∧
    ∀ log, (Option.map (DecodedEvent.map toNat)) <$> Cpp.decodePoolLog log = .ok (Ts.decodePoolLog lower log) ↔
      (lower log.address = Cpp.lower log.address ∨
        ∀ e, ¬ IsEvent (log.topics.map Cpp.lower) (Cpp.lower log.data) (lower log.address) e) := by
  have hdecode (data : List Char) :
      (fun r : FunctionName × List U256 => (r.1, r.2.map toNat)) <$> Cpp.decodeCall data = Ts.decodeCall lower data := by
    rw [cpp_decodeCall_eq, rust_decodeCall_eq lowerCase_cpp, decodeCall_cpp_lower hl]
  exact ⟨fun _ _ _ => encodeCall_iff, rust_encodeCall_eq, cpp_encodeCall_iff, fun _ _ _ => decodeCall_iff hl,
    fun data => ⟨rust_decodeCall_eq hl data, hdecode data⟩, fun _ _ _ => decodeCall_encodeCall hl,
    fun _ _ _ => encodeCall_decodeCall hl, fun _ _ => decodePoolLog_iff hl, rust_decodePoolLog_eq hl,
    cpp_decodePoolLog_iff hl⟩

theorem codecs_exact_accent :
    Ts.decodeCall accentLower (callText .approve [0xa9, 5]) = .ok (.approve, [0xa9, 5]) := by
  have ⟨_, _, _, hdecode, _⟩ := codecs_exact lowerCase_accent
  refine (hdecode _ _ _).mpr ⟨.cons (by decide) (.cons (by decide) .nil), lower_callText _ _⟩

-- The allowance of -1 is written as 2^128 - 1, and the address is lowered in one runtime only.
theorem codecs_diverge :
    let args : List Cpp.Literal := [.string sampleAddress, .int (-1)]
    Cpp.encodeCall .approve (args.map Cpp.arg) = .ok (callText .approve [0xa9, 2 ^ 128 - 1]) ∧
    (¬ ∃ text, Ts.encodeCall .approve (args.map Cpp.Literal.toWord) = .ok text) ∧
    ∃ e e', Ts.decodePoolLog accentLower sampleLog = some e ∧
      (Option.map (DecodedEvent.map toNat)) <$> Cpp.decodePoolLog sampleLog = .ok (some e') ∧
        e.address = ['é'] ∧ e'.address = ['É'] := by
  intro args
  refine ⟨?_, ?_, ?_⟩
  · rw [cpp_encodeCall_eq, rust_encodeCall_eq]
    have hcast : (fromU128 (BitVec.signExtend 128 (-1 : BitVec 32)).toNat).toNat = 2 ^ 128 - 1 := by decide
    have haddress := @Represents.address sampleAddress (hexed_marked (lowerHex_hexText 40 0xa9).allHex)
      (by rw [sampleAddress, List.length_append, length_hexText]; rfl)
    refine encodeCall_iff.mpr ⟨_, ⟨rfl, ?_⟩, rfl⟩
    refine .cons haddress (.cons ?_ .nil)
    rw [← hcast]
    exact .bigint ⟨by decide, by decide⟩ (by rw [hcast]; decide)
  · intro ⟨text, h⟩
    obtain ⟨ns, hs, _⟩ := encodeCall_iff.mp h
    obtain ⟨kind, n, hr⟩ := hs.represents (.bigint (-1)) (by simp [args, Cpp.Literal.toWord])
    exact @not_represents_negative kind n (.int (-1)) (by decide) hr
  · have hevent (address : List Char) : IsEvent (sampleLog.topics.map Cpp.lower) (Cpp.lower sampleLog.data) address
        (.redeemed address (['0', 'x'] ++ hexText 40 1) 3 8 5 5) :=
      .redeemed (by decide) (by decide) (by decide) (by decide) (by decide) (by decide) (by decide)
    have hcpp : (Option.map (DecodedEvent.map toNat)) <$> Cpp.decodePoolLog sampleLog =
        .ok (some (.redeemed ['É'] (['0', 'x'] ++ hexText 40 1) 3 8 5 5)) := by
      rw [cpp_decodePoolLog_eq, rust_decodePoolLog_eq lowerCase_cpp, (decodePoolLog_iff lowerCase_cpp).mpr (hevent _)]
      rfl
    exact ⟨_, _, (decodePoolLog_iff lowerCase_accent).mpr (hevent _), hcpp, by decide, rfl⟩

end Codecs

end Sdk
