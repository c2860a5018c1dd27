import Flurbo.Sdk.HexText

-- The calls that the codecs write and read.

open Except

namespace Sdk

section Calls

open U256 FunctionName

variable {lower : List Char → List Char} {data : List Char} {name : FunctionName} {ns : List ℕ}

def callText (name : FunctionName) (ns : List ℕ) : List Char := name.selector ++ ns.flatMap (hexText 64)

def InRange (name : FunctionName) (ns : List ℕ) : Prop :=
  List.Forall₂ (fun kind n => n < 2 ^ Kind.bits kind) name.signature ns

theorem InRange.lt (h : InRange name ns) : ∀ n ∈ ns, n < 2 ^ 256 := by
  rw [InRange] at h
  generalize name.signature = kinds at h
  induction h
  case nil                 => exact fun n hn => absurd hn List.not_mem_nil
  case cons kind _ _ _ hk _ hi =>
    exact List.forall_mem_cons.mpr ⟨hk.trans_le (Nat.pow_le_pow_right (by decide) kind.bits_le), hi⟩

theorem inRange_iff (h : ns.length = name.signature.length) : InRange name ns ↔
    ¬ (ns.zip name.signature).any fun (v, kind) => 2 ^ Kind.bits kind ≤ v := by
  rw [InRange]
  generalize name.signature = kinds at h ⊢
  induction kinds generalizing ns
  case nil                => simp [List.length_eq_zero_iff.mp h]
  case cons kind kinds hi =>
    obtain ⟨n, ns, rfl⟩ := List.exists_cons_of_length_eq_add_one h
    have hi := hi (Nat.succ.inj h)
    rw [List.forall₂_cons, hi, List.zip_cons_cons, List.any_cons, Bool.or_eq_true, not_or, decide_eq_true_eq, not_le]

theorem rust_decodeCall_eq (hl : LowerCase lower) (data : List Char) :
    (fun r : FunctionName × List U256 => (r.1, r.2.map toNat)) <$> Rust.decodeCall lower data =
      Ts.decodeCall lower data := by
  simp only [Rust.decodeCall, Ts.decodeCall, lowerHex_eq]
  by_cases hx : Hexed (lower data)
  case neg =>
    rw [if_neg hx, if_pos (.inl (mt hl.isHex_iff.mp hx))]
    rfl
  case pos =>
    rw [if_pos hx]
    by_cases hlen : (lower data).length < 10
    case pos =>
      rw [Option.filter_some_neg (by simpa using hlen), if_pos (.inr hlen)]
      rfl
    case neg =>
      rw [Option.filter_some_pos (by simpa using hlen), if_neg (by rw [not_or, not_not]; exact ⟨hl.isHex_iff.mpr hx, hlen⟩)]
      simp only
      cases selectors.find? fun name => name.selector = (lower data).take 10
      case none      => rfl
      case some name =>
        simp only
        by_cases hb : ((lower data).drop 10).length = name.signature.length * 64
        case neg => rw [if_pos hb, if_pos hb]; rfl
        case pos =>
          rw [if_neg (not_not.mpr hb), if_neg (not_not.mpr hb)]
          have hbody : AllHex ((lower data).drop 10) := fun c hc => by
            rw [← List.drop_drop (i := 8) (j := 2)] at hc
            exact hx.right c (List.mem_of_mem_drop hc)
          have hargs := @readArgs_eq _ 0 name.signature hbody (by omega)
          simp only [Nat.zero_add] at hargs
          rw [mapIdx_eq, numbers]
          have hpair (x : Except FlurboError (List U256)) :
              (fun r : FunctionName × List U256 => (r.1, r.2.map toNat)) <$> (x >>= fun vs => pure (name, vs)) =
                (name, ·) <$> ((List.map toNat) <$> x) := by
            cases x <;> rfl
          rw [hpair, hargs]
          split <;> rfl

-- Keeping the last match finds the first one, as there is at most one.
theorem foldl_selectors (text : List Char) :
    selectors.foldl (fun name f => if f.selector = text then some f else name) none =
      selectors.find? fun name => name.selector = text := by
  have hfold (l : List FunctionName) (start : Option FunctionName) :
      l.foldl (fun name f => if f.selector = text then some f else name) start =
        ((l.find? fun name => name.selector = text).or start) := by
    induction l generalizing start
    case nil         => rfl
    case cons f l hi =>
      rw [List.foldl_cons, hi]
      by_cases hf : f.selector = text
      case neg => rw [if_neg hf, List.find?_cons_of_neg (by simpa using hf)]
      case pos =>
        rw [if_pos hf, List.find?_cons_of_pos (by simpa using hf)]
        cases hg : l.find? fun name => name.selector = text
        case none   => rfl
        case some g =>
          have := List.find?_some hg
          rw [← hf, decide_eq_true_eq, selector_inj] at this
          rw [this]
          rfl
  rw [hfold, Option.or_none]

theorem cpp_decodeCall_eq (data : List Char) : Cpp.decodeCall data = Rust.decodeCall Cpp.lower data := by
  simp only [Cpp.decodeCall, Rust.decodeCall, lowerHex_eq, foldl_selectors, cpp_readArg_eq]
  by_cases hx : Hexed (Cpp.lower data)
  case neg =>
    rw [if_neg hx, if_pos (.inl (mt hexData_iff.mp hx))]
    rfl
  case pos =>
    rw [if_pos hx]
    by_cases hlen : (Cpp.lower data).length < 10
    case pos => rw [Option.filter_some_neg (by simpa using hlen), if_pos (.inr hlen)]
    case neg =>
      rw [Option.filter_some_pos (by simpa using hlen), if_neg (by rw [not_or, not_not]; exact ⟨hexData_iff.mpr hx, hlen⟩)]

theorem selector_spec (f : FunctionName) : ['0', 'x'].isPrefixOf f.selector ∧ LowerHex (f.selector.drop 2) := by
  cases f <;> decide

theorem hexed_callText (name : FunctionName) (ns : List ℕ) : Hexed (callText name ns) := by
  have ⟨hp, hl⟩ := selector_spec name
  obtain ⟨t, ht⟩ := List.isPrefixOf_iff_prefix.mp hp
  have hdrop : (callText name ns).drop 2 = name.selector.drop 2 ++ ns.flatMap (hexText 64) := by
    rw [callText, List.drop_append_of_le_length (by rw [length_selector]; decide)]
  refine ⟨List.isPrefixOf_iff_prefix.mpr ⟨t ++ ns.flatMap (hexText 64), ?_⟩, ?_⟩
  · rw [callText, ← ht, List.append_assoc]
  · rw [hdrop]
    exact (hl.append (lowerHex_flatMap ns)).allHex

theorem find?_selector (f : FunctionName) : (selectors.find? fun name => name.selector = f.selector) = some f := by
  cases hf : selectors.find? fun name => name.selector = f.selector
  case none   =>
    have := List.find?_eq_none.mp hf f (mem_selectors f)
    simp at this
  case some g =>
    have := List.find?_some hf
    rw [decide_eq_true_eq, selector_inj] at this
    rw [this]

theorem drop_two_drop_eight (data : List Char) : (data.drop 2).drop 8 = data.drop 10 := List.drop_drop

-- What is decoded is a call of a function on numbers in range, up to the case of letters.
theorem decodeCall_iff (hl : LowerCase lower) : Ts.decodeCall lower data = .ok (name, ns) ↔
    InRange name ns ∧ Cpp.lower data = callText name ns := by
  simp only [Ts.decodeCall]
  by_cases hx : Hexed (lower data)
  case neg =>
    rw [if_pos (.inl (mt hl.isHex_iff.mp hx))]
    refine iff_of_false nofun fun ⟨_, h⟩ => hx (hl.hexed_iff.mpr ?_)
    rw [h]
    exact hexed_callText name ns
  case pos =>
    have hlower := hl.lowerHex hx
    have hhex := hl.isHex_iff.mpr hx
    rw [hl.eq_cpp hx] at hlower hhex ⊢
    have hbody := hlower.drop 8
    rw [drop_two_drop_eight] at hbody
    generalize Cpp.lower data = d at hbody hhex
    constructor
    case mp  =>
      intro h
      split_ifs at h with hlen
      cases hf : selectors.find? fun name => name.selector = d.take 10
      case none   => rw [hf] at h; cases h
      case some f =>
        rw [hf] at h
        simp only at h
        split_ifs at h with hb hr
        have hsel := List.find?_some hf
        rw [decide_eq_true_eq] at hsel
        rw [not_not] at hb
        rw [mapIdx_eq] at h hr
        obtain ⟨rfl, rfl⟩ := Prod.mk.inj (ok.inj h)
        refine ⟨(inRange_iff (by simp [numbers])).mpr hr, ?_⟩
        rw [callText, flatMap_numbers hbody hb, hsel, List.take_append_drop]
    case mpr =>
      rintro ⟨hr, rfl⟩
      have hlen := length_selector name
      have htake : (callText name ns).take 10 = name.selector := List.take_left' hlen
      have hdrop : (callText name ns).drop 10 = ns.flatMap (hexText 64) := List.drop_left' hlen
      have hn : ns.length = name.signature.length := (List.Forall₂.length_eq hr).symm
      have hnumbers := numbers_flatMap hr.lt
      rw [hn] at hnumbers
      rw [if_neg (by rw [not_or, not_not]; exact ⟨hhex, by simp [callText, hlen]⟩), htake, find?_selector]
      simp only
      rw [if_neg (by rw [not_not, hdrop, length_flatMap, hn]), mapIdx_eq, hdrop, hnumbers,
        if_neg ((inRange_iff hn).mp hr)]

end Calls

section Arguments

open U256

variable {kind : Kind} {w : Ts.Word} {n : ℕ} {ns : List ℕ} {text : List Char} {name : FunctionName}
  {args : List Ts.Word}

def Kind.IsInteger (kind : Kind) : Prop := kind ≠ .address ∧ kind ≠ .bool

-- The arguments that stand for a number in the range of their kind.
inductive Represents : Kind → Ts.Word → ℕ → Prop
  | address {s : List Char} : Hexed s → s.length = 42 → Represents .address (.string s) (hexValue (s.drop 2))
  | bool (b : Bool) : Represents .bool (.boolean b) b.toNat
  | bigint {kind : Kind} {n : ℕ} : kind.IsInteger → n < 2 ^ kind.bits → Represents kind (.bigint n) n
  | number {kind : Kind} {n : ℕ} : kind.IsInteger → n < 2 ^ kind.bits → n ≤ 2 ^ 53 - 1 →
      Represents kind (.number (some n)) n
  | decimal {kind : Kind} {s : List Char} : kind.IsInteger → Canonical s → Digits.value s < 2 ^ kind.bits →
      Represents kind (.string s) (Digits.value s)

theorem Represents.lt (h : Represents kind w n) : n < 2 ^ kind.bits := by
  match h with
  | .address (s := s) _ hl =>
    have := hexValue_lt (s.drop 2)
    rw [List.length_drop, hl] at this
    exact this
  | .bool b                => cases b <;> decide
  | .bigint _ h            => exact h
  | .number _ h _          => exact h
  | .decimal _ _ h         => exact h

theorem isAddress_iff {s : List Char} : Ts.isAddress s ↔ Hexed s ∧ s.length = 42 := by
  rw [Ts.isAddress, Bool.and_eq_true, Bool.and_eq_true, List.all_eq_true, decide_eq_true_eq, List.length_drop, Hexed,
    AllHex]
  refine ⟨fun h => ⟨⟨h.left.left, h.right⟩, by omega⟩, fun h => ⟨⟨h.left.left, by omega⟩, h.left.right⟩⟩

theorem number_integer (h : kind.IsInteger) (w : Ts.Word) : Ts.number kind w =
    match w with
    | .number (some x) =>
      if Ts.isSafeInteger x then .ok x.num else .error (.invalidInput s!"Invalid {kind.text}.")
    | .bigint n        => .ok n
    | .string s        =>
      if Canonical s then .ok (Digits.value s) else .error (.invalidInput s!"Invalid {kind.text}.")
    | _                => .error (.invalidInput s!"Invalid {kind.text}.") := by
  cases kind
  case address => exact absurd rfl h.left
  case bool    => exact absurd rfl h.right
  all_goals
    match w with
    | .bigint _ | .string _ | .boolean _ | .number none | .number (some _) => rfl

theorem represents_iff : Represents kind w n ↔ Ts.number kind w = .ok n ∧ n < 2 ^ kind.bits := by
  refine ⟨fun h => ⟨?_, h.lt⟩, fun ⟨h, hn⟩ => ?_⟩
  case refine_1 =>
    match h with
    | .address hs hl   => exact if_pos (isAddress_iff.mpr ⟨hs, hl⟩)
    | .bool b          => cases b <;> rfl
    | .bigint hk _     => rw [number_integer hk]
    | .number hk _ hn  =>
      rw [number_integer hk]
      exact if_pos (by rw [Ts.isSafeInteger, Bool.and_eq_true]; exact ⟨rfl, decide_eq_true hn⟩)
    | .decimal hk hs _ =>
      rw [number_integer hk]
      exact if_pos hs
  case refine_2 =>
    by_cases hk : kind.IsInteger
    case pos =>
      rw [number_integer hk] at h
      match w with
      | .number (some x) =>
        simp only at h
        split_ifs at h with hs
        have hx := ok.inj h
        simp only [Ts.isSafeInteger, Bool.and_eq_true, decide_eq_true_eq] at hs
        have : x = (n : ℚ) := by
          rw [← Rat.coe_int_num_of_den_eq_one hs.left, hx]
          rfl
        rw [this]
        exact .number hk hn (by omega)
      | .bigint m        =>
        obtain rfl : m = n := ok.inj h
        exact .bigint hk hn
      | .string s        =>
        simp only at h
        split_ifs at h with hs
        obtain rfl : Digits.value s = n := Int.ofNat.inj (ok.inj h)
        exact .decimal hk hs hn
      | .boolean _ | .number none => cases h
    case neg =>
      rw [Kind.IsInteger, not_and_or, not_not, not_not] at hk
      obtain rfl | rfl := hk
      case inl =>
        match w with
        | .string s =>
          simp only [Ts.number] at h
          split_ifs at h with hs
          obtain rfl : hexValue (s.drop 2) = n := Int.ofNat.inj (ok.inj h)
          have ⟨hx, hl⟩ := isAddress_iff.mp hs
          exact .address hx hl
        | .bigint _ | .boolean _ | .number _ => cases h
      case inr =>
        match w with
        | .boolean b =>
          have hb : n = b.toNat := by
            cases b
            · exact (Int.ofNat.inj (ok.inj h)).symm
            · exact (Int.ofNat.inj (ok.inj h)).symm
          rw [hb]
          exact .bool b
        | .bigint _ | .string _ | .number _ => cases h

theorem word_iff : Ts.word kind w = .ok text ↔ ∃ n, Represents kind w n ∧ text = hexText 64 n := by
  rw [Ts.word, bind_eq_ok]
  have hpow : (2 : ℕ) ^ kind.bits ≤ 16 ^ 64 := by
    rw [show 16 ^ 64 = 2 ^ 256 by decide]
    exact Nat.pow_le_pow_right (by decide) kind.bits_le
  constructor
  case mp  =>
    rintro ⟨m, hm, h⟩
    split_ifs at h with hr
    obtain ⟨n, rfl⟩ := Int.eq_ofNat_of_zero_le (not_lt.mp (not_or.mp hr).left)
    have hn : n < 2 ^ kind.bits := by
      have := not_le.mp (not_or.mp hr).right
      exact_mod_cast this
    refine ⟨n, represents_iff.mpr ⟨hm, hn⟩, ?_⟩
    rw [← ok.inj h, Int.toNat_natCast, padded_eq (by decide) (hn.trans_le hpow)]
  case mpr =>
    intro ⟨n, hr, ht⟩
    have ⟨hm, hn⟩ := represents_iff.mp hr
    refine ⟨n, hm, ?_⟩
    rw [if_neg (by rw [not_or]; exact ⟨by omega, by exact_mod_cast not_le.mpr hn⟩), Int.toNat_natCast,
      padded_eq (by decide) (hn.trans_le hpow), ht, pure_eq_ok]

-- As many arguments as the function takes, which stand for the numbers.
def Stands (name : FunctionName) (args : List Ts.Word) (ns : List ℕ) : Prop :=
  args.length = name.signature.length ∧
    List.Forall₂ (fun (p : Kind × Ts.Word) n => Represents p.1 p.2 n) (name.signature.zip args) ns

theorem Stands.inRange (h : Stands name args ns) : InRange name ns := by
  obtain ⟨hl, hf⟩ := h
  rw [InRange]
  generalize name.signature = kinds at hl hf ⊢
  induction kinds generalizing args ns
  case nil                =>
    rw [List.zip_nil_left, List.forall₂_nil_left_iff] at hf
    rw [hf]
    exact .nil
  case cons kind kinds hi =>
    obtain ⟨w, args, rfl⟩ := List.exists_cons_of_length_eq_add_one hl
    rw [List.zip_cons_cons, List.forall₂_cons_left_iff] at hf
    obtain ⟨n, ns, hr, hf, rfl⟩ := hf
    exact .cons hr.lt (hi (Nat.succ.inj hl) hf)

theorem Stands.represents (h : Stands name args ns) : ∀ w ∈ args, ∃ kind n, Represents kind w n := by
  obtain ⟨hl, hf⟩ := h
  generalize name.signature = kinds at hl hf
  induction args generalizing kinds ns
  case nil            => exact fun w hw => absurd hw List.not_mem_nil
  case cons w args hi =>
    obtain ⟨kind, kinds, rfl⟩ := List.exists_cons_of_length_eq_add_one hl.symm
    rw [List.zip_cons_cons, List.forall₂_cons_left_iff] at hf
    obtain ⟨n, ns, hr, hf, rfl⟩ := hf
    exact List.forall_mem_cons.mpr ⟨⟨kind, n, hr⟩, hi kinds (Nat.succ.inj hl) hf⟩

theorem words_iff {ps : List (Kind × Ts.Word)} {texts : List (List Char)} :
    (ps.mapM fun (kind, arg) => Ts.word kind arg) = .ok texts ↔
      ∃ ns, List.Forall₂ (fun (p : Kind × Ts.Word) n => Represents p.1 p.2 n) ps ns ∧ texts = ns.map (hexText 64) := by
  rw [mapM_eq_ok]
  induction ps generalizing texts
  case nil          => simp
  case cons p ps hi =>
    rw [List.forall₂_cons_left_iff]
    constructor
    case mp  =>
      intro ⟨t, ts, ht, hts, he⟩
      obtain ⟨n, hn, hw⟩ := word_iff.mp ht
      obtain ⟨ns, hns, hs⟩ := hi.mp hts
      exact ⟨n :: ns, .cons hn hns, by rw [he, hw, hs, List.map_cons]⟩
    case mpr =>
      intro ⟨ns, hns, he⟩
      rw [List.forall₂_cons_left_iff] at hns
      obtain ⟨n, ns, hn, hns, rfl⟩ := hns
      exact ⟨_, _, word_iff.mpr ⟨n, hn, rfl⟩, hi.mpr ⟨ns, hns, rfl⟩, he⟩

theorem encodeCall_iff : Ts.encodeCall name args = .ok text ↔
    ∃ ns, Stands name args ns ∧ text = callText name ns := by
  simp only [Ts.encodeCall]
  by_cases hl : args.length = name.signature.length
  case neg =>
    rw [if_pos hl]
    exact iff_of_false nofun fun ⟨_, h, _⟩ => hl h.left
  case pos =>
    rw [if_neg (not_not.mpr hl), bind_eq_ok]
    constructor
    case mp  =>
      intro ⟨texts, ht, h⟩
      obtain ⟨ns, hns, rfl⟩ := words_iff.mp ht
      refine ⟨ns, ⟨hl, hns⟩, ?_⟩
      rw [← ok.inj h, callText, List.flatMap_def]
    case mpr =>
      intro ⟨ns, h, ht⟩
      refine ⟨_, words_iff.mpr ⟨ns, h.right, rfl⟩, ?_⟩
      rw [ht, callText, List.flatMap_def, pure_eq_ok]

variable {arg : Arg} {v : U256}

def Arg.toWord : Arg → Ts.Word
  | .uint n => .bigint n.toNat
  | .text s => .string s
  | .bool b => .boolean b

theorem ts_word_of_number (h : Ts.number kind w = .ok n) (hn : n < 2 ^ 256) : Ts.word kind w =
    if 2 ^ kind.bits ≤ n then .error (.invalidInput s!"Value out of range for {kind.text}.")
    else .ok (hexText 64 n) := by
  rw [Ts.word, h, ok_bind, Int.toNat_natCast, pure_eq_ok, padded_eq (by decide) (by rwa [show 16 ^ 64 = 2 ^ 256 by decide])]
  refine if_congr ?_ rfl rfl
  rw [or_iff_right (by omega)]
  exact_mod_cast Iff.rfl

theorem rust_word_of_number (h : Rust.number kind arg = .ok v) : Rust.word kind arg =
    if 2 ^ kind.bits ≤ v.toNat then .error (.invalidInput s!"Value out of range for {kind.text}.")
    else .ok (hexText 64 v.toNat) := by
  rw [Rust.word, h, ok_bind, wordHex_eq, pure_eq_ok]
  exact if_congr (lt_bits_iff _ _) rfl rfl

theorem word_eq_of_number (h : Ts.number kind arg.toWord = .ok v.toNat) (h' : Rust.number kind arg = .ok v) :
    Rust.word kind arg = Ts.word kind arg.toWord := by
  rw [rust_word_of_number h', ts_word_of_number h v.toNat_lt]

theorem word_eq_of_error {e : FlurboError} (h : Ts.number kind arg.toWord = .error e)
    (h' : Rust.number kind arg = .error e) : Rust.word kind arg = Ts.word kind arg.toWord := by
  rw [Rust.word, Ts.word, h, h', error_bind, error_bind]

theorem rust_isAddress_iff {s : List Char} : Rust.isAddress s ↔ Hexed s ∧ s.length = 42 := by
  rw [Rust.isAddress, Bool.and_eq_true, Bool.and_eq_true, List.all_eq_true, decide_eq_true_eq, Hexed, AllHex, and_assoc,
    and_comm]

theorem rust_number_integer (h : kind.IsInteger) (arg : Arg) : Rust.number kind arg =
    match arg with
    | .uint n => .ok n
    | .text s =>
      match Rust.fromDec s with
      | some n => .ok n
      | none   =>
        if !s.isEmpty && s.all Char.isDigit && !(['0'].isPrefixOf s) then
          .error (.invalidInput s!"Value out of range for {kind.text}.")
        else
          .error (.invalidInput s!"Invalid {kind.text}.")
    | .bool _ => .error (.invalidInput s!"Invalid {kind.text}.") := by
  cases kind
  case address => exact absurd rfl h.left
  case bool    => exact absurd rfl h.right
  all_goals cases arg <;> rfl

theorem guard_iff {s : List Char} :
    (!s.isEmpty && s.all Char.isDigit && !(['0'].isPrefixOf s)) ↔ Canonical s ∧ s.head? ≠ some '0' := by
  have hzero : ['0'].isPrefixOf s ↔ s.head? = some '0' := by
    cases s
    case nil      => simp
    case cons c s => simpa using eq_comm
  rw [Bool.and_eq_true, Bool.and_eq_true, Bool.not_eq_true', Bool.not_eq_true', ← Bool.not_eq_true, ← Bool.not_eq_true,
    hzero, List.all_eq_true, List.isEmpty_iff]
  refine ⟨fun h => ⟨⟨h.left.left, h.left.right, fun _ => h.right⟩, h.right⟩, fun h => ⟨⟨h.left.left, h.left.right.left⟩, h.right⟩⟩

theorem rust_word_eq (kind : Kind) (arg : Arg) : Rust.word kind arg = Ts.word kind arg.toWord := by
  by_cases hk : kind.IsInteger
  case pos =>
    cases arg
    case uint v => exact word_eq_of_number (number_integer hk _) (rust_number_integer hk _)
    case bool b => exact word_eq_of_error (number_integer hk _) (rust_number_integer hk _)
    case text s =>
      have hts := number_integer hk (.string s)
      have hrust := rust_number_integer hk (.text s)
      simp only at hts hrust
      by_cases hs : Canonical s ∧ Digits.value s < 2 ^ 256
      case pos =>
        obtain ⟨v, hv, hval⟩ := (fromDec_spec s).left hs
        rw [if_pos hs.left, ← hval] at hts
        rw [hv] at hrust
        exact word_eq_of_number hts hrust
      case neg =>
        rw [(fromDec_spec s).right hs] at hrust
        by_cases hc : Canonical s
        case neg =>
          rw [if_neg hc] at hts
          rw [if_neg fun h => hc (guard_iff.mp h).left] at hrust
          exact word_eq_of_error hts hrust
        case pos =>
          -- The digits overflow in the one runtime, and the range is exceeded in the other.
          have hge : 2 ^ 256 ≤ Digits.value s := not_lt.mp fun hlt => hs ⟨hc, hlt⟩
          rw [if_pos hc] at hts
          have hz : s.head? ≠ some '0' := fun hz => by
            obtain ⟨t, rfl⟩ := List.head?_eq_some_iff.mp hz
            have := not_lt.mp fun h => hc.right.right h hz
            rw [List.length_cons] at this
            obtain rfl : t = [] := List.length_eq_zero_iff.mp (by omega)
            exact absurd hge (by decide)
          rw [if_pos (guard_iff.mpr ⟨hc, hz⟩)] at hrust
          have hrange : (2 : ℤ) ^ kind.bits ≤ (Digits.value s : ℤ) := by
            exact_mod_cast (Nat.pow_le_pow_right (by decide) kind.bits_le).trans hge
          rw [Rust.word, hrust, error_bind, Arg.toWord, Ts.word, hts, ok_bind, if_pos (.inr hrange)]
  case neg =>
    rw [Kind.IsInteger, not_and_or, not_not, not_not] at hk
    obtain rfl | rfl := hk
    case inl =>
      cases arg
      case uint v => exact word_eq_of_error rfl rfl
      case bool b => exact word_eq_of_error rfl rfl
      case text s =>
        by_cases hs : Hexed s ∧ s.length = 42
        case neg => exact word_eq_of_error (if_neg (mt isAddress_iff.mp hs)) (if_neg (mt rust_isAddress_iff.mp hs))
        case pos =>
          have hu : unprefixed s = s.drop 2 := if_pos hs.left.left
          have hlen : (s.drop 2).length = 40 := by rw [List.length_drop, hs.right]
          obtain ⟨v, hv, hval⟩ := fromHex_of_allHex (hu ▸ hs.left.right)
            (by rw [hu]; exact List.ne_nil_of_length_pos (by omega)) (by rw [hu]; omega)
          have hts : Ts.number .address (.string s) = .ok v.toNat := by
            rw [hval, hu]
            exact if_pos (isAddress_iff.mpr hs)
          have hrust : Rust.number .address (.text s) = .ok v := by
            rw [Rust.number, if_pos (rust_isAddress_iff.mpr hs), hv, unwrap]
          exact word_eq_of_number hts hrust
    case inr =>
      cases arg
      case uint v => exact word_eq_of_error rfl rfl
      case text s => exact word_eq_of_error rfl rfl
      case bool b =>
        have hb : (fromU128 (if b then 1 else 0)).toNat = if b then 1 else 0 :=
          toNat_fromU128 (by split <;> decide)
        refine word_eq_of_number ?_ rfl
        rw [hb]
        cases b <;> rfl

-- The codec of Rust is that of TypeScript.
theorem rust_encodeCall_eq (name : FunctionName) (args : List Arg) :
    Rust.encodeCall name args = Ts.encodeCall name (args.map Arg.toWord) := by
  have hwords (kinds : List Kind) : ((kinds.zip args).mapM fun p => Rust.word p.1 p.2) =
      (kinds.zip (args.map Arg.toWord)).mapM fun p => Ts.word p.1 p.2 := by
    rw [List.zip_map_right, List.mapM_map]
    congr 1
    funext p
    exact rust_word_eq p.1 p.2
  simp only [Rust.encodeCall, Ts.encodeCall, List.length_map, hwords]

theorem cpp_number_eq (kind : Kind) (arg : Arg) : Cpp.number kind arg = Rust.number kind arg := by
  have haddress (s : List Char) : Cpp.isAddress s = Rust.isAddress s := by
    rw [Bool.eq_iff_iff]
    simp only [Cpp.isAddress, Rust.isAddress, Bool.and_eq_true, List.all_eq_true, decide_eq_true_eq, hexval_nonneg_iff]
  have hguard (s : List Char) : (Cpp.isDigits s && s[0]? ≠ some '0') =
      (!s.isEmpty && s.all Char.isDigit && !(['0'].isPrefixOf s)) := by
    rw [Bool.eq_iff_iff, guard_iff, Bool.and_eq_true, isDigits_iff, decide_eq_true_eq, ← List.head?_eq_getElem?]
    refine ⟨fun h => ⟨⟨h.left.left, h.left.right, fun _ => h.right⟩, h.right⟩, fun h => ⟨⟨h.left.left, h.left.right.left⟩, h.right⟩⟩
  cases kind
  case address =>
    cases arg
    case text s => simp only [Cpp.number, Rust.number, haddress, rust_fromHex_eq]
    all_goals rfl
  case bool    => cases arg <;> rfl
  all_goals
    cases arg
    case text s => simp only [Cpp.number, Rust.number, cpp_fromDec_eq, hguard]
    all_goals rfl

theorem cpp_word_eq (kind : Kind) (arg : Arg) : Cpp.word kind arg = Rust.word kind arg := by
  rw [Cpp.word, Rust.word, cpp_number_eq, cpp_bits_eq_rust, show Cpp.wordHex = Rust.wordHex from funext cpp_wordHex_eq]

theorem cpp_encodeCall_eq (name : FunctionName) (args : List Arg) :
    Cpp.encodeCall name args = Rust.encodeCall name args := by
  have hwords (kinds : List Kind) : ((kinds.zip args).mapM fun p => Cpp.word p.1 p.2) =
      (kinds.zip args).mapM fun p => Rust.word p.1 p.2 := by
    congr 1
    funext p
    exact cpp_word_eq p.1 p.2
  simp only [Rust.encodeCall, Cpp.encodeCall, hwords]

-- What an argument means before it is cast.
def Cpp.Literal.toWord : Cpp.Literal → Ts.Word
  | .u256 v     => .bigint v.toNat
  | .u128 v     => .bigint v.toNat
  | .uint64 v   => .bigint v.toNat
  | .unsigned v => .bigint v.toNat
  | .int v      => .bigint v.toInt
  | .string s   => .string s
  | .boolean b  => .boolean b

def Cpp.Literal.isNegative : Cpp.Literal → Bool
  | .int v => v.toInt < 0
  | _      => false

theorem toWord_arg {l : Cpp.Literal} (h : ¬ l.isNegative) : (Cpp.arg l).toWord = l.toWord := by
  have hextend {w : ℕ} (v : BitVec w) (hw : w ≤ 128) : (fromU128 (v.zeroExtend 128).toNat).toNat = v.toNat := by
    rw [toNat_fromU128 (v.zeroExtend 128).isLt, BitVec.zeroExtend, BitVec.toNat_setWidth]
    exact Nat.mod_eq_of_lt (v.isLt.trans_le (Nat.pow_le_pow_right (by decide) hw))
  cases l
  case u128 v     => rw [Cpp.arg, Arg.toWord, toNat_fromU128 v.isLt, Cpp.Literal.toWord]
  case uint64 v   => rw [Cpp.arg, Arg.toWord, hextend v (by decide), Cpp.Literal.toWord]
  case unsigned v => rw [Cpp.arg, Arg.toWord, hextend v (by decide), Cpp.Literal.toWord]
  case int v      =>
    rw [Cpp.Literal.isNegative, ← BitVec.msb_eq_toInt, Bool.not_eq_true] at h
    rw [Cpp.arg, Arg.toWord, BitVec.signExtend_eq_setWidth_of_msb_false h, hextend v (by decide), Cpp.Literal.toWord,
      BitVec.toInt_eq_toNat_of_msb h]
  all_goals rfl

theorem not_represents_negative {l : Cpp.Literal} (h : l.isNegative) : ¬ Represents kind l.toWord n := by
  cases l
  case int v =>
    intro hr
    rw [Cpp.Literal.isNegative, decide_eq_true_eq] at h
    rw [Cpp.Literal.toWord] at hr
    generalize v.toInt = m at h hr
    cases hr
    omega
  all_goals cases h

-- The arguments are in range once they are cast, but one of them is negative.
def Wraps (name : FunctionName) (args : List Cpp.Literal) : Prop :=
  (∃ ns, Stands name (args.map fun l => (Cpp.arg l).toWord) ns) ∧ ∃ l ∈ args, l.isNegative

-- The codec of C++ writes what the arguments mean, unless a cast brings one of them into range.
theorem cpp_encodeCall_iff (name : FunctionName) (args : List Cpp.Literal) :
    (∀ text, Cpp.encodeCall name (args.map Cpp.arg) = .ok text ↔
      ∃ ns, Stands name (args.map Cpp.Literal.toWord) ns ∧ text = callText name ns) ↔ ¬ Wraps name args := by
  have hcpp (text : List Char) : Cpp.encodeCall name (args.map Cpp.arg) = .ok text ↔
      ∃ ns, Stands name (args.map fun l => (Cpp.arg l).toWord) ns ∧ text = callText name ns := by
    rw [cpp_encodeCall_eq, rust_encodeCall_eq, encodeCall_iff, List.map_map]
    rfl
  simp only [hcpp]
  by_cases hn : ∃ l ∈ args, l.isNegative
  case neg =>
    have heq : (args.map fun l => (Cpp.arg l).toWord) = args.map Cpp.Literal.toWord :=
      List.map_congr_left fun l hl => toWord_arg fun h => hn ⟨l, hl, h⟩
    rw [heq]
    exact iff_of_true (fun _ => .rfl) fun h => hn h.right
  case pos =>
    have hno : ¬ ∃ ns, Stands name (args.map Cpp.Literal.toWord) ns := by
      intro ⟨ns, hs⟩
      obtain ⟨l, hm, hneg⟩ := hn
      obtain ⟨kind, n, hr⟩ := hs.represents l.toWord (List.mem_map_of_mem hm)
      exact not_represents_negative hneg hr
    constructor
    case mp  =>
      intro h ⟨⟨ns, hs⟩, _⟩
      obtain ⟨ns, hs, _⟩ := (h (callText name ns)).mp ⟨ns, hs, rfl⟩
      exact hno ⟨ns, hs⟩
    case mpr =>
      intro h text
      exact iff_of_false (fun ⟨ns, hs, _⟩ => h ⟨⟨ns, hs⟩, hn⟩) fun ⟨ns, hs, _⟩ => hno ⟨ns, hs⟩

end Arguments

end Sdk
