import Flurbo.Library.JsonNormal
import Flurbo.Server.Readers.JsonStrict
import Flurbo.Server.Readers.NumberText

-- The canonical text of a document stands for the document: equal documents have one text, others have others.

namespace Readers

open Json ExactJson

variable {N : Type} {F : Floats N} {a b : Json N} {t c : Utf16}

section Collapse

theorem assign_names {key : Utf16} {item : Json Utf16} (fields : List (Utf16 × Json Utf16)) :
    (fields.map fun m => if m.1 = key then (key, item) else m).map Prod.fst = fields.map Prod.fst := by
  rw [List.map_map]
  refine List.map_congr_left fun m _ => ?_
  rw [Function.comp_apply]
  split
  case isTrue h => exact h.symm
  case isFalse  => rfl

mutual

-- No name is left twice.
theorem unique_collapse : (v : Json Utf16) → (collapse v).Unique
  | .array items    => by
    rw [collapse, Json.Unique, uniqueItems_iff]
    exact unique_collapseItems items
  | .object members => by
    rw [collapse, Json.Unique, uniqueMembers_iff]
    exact unique_collapseMembers members [] List.nodup_nil (by simp)
  | .null | .bool _ | .number _ | .string _ => trivial

theorem unique_collapseItems : (items : List (Json Utf16)) → ∀ v ∈ collapseItems items, v.Unique
  | []            => by simp [collapseItems]
  | item :: items => by
    rw [collapseItems, List.forall_mem_cons]
    exact ⟨unique_collapse item, unique_collapseItems items⟩

theorem unique_collapseMembers : (members fields : List (Utf16 × Json Utf16)) → (fields.map Prod.fst).Nodup →
    (∀ m ∈ fields, m.2.Unique) →
    ((collapseMembers fields members).map Prod.fst).Nodup ∧ ∀ m ∈ collapseMembers fields members, m.2.Unique
  | [], fields, hd, hu                     => ⟨hd, hu⟩
  | (key, item) :: members, fields, hd, hu => by
    have hi := unique_collapse item
    rw [collapseMembers]
    refine unique_collapseMembers members _ ?_ ?_
    · split
      case isTrue     => rwa [assign_names]
      case isFalse hk =>
        rw [List.map_append, List.nodup_append]
        refine ⟨hd, List.nodup_singleton _, fun a ha b hb hab => hk ?_⟩
        cases List.mem_singleton.mp hb
        exact (show a = key from hab) ▸ ha
    · intro m hm
      split at hm
      case isTrue  =>
        obtain ⟨m', hm', rfl⟩ := List.mem_map.mp hm
        split
        case isTrue  => exact hi
        case isFalse => exact hu m' hm'
      case isFalse =>
        rcases List.mem_append.mp hm with hm | hm
        · exact hu m hm
        · cases List.mem_singleton.mp hm
          exact hi

end

theorem unique_jsonParse {toNumber : Utf16 → N} (h : jsonParse toNumber t = .ok a) : a.Unique := by
  obtain ⟨v, _, rfl⟩ := (jsonParse_eq_ok_iff toNumber).mp h
  exact unique_map _ (unique_collapse v)

end Collapse

section Canonical

open JsonRecord

-- Numbers worth the same have one text.
theorem write_eq_comp : ∃ write, F.write = write ∘ F.value := ⟨_, rfl⟩

theorem canonical_of_same (ha : a.Unique) (hb : b.Unique) (h : Same F.value a b) :
    canonical F.numbers a = canonical F.numbers b := by
  obtain ⟨write, hw⟩ := @write_eq_comp N F
  have hn := (same_iff a b ha hb).mp h
  change sortedText F.write a = sortedText F.write b
  rw [hw, ← sortedText_normal, ← sortedText_normal, hn]

theorem exists_write {n : N} (h : F.Finite n) : ∃ t, F.write n = some t := by
  obtain ⟨q, hq⟩ := h
  exact ⟨_, by rw [Floats.write, hq, Option.map_some]⟩

theorem exists_canonical (h : a.Numbers F.Finite) : ∃ c, canonical F.numbers a = some c :=
  exists_sortedText a (numbers_imp (fun _ hn => exists_write hn) a h)

theorem jsonParse_value {toNumber : Utf16 → N} {v : Json Utf16} (h : Value t v) (hu : v.Unique) :
    jsonParse toNumber t = .ok (v.map toNumber) :=
  (jsonParse_eq_ok_iff toNumber).mpr ⟨v, spaced_of h, by rw [collapse_eq v hu]⟩

-- The canonical text is read as the document that it was made of.
theorem jsonParse_canonical (ha : a.Unique) (hf : a.Numbers F.Finite) (hc : canonical F.numbers a = some c) :
    ∃ a', jsonParse F.parse c = .ok a' ∧ a'.Unique ∧ normal F.value a' = normal F.value a := by
  have hv := value_sortedText Floats.number_write a c hc
  have hu := @unique_normal _ _ (textOf F.write) a ha
  refine ⟨(normal (textOf F.write) a).map F.parse, jsonParse_value hv hu, unique_map _ hu, ?_⟩
  rw [normal_map, normal_normal]
  refine normal_congr a (numbers_imp (fun n hn => ?_) a hf)
  obtain ⟨t, ht⟩ := exists_write hn
  rw [Function.comp_apply, Function.comp_apply, textOf, ht, Option.getD_some, Floats.value_parse_write ht]

theorem same_of_canonical (ha : a.Unique) (hb : b.Unique) (hfa : a.Numbers F.Finite) (hfb : b.Numbers F.Finite)
    (hca : canonical F.numbers a = some c) (hcb : canonical F.numbers b = some c) : Same F.value a b := by
  obtain ⟨a', ha', _, hna⟩ := jsonParse_canonical ha hfa hca
  obtain ⟨b', hb', _, hnb⟩ := jsonParse_canonical hb hfb hcb
  rw [ha'] at hb'
  cases hb'
  exact (same_iff a b ha hb).mpr (hna.symm.trans hnb)

-- Documents that are parsed have a canonical text, the same one if and only if they are the same document, and it is
-- read as that document, whose canonical text it is again.
theorem canonical_identity (F : Floats N) :
    (∀ s t a b, jsonParse F.parse s = .ok a → a.Numbers F.Finite → jsonParse F.parse t = .ok b →
      b.Numbers F.Finite → ∃ c d, canonical F.numbers a = some c ∧ canonical F.numbers b = some d ∧
        (c = d ↔ Same F.value a b)) ∧
    ∀ t a, jsonParse F.parse t = .ok a → a.Numbers F.Finite → ∃ c a', canonical F.numbers a = some c ∧
      jsonParse F.parse c = .ok a' ∧ Same F.value a' a ∧ canonical F.numbers a' = some c := by
  constructor
  case left =>
    intro s t a b ha hfa hb hfb
    obtain ⟨c, hc⟩ := exists_canonical hfa
    obtain ⟨d, hd⟩ := exists_canonical hfb
    refine ⟨c, d, hc, hd, fun h => ?_, fun h => ?_⟩
    · exact same_of_canonical (unique_jsonParse ha) (unique_jsonParse hb) hfa hfb hc (h ▸ hd)
    · have he := canonical_of_same (unique_jsonParse ha) (unique_jsonParse hb) h
      rw [hc, hd] at he
      exact Option.some.inj he
  case right =>
    intro t a ha hf
    have hu := unique_jsonParse ha
    obtain ⟨c, hc⟩ := exists_canonical hf
    obtain ⟨a', ha', hu', hn⟩ := jsonParse_canonical hu hf hc
    have hs := (same_iff a' a hu' hu).mpr hn
    exact ⟨c, a', hc, ha', hs, (canonical_of_same hu' hu hs).trans hc⟩

theorem number_fraction {n f : CodeUnit} (hn : isDigit n = true) (hz : n ≠ zero) (hf : isDigit f = true) :
    Number [n, point, f] :=
  @Number.mk [] [n] [point, f] [] (.inl rfl) (.digits hn hz fun _ h => by cases h)
    (.digits (List.cons_ne_nil _ _) fun _ h => List.mem_singleton.mp h ▸ hf) .none

theorem number_exponent {n m e : CodeUnit} {sign : Utf16} (hn : isDigit n = true) (hz : n ≠ zero)
    (hm : isDigit m = true) (hsign : sign = [] ∨ sign = [minus]) (he : isDigit e = true) :
    Number ([n, m] ++ (letter_e :: sign ++ [e])) :=
  @Number.mk [] [n, m] [] (letter_e :: sign ++ [e]) (.inl rfl)
    (.digits hn hz fun _ h => List.mem_singleton.mp h ▸ hm) .none
    (.digits (.inl rfl) (hsign.imp_right .inr) (List.cons_ne_nil _ _) fun _ h => List.mem_singleton.mp h ▸ he)

-- The text of an object of two numbers.
def pairText (m n : Utf16 × Utf16) : Utf16 :=
  openBrace :: separate ([m, n].map memberText) ++ [closeBrace]

theorem jsonParse_pairText {toNumber : Utf16 → N} {j k : CodeUnit} {m n : Utf16} (hm : Number m) (hn : Number n)
    (hd : j ≠ k) : jsonParse toNumber (pairText ([j], m) ([k], n)) =
      .ok (.object [([j], .number (toNumber m)), ([k], .number (toNumber n))]) := by
  have hv : Value (pairText ([j], m) ([k], n)) (.object [([j], .number m), ([k], .number n)]) :=
    object_separate (.cons ⟨rfl, .number hm⟩ (.cons ⟨rfl, .number hn⟩ .nil))
  exact jsonParse_value hv ⟨by simp [hd], trivial, trivial, trivial⟩

theorem parse_fraction : Floats.thousandths.parse [0x31, point, 0x35] = 1500 ∧
    Floats.thousandths.parse [0x32, point, 0x35] = 2500 := by decide +kernel

theorem parse_exponent : Floats.thousandths.parse ([0x31, 0x35] ++ (letter_e :: [minus] ++ [0x31])) = 1500 ∧
    Floats.thousandths.parse ([0x32, 0x35] ++ (letter_e :: [minus] ++ [0x31])) = 2500 := by decide +kernel

def thousandthsOf (m n : CodeUnit × ℤ) : Json ℤ := .object [([m.1], .number m.2), ([n.1], .number n.2)]

theorem jsonParse_fractions : jsonParse Floats.thousandths.parse
    (pairText ([0x62], [0x31, point, 0x35]) ([0x61], [0x32, point, 0x35])) =
      .ok (thousandthsOf (0x62, 1500) (0x61, 2500)) := by
  rw [jsonParse_pairText (number_fraction rfl (by decide) rfl) (number_fraction rfl (by decide) rfl) (by decide),
    parse_fraction.1, parse_fraction.2]
  rfl

theorem jsonParse_exponents : jsonParse Floats.thousandths.parse
    (pairText ([0x61], [0x32, 0x35] ++ (letter_e :: [minus] ++ [0x31]))
      ([0x62], [0x31, 0x35] ++ (letter_e :: [minus] ++ [0x31]))) = .ok (thousandthsOf (0x61, 2500) (0x62, 1500)) := by
  rw [jsonParse_pairText (number_exponent rfl (by decide) rfl (.inr rfl) rfl)
    (number_exponent rfl (by decide) rfl (.inr rfl) rfl) (by decide), parse_exponent.1, parse_exponent.2]
  rfl

-- Two texts of one document, `{"b":1.5,"a":2.5}` and `{"a":25e-1,"b":15e-1}`.
theorem canonical_identity_turned :
    (∃ c d, canonical Floats.thousandths.numbers (thousandthsOf (0x62, 1500) (0x61, 2500)) = some c ∧
      canonical Floats.thousandths.numbers (thousandthsOf (0x61, 2500) (0x62, 1500)) = some d ∧
      (c = d ↔ Same Floats.thousandths.value (thousandthsOf (0x62, 1500) (0x61, 2500))
        (thousandthsOf (0x61, 2500) (0x62, 1500)))) ∧
    ∃ c a', canonical Floats.thousandths.numbers (thousandthsOf (0x62, 1500) (0x61, 2500)) = some c ∧
      jsonParse Floats.thousandths.parse c = .ok a' ∧
      Same Floats.thousandths.value a' (thousandthsOf (0x62, 1500) (0x61, 2500)) ∧
      canonical Floats.thousandths.numbers a' = some c := by
  have hf : (thousandthsOf (0x62, 1500) (0x61, 2500)).Numbers Floats.thousandths.Finite := ⟨⟨_, rfl⟩, ⟨_, rfl⟩, trivial⟩
  have hf' : (thousandthsOf (0x61, 2500) (0x62, 1500)).Numbers Floats.thousandths.Finite :=
    ⟨⟨_, rfl⟩, ⟨_, rfl⟩, trivial⟩
  exact ⟨(canonical_identity _).1 _ _ _ _ jsonParse_fractions hf jsonParse_exponents hf',
    (canonical_identity _).2 _ _ jsonParse_fractions hf⟩

end Canonical

end Readers
