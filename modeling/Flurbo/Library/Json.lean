import Flurbo.Library.Utf16
import Mathlib.Tactic

-- JSON texts, and the documents that they denote.

inductive Json (N : Type)
  | null
  | bool (b : Bool)
  | number (n : N)
  | string (s : Utf16)
  | array (items : List (Json N))
  | object (members : List (Utf16 × Json N))

namespace Json

variable {N M : Type}

section Documents

mutual

-- The number of arrays and objects around the deepest value. An empty one adds no level: there is no value
-- inside it.
def depth : Json N → ℕ
  | .array items    => depthItems items
  | .object members => depthMembers members
  | _               => 0

def depthItems : List (Json N) → ℕ
  | []            => 0
  | item :: items => max (item.depth + 1) (depthItems items)

def depthMembers : List (Utf16 × Json N) → ℕ
  | []                     => 0
  | (_, item) :: members => max (item.depth + 1) (depthMembers members)

end

mutual

-- No object has two members of one name.
def Unique : Json N → Prop
  | .array items    => UniqueItems items
  | .object members => (members.map Prod.fst).Nodup ∧ UniqueMembers members
  | _               => True

def UniqueItems : List (Json N) → Prop
  | []            => True
  | item :: items => item.Unique ∧ UniqueItems items

def UniqueMembers : List (Utf16 × Json N) → Prop
  | []                   => True
  | (_, item) :: members => item.Unique ∧ UniqueMembers members

end

mutual

def map (f : N → M) : Json N → Json M
  | .null           => .null
  | .bool b         => .bool b
  | .number n       => .number (f n)
  | .string s       => .string s
  | .array items    => .array (mapItems f items)
  | .object members => .object (mapMembers f members)

def mapItems (f : N → M) : List (Json N) → List (Json M)
  | []            => []
  | item :: items => item.map f :: mapItems f items

def mapMembers (f : N → M) : List (Utf16 × Json N) → List (Utf16 × Json M)
  | []                      => []
  | (name, item) :: members => (name, item.map f) :: mapMembers f members

end

variable {d : ℕ} {items : List (Json N)} {members : List (Utf16 × Json N)}

theorem depthItems_lt : depthItems items < d + 1 ↔ ∀ item ∈ items, item.depth < d := by
  induction items
  case nil                => simp [depthItems]
  case cons item items hi => rw [depthItems, max_lt_iff, hi, List.forall_mem_cons, Nat.add_lt_add_iff_right]

theorem depthMembers_lt : depthMembers members < d + 1 ↔ ∀ m ∈ members, m.2.depth < d := by
  induction members
  case nil            => simp [depthMembers]
  case cons m rest hi => rw [depthMembers, max_lt_iff, hi, List.forall_mem_cons, Nat.add_lt_add_iff_right]

theorem uniqueItems_iff : UniqueItems items ↔ ∀ item ∈ items, item.Unique := by
  induction items
  case nil                => simp [UniqueItems]
  case cons item items hi => rw [UniqueItems, hi, List.forall_mem_cons]

theorem uniqueMembers_iff : UniqueMembers members ↔ ∀ m ∈ members, m.2.Unique := by
  induction members
  case nil            => simp [UniqueMembers]
  case cons m rest hi => rw [UniqueMembers, hi, List.forall_mem_cons]

end Documents

section Grammar

def quote : CodeUnit := 0x22
def backslash : CodeUnit := 0x5C
def slash : CodeUnit := 0x2F
def minus : CodeUnit := 0x2D
def plus : CodeUnit := 0x2B
def point : CodeUnit := 0x2E
def zero : CodeUnit := 0x30
def nine : CodeUnit := 0x39
def comma : CodeUnit := 0x2C
def colon : CodeUnit := 0x3A
def openBracket : CodeUnit := 0x5B
def closeBracket : CodeUnit := 0x5D
def openBrace : CodeUnit := 0x7B
def closeBrace : CodeUnit := 0x7D
def letterE : CodeUnit := 0x45
def letter_e : CodeUnit := 0x65
def letter_u : CodeUnit := 0x75

def wordNull : Utf16 := [0x6E, 0x75, 0x6C, 0x6C]
def wordTrue : Utf16 := [0x74, 0x72, 0x75, 0x65]
def wordFalse : Utf16 := [0x66, 0x61, 0x6C, 0x73, 0x65]

def isWs (c : CodeUnit) : Bool := c = 0x20 || c = 0x0A || c = 0x0D || c = 0x09

def isDigit (c : CodeUnit) : Bool := zero ≤ c && c ≤ nine

def hexDigit (c : CodeUnit) : Option ℕ :=
  if isDigit c then some (c.toNat - 0x30)
  else if 0x41 ≤ c && c ≤ 0x46 then some (c.toNat - 0x41 + 10)
  else if 0x61 ≤ c && c ≤ 0x66 then some (c.toNat - 0x61 + 10)
  else none

def hexUnit (a b c d : CodeUnit) : Option CodeUnit := do
  return UInt16.ofNat (((← hexDigit a) * 16 + (← hexDigit b)) * 256 + (← hexDigit c) * 16 + (← hexDigit d))

-- What a backslash and one more character stand for.
def unescape (c : CodeUnit) : Option CodeUnit :=
  if c = quote then some quote
  else if c = backslash then some backslash
  else if c = slash then some slash
  else if c = 0x62 then some 0x08
  else if c = 0x66 then some 0x0C
  else if c = 0x6E then some 0x0A
  else if c = 0x72 then some 0x0D
  else if c = 0x74 then some 0x09
  else none

def Ws (w : Utf16) : Prop := ∀ c ∈ w, isWs c = true

def Digits (ds : Utf16) : Prop := ∀ c ∈ ds, isDigit c = true

inductive Int : Utf16 → Prop
  | zero : Int [Json.zero]
  | digits {c : CodeUnit} {ds : Utf16} (h : isDigit c = true) (hz : c ≠ Json.zero) (hs : Digits ds) : Int (c :: ds)

inductive Frac : Utf16 → Prop
  | none : Frac []
  | digits {ds : Utf16} (hn : ds ≠ []) (hs : Digits ds) : Frac (point :: ds)

inductive Exp : Utf16 → Prop
  | none : Exp []
  | digits {e : CodeUnit} {sign ds : Utf16} (he : e = letter_e ∨ e = letterE)
      (hsign : sign = [] ∨ sign = [plus] ∨ sign = [minus]) (hn : ds ≠ []) (hs : Digits ds) :
      Exp (e :: sign ++ ds)

inductive Number : Utf16 → Prop
  | mk {sign int frac exp : Utf16} (hsign : sign = [] ∨ sign = [minus]) (hi : Int int) (hf : Frac frac)
      (he : Exp exp) : Number (sign ++ (int ++ (frac ++ exp)))

-- The characters of a string up to its closing quote, with the string that they denote.
inductive Chars : Utf16 → Utf16 → Prop
  | close : Chars [quote] []
  | plain {c : CodeUnit} {t s : Utf16} (hq : c ≠ quote) (hb : c ≠ backslash) (hc : ¬ c < 0x20) (h : Chars t s) :
      Chars (c :: t) (c :: s)
  | escape {c u : CodeUnit} {t s : Utf16} (hu : unescape c = some u) (h : Chars t s) :
      Chars (backslash :: c :: t) (u :: s)
  | unicode {a b c d u : CodeUnit} {t s : Utf16} (hu : hexUnit a b c d = some u) (h : Chars t s) :
      Chars (backslash :: letter_u :: a :: b :: c :: d :: t) (u :: s)

inductive Quoted : Utf16 → Utf16 → Prop
  | mk {t s : Utf16} (h : Chars t s) : Quoted (quote :: t) s

inductive Spaced {α : Type} (P : Utf16 → α → Prop) : Utf16 → α → Prop
  | mk {w t w' : Utf16} {v : α} (hw : Ws w) (h : P t v) (hw' : Ws w') : Spaced P (w ++ t ++ w') v

inductive Member (P : Utf16 → Json Utf16 → Prop) : Utf16 → Utf16 × Json Utf16 → Prop
  | mk {name s t : Utf16} {v : Json Utf16} (hn : Spaced Quoted name s) (h : Spaced P t v) :
      Member P (name ++ colon :: t) (s, v)

inductive Separated {α : Type} (P : Utf16 → α → Prop) : Utf16 → List α → Prop
  | last {t : Utf16} {v : α} (h : P t v) : Separated P t [v]
  | cons {t ts : Utf16} {v : α} {vs : List α} (h : P t v) (hs : Separated P ts vs) :
      Separated P (t ++ comma :: ts) (v :: vs)

-- A number is kept as its text.
inductive Value : Utf16 → Json Utf16 → Prop
  | null : Value wordNull .null
  | true : Value wordTrue (.bool .true)
  | false : Value wordFalse (.bool .false)
  | number {t : Utf16} (h : Number t) : Value t (.number t)
  | string {t s : Utf16} (h : Quoted t s) : Value t (.string s)
  | emptyArray {w : Utf16} (hw : Ws w) : Value (openBracket :: w ++ [closeBracket]) (.array [])
  | array {t : Utf16} {vs : List (Json Utf16)} (h : Separated (Spaced Value) t vs) :
      Value (openBracket :: t ++ [closeBracket]) (.array vs)
  | emptyObject {w : Utf16} (hw : Ws w) : Value (openBrace :: w ++ [closeBrace]) (.object [])
  | object {t : Utf16} {ms : List (Utf16 × Json Utf16)} (h : Separated (Member Value) t ms) :
      Value (openBrace :: t ++ [closeBrace]) (.object ms)

def Text : Utf16 → Json Utf16 → Prop := Spaced Value

variable {α : Type} {P : Utf16 → Json Utf16 → Prop} {R : Utf16 → α → Prop} {t w : Utf16} {a : α} {as : List α}
variable {ms : List (Utf16 × Json Utf16)}

theorem Spaced.and {Q : α → Prop} (h : Spaced R t a) (hq : Q a) : Spaced (fun t a => R t a ∧ Q a) t a := by
  cases h
  case mk hw hw' h => exact .mk hw ⟨h, hq⟩ hw'

theorem Spaced.left {Q : α → Prop} (h : Spaced (fun t a => R t a ∧ Q a) t a) : Spaced R t a ∧ Q a := by
  cases h
  case mk hw hw' h => exact ⟨.mk hw h.1 hw', h.2⟩

theorem Spaced.prepend (hw : Ws w) (h : Spaced R t a) : Spaced R (w ++ t) a := by
  cases h
  case mk w₁ t w₂ hw₁ hw₂ h =>
    have hw' : Ws (w ++ w₁) := fun c hc => (List.mem_append.mp hc).elim (hw c) (hw₁ c)
    have hs := Spaced.mk hw' h hw₂
    rwa [List.append_assoc, List.append_assoc, ← List.append_assoc w₁] at hs

theorem Member.prepend {m : Utf16 × Json Utf16} (hw : Ws w) (h : Member P t m) : Member P (w ++ t) m := by
  cases h
  case mk hn h =>
    rw [← List.append_assoc]
    exact .mk (hn.prepend hw) h

theorem Separated.prepend (hr : ∀ {t a}, R t a → R (w ++ t) a) (h : Separated R t as) : Separated R (w ++ t) as := by
  cases h
  case last h    => exact .last (hr h)
  case cons h hs =>
    rw [← List.append_assoc]
    exact .cons (hr h) hs

-- White space before the first element can be left out.
theorem Separated.strip {H : CodeUnit → Prop}
    (hr : ∀ {t a}, R t a → ∃ w c t', Ws w ∧ t = w ++ c :: t' ∧ R (c :: t') a ∧ H c) (h : Separated R t as) :
    ∃ w c t', Ws w ∧ t = w ++ c :: t' ∧ Separated R (c :: t') as ∧ H c := by
  cases h
  case last h =>
    have ⟨w, c, t', hw, ht, h, hc⟩ := hr h
    exact ⟨w, c, t', hw, ht, .last h, hc⟩
  case cons ts _ _ h hs =>
    have ⟨w, c, t', hw, ht, h, hc⟩ := hr h
    refine ⟨w, c, t' ++ comma :: ts, hw, ?_, .cons h hs, hc⟩
    rw [ht, List.append_assoc, List.cons_append]

theorem Spaced.strip {H : CodeUnit → Prop} (hr : ∀ {t}, R t a → ∃ c t', t = c :: t' ∧ H c) (h : Spaced R t a) :
    ∃ w c t', Ws w ∧ t = w ++ c :: t' ∧ Spaced R (c :: t') a ∧ H c := by
  cases h
  case mk w t w' hw hw' h =>
    have ⟨c, t', ht, hc⟩ := hr h
    subst ht
    exact ⟨w, c, t' ++ w', hw, by rw [List.append_assoc, List.cons_append], .mk (w := []) (by simp [Ws]) h hw', hc⟩

theorem Member.strip {m : Utf16 × Json Utf16} (h : Member P t m) :
    ∃ w t', Ws w ∧ t = w ++ quote :: t' ∧ Member P (quote :: t') m := by
  cases h
  case mk name s t v hn h =>
    have hq {t : Utf16} (h : Quoted t s) : ∃ c t', t = c :: t' ∧ c = quote := by
      cases h
      exact ⟨_, _, rfl, rfl⟩
    obtain ⟨w, c, name', hw, ht, hn', rfl⟩ := hn.strip hq
    exact ⟨w, name' ++ colon :: t, hw, by rw [ht, List.append_assoc, List.cons_append], .mk hn' h⟩

theorem Separated.length_le (h : Separated R t as) : as.length ≤ t.length + 1 := by
  induction h
  case last t v h            => exact Nat.le_add_left 1 _
  case cons t ts v vs h _ hi =>
    rw [List.length_cons, List.length_append, List.length_cons]
    omega

theorem separated_spaced_and {Q : α → Prop} :
    Separated (Spaced fun t a => R t a ∧ Q a) t as ↔ Separated (Spaced R) t as ∧ ∀ a ∈ as, Q a := by
  constructor
  · intro h
    induction h
    case last t v h            => exact ⟨.last h.left.1, by simp [h.left.2]⟩
    case cons t ts v vs h _ hi => exact ⟨.cons h.left.1 hi.1, List.forall_mem_cons.mpr ⟨h.left.2, hi.2⟩⟩
  · intro ⟨h, hq⟩
    induction h
    case last t v h            => exact .last (h.and (hq v (by simp)))
    case cons t ts v vs h _ hi => exact .cons (h.and (hq v (by simp))) (hi fun a ha => hq a (by simp [ha]))

theorem Member.and {Q : Json Utf16 → Prop} {m : Utf16 × Json Utf16} (h : Member P t m) (hq : Q m.2) :
    Member (fun t v => P t v ∧ Q v) t m := by
  cases h
  case mk hn h => exact .mk hn (h.and hq)

theorem Member.left {Q : Json Utf16 → Prop} {m : Utf16 × Json Utf16} (h : Member (fun t v => P t v ∧ Q v) t m) :
    Member P t m ∧ Q m.2 := by
  cases h
  case mk hn h => exact ⟨.mk hn h.left.1, h.left.2⟩

theorem separated_member_and {Q : Json Utf16 → Prop} :
    Separated (Member fun t v => P t v ∧ Q v) t ms ↔ Separated (Member P) t ms ∧ ∀ m ∈ ms, Q m.2 := by
  constructor
  · intro h
    induction h
    case last t v h            => exact ⟨.last h.left.1, by simp [h.left.2]⟩
    case cons t ts v vs h _ hi => exact ⟨.cons h.left.1 hi.1, List.forall_mem_cons.mpr ⟨h.left.2, hi.2⟩⟩
  · intro ⟨h, hq⟩
    induction h
    case last t v h            => exact .last (h.and (hq v (by simp)))
    case cons t ts v vs h _ hi => exact .cons (h.and (hq v (by simp))) (hi fun a ha => hq a (by simp [ha]))

theorem Separated.mem (h : Separated R t as) : ∀ a ∈ as, ∃ t', R t' a ∧ t'.length ≤ t.length := by
  induction h
  case last t v h            => simpa using ⟨t, h, le_rfl⟩
  case cons t ts v vs h _ hi =>
    rw [List.forall_mem_cons]
    refine ⟨⟨t, h, by simp⟩, fun a ha => ?_⟩
    have ⟨t', ht, hl⟩ := hi a ha
    exact ⟨t', ht, by rw [List.length_append, List.length_cons]; omega⟩

theorem Spaced.length_le (h : Spaced R t a) : ∃ t', R t' a ∧ t'.length ≤ t.length := by
  cases h
  case mk w t w' hw hw' h => exact ⟨t, h, by simp only [List.length_append]; omega⟩

-- Every level takes two characters of the text.
theorem Value.depth_lt {n : ℕ} {v : Json Utf16} (hn : t.length < n) (h : Value t v) : v.depth < n := by
  induction n generalizing t v
  case zero      => cases hn
  case succ n hi =>
    cases h
    case array t vs h =>
      rw [depth, depthItems_lt]
      intro v hv
      have ⟨_, hs, hl⟩ := h.mem v hv
      have ⟨_, ht, hl'⟩ := hs.length_le
      simp only [List.length_append, List.length_cons] at hn
      exact hi (by omega) ht
    case object t ms h =>
      rw [depth, depthMembers_lt]
      intro m hm
      have ⟨_, hs, hl⟩ := h.mem m hm
      cases hs
      case mk hs =>
        have ⟨_, ht, hl'⟩ := hs.length_le
        simp only [List.length_append, List.length_cons] at hn hl
        exact hi (by omega) ht
    all_goals exact Nat.succ_pos n

end Grammar

end Json
