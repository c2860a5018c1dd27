import Flurbo.Server.Readers.ExactJson

-- The exact reader takes what the grammar describes off the front of a body, and ends.

namespace Readers.ExactJson

open Json

variable {c : CodeUnit} {t s rest body w : Utf16}

-- What can stand after a value.
def Stops (rest : Utf16) : Prop :=
  ∀ c ∈ rest.head?, isWs c = true ∨ c = comma ∨ c = closeBracket ∨ c = closeBrace

section Space

theorem space_append (h : Ws w) (body : Utf16) : space (w ++ body) = space body :=
  List.dropWhile_append_of_pos h

theorem space_eq_self (h : ∀ c ∈ body.head?, isWs c = false) : space body = body := by
  rw [space]
  cases body
  case nil         => rfl
  case cons c body => rw [List.dropWhile_cons_of_neg (by simp [h c rfl])]

theorem space_cons (h : isWs c = false) (hw : Ws w) (body : Utf16) : space (w ++ c :: body) = c :: body := by
  rw [space_append hw]
  exact space_eq_self fun d hd => by cases hd; exact h

theorem exists_space (body : Utf16) : ∃ w, Ws w ∧ body = w ++ space body :=
  ⟨body.takeWhile isWs, forall_mem_takeWhile _ _, List.takeWhile_append_dropWhile.symm⟩

theorem stops_nil : Stops [] := fun _ hc => nomatch hc

theorem stops_cons (h : isWs c = true ∨ c = comma ∨ c = closeBracket ∨ c = closeBrace) (rest : Utf16) :
    Stops (c :: rest) := fun _ hd => by cases hd; exact h

theorem stops_append (hw : Ws w) (h : Stops rest) : Stops (w ++ rest) := by
  cases w
  case nil      => exact h
  case cons c w => exact stops_cons (.inl (hw c (by simp))) _

theorem head_of_tail (h : body.head? = some c) : body = c :: body.tail := (List.cons_head?_tail h).symm

end Space

section Numbers

variable {int frac exp sign ds : Utf16}

-- What may follow the parts of a number does not continue them.
theorem stops_head (h : Stops rest) (hc : c ∈ rest.head?) :
    isDigit c = false ∧ c ≠ point ∧ c ≠ letter_e ∧ c ≠ letterE := by
  rcases h c hc with h | rfl | rfl | rfl
  case inl =>
    simp only [isWs, Bool.or_eq_true, decide_eq_true_eq] at h
    rcases h with ((rfl | rfl) | rfl) | rfl <;> decide
  all_goals decide

theorem expToken_append (h : Exp exp) (hs : Stops rest) : expToken (exp ++ rest) = (exp, rest) := by
  cases h
  case none =>
    rw [List.nil_append]
    cases rest
    case nil         => rfl
    case cons c rest =>
      have ⟨_, _, he, hE⟩ := stops_head hs rfl
      rw [expToken]
      exact if_neg fun h => h.1.elim he hE
  case digits e sign ds he hsign hn hds =>
    have hstop : ∀ c ∈ rest.head?, isDigit c = false := fun c hc => (stops_head hs hc).1
    have hsg : signToken (sign ++ (ds ++ rest)) = (sign, ds ++ rest) := by
      rcases hsign with rfl | rfl | rfl
      · obtain ⟨d, ds, rfl⟩ := List.exists_cons_of_ne_nil hn
        have hd : ¬ (d = plus ∨ d = minus) := by
          have := hds d (by simp)
          rintro (rfl | rfl) <;> exact absurd this (by decide)
        exact if_neg hd
      · rfl
      · rfl
    rw [List.append_assoc, List.cons_append, expToken]
    simp only [hsg, takeWhile_span hds hstop, dropWhile_span hds hstop]
    rw [if_pos ⟨he, hn⟩]

theorem exp_head (h : Exp exp) (hs : Stops rest) (hc : c ∈ (exp ++ rest).head?) : isDigit c = false ∧ c ≠ point := by
  cases h
  case none   => exact ⟨(stops_head hs hc).1, (stops_head hs hc).2.1⟩
  case digits he _ _ _ =>
    cases hc
    rcases he with rfl | rfl <;> decide

theorem fracToken_append (h : Frac frac) (hs : ∀ c ∈ rest.head?, isDigit c = false ∧ c ≠ point) :
    fracToken (frac ++ rest) = (frac, rest) := by
  cases h
  case none =>
    rw [List.nil_append]
    cases rest
    case nil         => rfl
    case cons c rest => exact if_neg fun h => (hs c rfl).2 h.1
  case digits ds hn hds =>
    have hstop : ∀ c ∈ rest.head?, isDigit c = false := fun c hc => (hs c hc).1
    rw [List.cons_append, fracToken, takeWhile_span hds hstop, dropWhile_span hds hstop, if_pos ⟨rfl, hn⟩]

theorem frac_head (h : Frac frac) (hs : ∀ c ∈ rest.head?, isDigit c = false) (hc : c ∈ (frac ++ rest).head?) :
    isDigit c = false := by
  cases h
  case none   => exact hs c hc
  case digits => cases hc; decide

theorem intToken_append (h : Int int) (hs : ∀ c ∈ rest.head?, isDigit c = false) :
    intToken (int ++ rest) = some (int, rest) := by
  cases h
  case zero => rfl
  case digits c ds hc hz hds =>
    rw [List.cons_append, intToken, if_neg hz, if_pos hc, takeWhile_span hds hs, dropWhile_span hds hs]

theorem int_head (h : Int int) : ∃ c ds, int = c :: ds ∧ isDigit c = true := by
  cases h
  case zero              => exact ⟨_, _, rfl, by decide⟩
  case digits c ds h _ _ => exact ⟨c, ds, rfl, h⟩

theorem numberToken_append (h : Number t) (hs : Stops rest) : numberToken (t ++ rest) = some (t, rest) := by
  obtain ⟨hsign, hi, hf, he⟩ := h
  rename_i sign int frac exp
  have hexp : ∀ c ∈ (exp ++ rest).head?, isDigit c = false ∧ c ≠ point := fun c hc => exp_head he hs hc
  have hfrac : ∀ c ∈ (frac ++ (exp ++ rest)).head?, isDigit c = false := fun c hc =>
    frac_head hf (fun c hc => (hexp c hc).1) hc
  have hrest : (if (sign ++ (int ++ (frac ++ (exp ++ rest)))).head? = some minus
      then (sign ++ (int ++ (frac ++ (exp ++ rest)))).tail else sign ++ (int ++ (frac ++ (exp ++ rest)))) =
      int ++ (frac ++ (exp ++ rest)) ∧
      (if (sign ++ (int ++ (frac ++ (exp ++ rest)))).head? = some minus then [minus] else []) = sign := by
    rcases hsign with rfl | rfl
    · obtain ⟨c, ds, rfl, hc⟩ := int_head hi
      have hm : ¬ some c = some minus := fun h => by
        rw [Option.some.inj h] at hc
        exact absurd hc (by decide)
      exact ⟨if_neg hm, if_neg hm⟩
    · exact ⟨rfl, rfl⟩
  rw [numberToken]
  simp only [List.append_assoc, hrest.1, hrest.2]
  rw [intToken_append hi hfrac, Option.bind_eq_bind, Option.bind_some]
  simp only [fracToken_append hf hexp, expToken_append he hs]
  rfl

theorem expToken_eq (h : expToken body = (t, rest)) : body = t ++ rest ∧ Exp t := by
  cases body
  case nil         => cases h; exact ⟨rfl, .none⟩
  case cons c body =>
    have hsg : ∃ sign, (sign = [] ∨ sign = [plus] ∨ sign = [minus]) ∧ (signToken body).1 = sign ∧
        body = sign ++ (signToken body).2 := by
      cases body
      case nil         => exact ⟨[], .inl rfl, rfl, rfl⟩
      case cons d body =>
        rw [signToken]
        split
        case isTrue hd =>
          rcases hd with rfl | rfl
          · exact ⟨_, .inr (.inl rfl), rfl, rfl⟩
          · exact ⟨_, .inr (.inr rfl), rfl, rfl⟩
        case isFalse => exact ⟨[], .inl rfl, rfl, rfl⟩
    obtain ⟨sign, hsign, hs, hb⟩ := hsg
    rw [expToken] at h
    simp only [hs] at h
    split at h
    case isTrue hc =>
      cases h
      refine ⟨?_, .digits hc.1 hsign hc.2 (forall_mem_takeWhile _ _)⟩
      rw [List.append_assoc, List.takeWhile_append_dropWhile, List.cons_append, ← hb]
    case isFalse =>
      cases h
      exact ⟨rfl, .none⟩

theorem fracToken_eq (h : fracToken body = (t, rest)) : body = t ++ rest ∧ Frac t := by
  cases body
  case nil         => cases h; exact ⟨rfl, .none⟩
  case cons c body =>
    rw [fracToken] at h
    split at h
    case isTrue hc =>
      cases h
      obtain ⟨rfl, hn⟩ := hc
      exact ⟨by rw [List.cons_append, List.takeWhile_append_dropWhile], .digits hn (forall_mem_takeWhile _ _)⟩
    case isFalse   =>
      cases h
      exact ⟨rfl, .none⟩

theorem intToken_eq (h : intToken body = some (t, rest)) : body = t ++ rest ∧ Int t := by
  cases body
  case nil         => cases h
  case cons c body =>
    rw [intToken] at h
    split at h
    case isTrue hc => cases h; exact ⟨rfl, hc ▸ .zero⟩
    case isFalse hz =>
      split at h
      case isTrue hc =>
        cases h
        exact ⟨by rw [List.cons_append, List.takeWhile_append_dropWhile], .digits hc hz (forall_mem_takeWhile _ _)⟩
      case isFalse   => cases h

theorem numberToken_eq (h : numberToken body = some (t, rest)) : body = t ++ rest ∧ Number t := by
  rw [numberToken, Option.bind_eq_bind, Option.bind_eq_some_iff] at h
  obtain ⟨⟨int, body₁⟩, hi, h⟩ := h
  obtain ⟨hb₁, hint⟩ := intToken_eq hi
  rcases hf : fracToken body₁ with ⟨frac, body₂⟩
  rcases he : expToken body₂ with ⟨exp, body₃⟩
  obtain ⟨hb₂, hfrac⟩ := fracToken_eq hf
  obtain ⟨hb₃, hexp⟩ := expToken_eq he
  simp only [hf, he] at h
  cases h
  have hsign : ∃ sign, (sign = [] ∨ sign = [minus]) ∧ (if body.head? = some minus then [minus] else []) = sign ∧
      body = sign ++ (if body.head? = some minus then body.tail else body) := by
    split
    case isTrue hm => exact ⟨_, .inr rfl, rfl, head_of_tail hm⟩
    case isFalse   => exact ⟨[], .inl rfl, rfl, rfl⟩
  obtain ⟨sign, hs, hif, hb⟩ := hsign
  rw [hif]
  refine ⟨?_, .mk hs hint hfrac hexp⟩
  rw [hb, hb₁, hb₂, hb₃]
  simp only [List.append_assoc]

end Numbers

section Strings

variable {x y z x' e u : CodeUnit}

theorem backslash_ne_quote : ¬ backslash = quote := by decide

theorem ne_letter_u (h : unescape e = some u) : e ≠ letter_u := by
  rintro rfl
  cases h

theorem closeString_quote (body : Utf16) : closeString (quote :: body) = some ([quote], body) := by
  rw [closeString.eq_def]
  exact if_pos rfl

theorem closeString_plain (hq : c ≠ quote) (hb : c ≠ backslash) (hc : ¬ c < 0x20) (body : Utf16) :
    closeString (c :: body) = (closeString body).map fun t => (c :: t.1, t.2) := by
  rw [closeString.eq_def]
  simp only [if_neg hq, if_neg hb, if_neg hc]

theorem closeString_escape (hu : unescape e = some u) (body : Utf16) : closeString (backslash :: e :: body) =
    (closeString body).map fun t => (backslash :: e :: t.1, t.2) := by
  rw [closeString.eq_def]
  simp only [if_neg backslash_ne_quote, if_neg (ne_letter_u hu), hu, Option.isSome_some, if_true]

theorem closeString_unicode (hu : hexUnit x y z x' = some u) (body : Utf16) :
    closeString (backslash :: letter_u :: x :: y :: z :: x' :: body) =
      (closeString body).map fun t => (backslash :: letter_u :: x :: y :: z :: x' :: t.1, t.2) := by
  rw [closeString.eq_def]
  simp only [if_neg backslash_ne_quote, hu, Option.isSome_some, if_true]

theorem closeString_append (h : Chars t s) (rest : Utf16) : closeString (t ++ rest) = some (t, rest) := by
  induction h
  case close                           => exact closeString_quote rest
  case plain c t s hq hb hc _ hi       => rw [List.cons_append, closeString_plain hq hb hc, hi]; rfl
  case escape c u t s hu _ hi          =>
    rw [List.cons_append, List.cons_append, closeString_escape hu, hi]
    rfl
  case unicode a b c d u t s hu _ hi =>
    simp only [List.cons_append]
    rw [closeString_unicode hu, hi]
    rfl

theorem decodeChars_eq (h : Chars t s) : decodeChars t = some s := by
  induction h
  case close => rfl
  case plain c t s hq hb hc _ hi =>
    rw [decodeChars.eq_def]
    simp only [if_neg hq, if_neg hb, if_neg hc, hi, Option.map_some]
  case escape c u t s hu _ hi =>
    rw [decodeChars.eq_def]
    simp only [if_neg backslash_ne_quote, if_neg (ne_letter_u hu), hu, hi]
    rfl
  case unicode a b c d u t s hu _ hi =>
    rw [decodeChars.eq_def]
    simp only [if_neg backslash_ne_quote, hu, hi]
    rfl

theorem hexDigit_ne (h : hexDigit c ≠ none) : c ≠ quote ∧ c ≠ backslash := by
  constructor
  · rintro rfl
    exact h rfl
  · rintro rfl
    exact h rfl

theorem hexUnit_ne {a b c d : CodeUnit} (h : hexUnit a b c d = some u) : ∀ x ∈ [a, b, c, d], x ≠ quote ∧ x ≠ backslash := by
  simp only [hexUnit, Option.bind_eq_bind, Option.bind_eq_some_iff] at h
  obtain ⟨_, ha, _, hb, _, hc, _, hd, _⟩ := h
  simp only [List.forall_mem_cons]
  exact ⟨hexDigit_ne (by simp [ha]), hexDigit_ne (by simp [hb]), hexDigit_ne (by simp [hc]),
    hexDigit_ne (by simp [hd]), by simp⟩

theorem isLineEnd_escape (h : unescape e = some u) : isLineEnd e = false := by
  rw [Bool.eq_false_iff]
  intro hl
  simp only [isLineEnd, Bool.or_eq_true, decide_eq_true_eq] at hl
  rcases hl with ((rfl | rfl) | rfl) | rfl <;> cases h

theorem closeQuoted_quote (body : Utf16) : closeQuoted (quote :: body) = some ([quote], body) := by
  rw [closeQuoted.eq_def]
  exact if_pos rfl

theorem closeQuoted_plain (hq : c ≠ quote) (hb : c ≠ backslash) (body : Utf16) :
    closeQuoted (c :: body) = (closeQuoted body).map fun t => (c :: t.1, t.2) := by
  rw [closeQuoted.eq_def]
  simp only [if_neg hq, if_neg hb]

theorem closeQuoted_escape (hl : isLineEnd e = false) (body : Utf16) : closeQuoted (backslash :: e :: body) =
    (closeQuoted body).map fun t => (backslash :: e :: t.1, t.2) := by
  rw [closeQuoted.eq_def]
  simp only [if_neg backslash_ne_quote, hl, Bool.false_eq_true, if_true, if_false]

theorem closeQuoted_append (h : Chars t s) (rest : Utf16) : closeQuoted (t ++ rest) = some (t, rest) := by
  induction h
  case close                     => exact closeQuoted_quote rest
  case plain c t s hq hb _ _ hi  => rw [List.cons_append, closeQuoted_plain hq hb, hi]; rfl
  case escape c u t s hu _ hi    =>
    rw [List.cons_append, List.cons_append, closeQuoted_escape (isLineEnd_escape hu), hi]
    rfl
  case unicode a b c d u t s hu _ hi =>
    -- The escaped digits are read as plain characters.
    have hne := hexUnit_ne hu
    simp only [List.forall_mem_cons] at hne
    obtain ⟨ha, hb, hc, hd, _⟩ := hne
    simp only [List.cons_append]
    rw [closeQuoted_escape (by decide), closeQuoted_plain ha.1 ha.2, closeQuoted_plain hb.1 hb.2,
      closeQuoted_plain hc.1 hc.2, closeQuoted_plain hd.1 hd.2, hi]
    rfl

theorem closeString_eq (h : closeString body = some (t, rest)) : body = t ++ rest ∧ ∃ s, Chars t s := by
  fun_induction closeString body generalizing t
  case case1 | case4 | case5 | case7 | case8 | case9 => cases h
  case case2                                         => cases h; exact ⟨rfl, _, .close⟩
  case case3 x y z w body hu _ hi =>
    obtain ⟨⟨t', r⟩, ht, hr⟩ := Option.map_eq_some_iff.mp h
    obtain ⟨u, hu⟩ := Option.isSome_iff_exists.mp hu
    cases hr
    obtain ⟨hb, s, hs⟩ := hi ht
    exact ⟨by rw [hb]; rfl, _, .unicode hu hs⟩
  case case6 e body _ hu _ hi =>
    obtain ⟨⟨t', r⟩, ht, hr⟩ := Option.map_eq_some_iff.mp h
    obtain ⟨u, hu⟩ := Option.isSome_iff_exists.mp hu
    cases hr
    obtain ⟨hb, s, hs⟩ := hi ht
    exact ⟨by rw [hb]; rfl, _, .escape hu hs⟩
  case case10 c body hq hb hc hi =>
    obtain ⟨⟨t', r⟩, ht, hr⟩ := Option.map_eq_some_iff.mp h
    cases hr
    obtain ⟨hb', s, hs⟩ := hi ht
    exact ⟨by rw [hb']; rfl, _, .plain hq hb hc hs⟩

theorem readString_append (h : Quoted t s) (rest : Utf16) : readString (t ++ rest) = .ok (s, rest) := by
  cases h
  case mk t h =>
    have ht : stringToken (quote :: t ++ rest) = some (quote :: t, rest) := by
      rw [stringToken, List.cons_append, List.head?_cons, if_pos rfl, List.tail_cons, closeString_append h]
      rfl
    have hd : decodeString (quote :: t) = some s := (if_pos rfl).trans (decodeChars_eq h)
    rw [readString, ht]
    simp only [orFail, Except.ok_bind, hd]
    rfl

theorem readString_eq (h : readString body = .ok (s, rest)) : ∃ t, Quoted t s ∧ body = t ++ rest := by
  rw [readString] at h
  simp only [Except.bind_eq_ok] at h
  obtain ⟨⟨t, r⟩, ht, s', hs, h⟩ := h
  cases h
  rw [stringToken] at ht
  split at ht
  case isFalse => cases ht
  case isTrue hq =>
    cases hc : closeString body.tail
    case none        =>
      rw [hc] at ht
      cases ht
    case some p      =>
      rw [hc] at ht
      cases ht
      obtain ⟨hb, s', hs'⟩ := closeString_eq hc
      have hd : decodeString (quote :: p.1) = some s' := (if_pos rfl).trans (decodeChars_eq hs')
      rw [hd] at hs
      cases hs
      exact ⟨_, .mk hs', by rw [head_of_tail hq, hb]; rfl⟩

theorem scanString_append (h : Quoted t s) (rest : Utf16) : scanString (t ++ rest) = .ok (s, rest) := by
  cases h
  case mk t h =>
    have ht : quotedToken (quote :: t ++ rest) = some (quote :: t, rest) := by
      rw [quotedToken, List.cons_append, List.head?_cons, if_pos rfl, List.tail_cons, closeQuoted_append h]
      rfl
    have hd : decodeString (quote :: t) = some s := (if_pos rfl).trans (decodeChars_eq h)
    rw [scanString, ht]
    simp only [orFail, Except.ok_bind, hd]
    rfl

end Strings

section Values

variable {p : Reader} {P : Utf16 → Json Utf16 → Prop} {v : Json Utf16} {vs acc : List (Json Utf16)} {n d : ℕ}
variable {ms fields : List (Utf16 × Json Utf16)} {distinct : Bool}

-- A reader takes what `P` describes off the front, and the white space before it.
def Takes (p : Reader) (P : Utf16 → Json Utf16 → Prop) : Prop :=
  ∀ {w t v rest}, Ws w → P t v → Stops rest → p (w ++ t ++ rest) = .ok (v, rest)

theorem Takes.spaced (hp : Takes p P) (h : Spaced P t v) (hc : c = comma ∨ c = closeBracket ∨ c = closeBrace)
    (rest : Utf16) : ∃ body, p (t ++ c :: rest) = .ok (v, body) ∧ space body = c :: rest := by
  cases h
  case mk w t w' hw hw' h =>
    have hs : Stops (w' ++ c :: rest) := stops_append hw' (stops_cons (.inr hc) rest)
    refine ⟨w' ++ c :: rest, ?_, space_cons ?_ hw' rest⟩
    · rw [List.append_assoc]
      exact hp hw h hs
    · rcases hc with rfl | rfl | rfl <;> decide

theorem items_append (hp : Takes p P) (h : Separated (Spaced P) t vs) (hn : vs.length ≤ n) :
    items p n acc (t ++ closeBracket :: rest) = .ok (acc ++ vs, rest) := by
  induction h generalizing n acc
  case last t v h =>
    cases n
    case zero   => cases hn
    case succ n =>
      have ⟨body, hb, hs⟩ := hp.spaced h (.inr (.inl rfl)) rest
      rw [items, hb, Except.ok_bind]
      simp only [hs, List.head?_cons, List.tail_cons]
      rfl
  case cons t ts v vs h _ hi =>
    cases n
    case zero   => cases hn
    case succ n =>
      have ⟨body, hb, hs⟩ := hp.spaced h (.inl rfl) (ts ++ closeBracket :: rest)
      rw [List.append_assoc, List.cons_append, items, hb, Except.ok_bind]
      simp only [hs, List.head?_cons, List.tail_cons, if_true]
      rw [hi (Nat.le_of_succ_le_succ hn), List.append_assoc]
      rfl

theorem space_quoted (hw : Ws w) (h : Quoted t s) (rest : Utf16) : space (w ++ (t ++ rest)) = t ++ rest := by
  rw [space_append hw]
  apply space_eq_self
  cases h
  exact fun c hc => by cases hc; rfl

theorem member_append {key : Utf16} (hp : Takes p P) (h : Member P t (key, v))
    (hc : c = comma ∨ c = closeBracket ∨ c = closeBrace) (rest : Utf16) : ∃ body₁ body₂,
      readString (space (t ++ c :: rest)) = .ok (key, body₁) ∧ (space body₁).head? = some colon ∧
      p (space body₁).tail = .ok (v, body₂) ∧ space body₂ = c :: rest := by
  cases h
  case mk name t hn h =>
    cases hn
    case mk w q w' hw hw' hq =>
      have ⟨body₂, hb, hs⟩ := hp.spaced h hc rest
      have hcolon : space (w' ++ colon :: (t ++ c :: rest)) = colon :: (t ++ c :: rest) :=
        space_cons (by decide) hw' _
      refine ⟨w' ++ colon :: (t ++ c :: rest), body₂, ?_, ?_, ?_, hs⟩
      · simp only [List.append_assoc, List.cons_append]
        rw [space_quoted hw hq, readString_append hq]
      · rw [hcolon]
        rfl
      · rw [hcolon]
        exact hb

theorem members_append (hp : Takes p P) (h : Separated (Member P) t ms) (hn : ms.length ≤ n)
    (hd : distinct = true → (fields.map Prod.fst ++ ms.map Prod.fst).Nodup) :
    members distinct p n fields (t ++ closeBrace :: rest) = .ok (fields ++ ms, rest) := by
  induction h generalizing n fields
  case last t m h =>
    cases n
    case zero   => cases hn
    case succ n =>
      have ⟨body₁, body₂, hk, hcolon, hb, hs⟩ := member_append hp h (.inr (.inr rfl)) rest
      have hdup : ¬ (distinct = true ∧ m.1 ∈ fields.map Prod.fst) := fun ⟨ht, hm⟩ =>
        (List.nodup_append.mp (hd ht)).2.2 _ hm _ (by simp) rfl
      rw [members, hk, Except.ok_bind]
      simp only [if_neg hdup, hcolon, ne_eq, not_true_eq_false, if_false]
      rw [hb, Except.ok_bind]
      simp only [hs, List.head?_cons, List.tail_cons]
      rfl
  case cons t ts m ms h _ hi =>
    cases n
    case zero   => cases hn
    case succ n =>
      have ⟨body₁, body₂, hk, hcolon, hb, hs⟩ := member_append hp h (.inl rfl) (ts ++ closeBrace :: rest)
      have hdup : ¬ (distinct = true ∧ m.1 ∈ fields.map Prod.fst) := fun ⟨ht, hm⟩ =>
        (List.nodup_append.mp (hd ht)).2.2 _ hm _ (by simp) rfl
      have hd' : distinct = true → ((fields ++ [m]).map Prod.fst ++ ms.map Prod.fst).Nodup := fun ht => by
        rw [List.map_append, List.append_assoc]
        exact hd ht
      rw [List.append_assoc, List.cons_append, members, hk, Except.ok_bind]
      simp only [if_neg hdup, hcolon, ne_eq, not_true_eq_false, if_false]
      rw [hb, Except.ok_bind]
      simp only [hs, List.head?_cons, List.tail_cons, if_true]
      rw [hi (Nat.le_of_succ_le_succ hn) hd', List.append_assoc]
      rfl

theorem literals_find_none (h : ∀ c ∈ body.head?, c ≠ 0x74 ∧ c ≠ 0x66 ∧ c ≠ 0x6E) :
    (literals.find? fun w => w.1.isPrefixOf body) = none := by
  cases body
  case nil         => rfl
  case cons c body =>
    have ⟨ht, hf, hn⟩ := h c rfl
    simp [literals, wordTrue, wordFalse, wordNull, List.isPrefixOf, ht.symm, hf.symm, hn.symm]

-- How a value begins says what kind of value it is.
theorem number_head (h : Number t) : ∃ c t', t = c :: t' ∧ (c = minus ∨ isDigit c = true) := by
  obtain ⟨hsign, hi, hf, he⟩ := h
  obtain ⟨c, ds, rfl, hc⟩ := int_head hi
  rcases hsign with rfl | rfl
  · exact ⟨c, _, rfl, .inr hc⟩
  · exact ⟨minus, _, rfl, .inl rfl⟩

theorem digit_ne (h : c = minus ∨ isDigit c = true) : isWs c = false ∧ c ≠ openBrace ∧ c ≠ openBracket ∧ c ≠ quote ∧
    c ≠ closeBracket ∧ c ≠ 0x74 ∧ c ≠ 0x66 ∧ c ≠ 0x6E := by
  rcases h with rfl | h
  · decide
  · have hne (d : CodeUnit) (hd : isDigit d = false) : c ≠ d := by
      rintro rfl
      exact absurd h (by simp [hd])
    refine ⟨?_, hne _ rfl, hne _ rfl, hne _ rfl, hne _ rfl, hne _ rfl, hne _ rfl, hne _ rfl⟩
    simp only [isWs, Bool.or_eq_false_iff, decide_eq_false_iff_not]
    exact ⟨⟨⟨hne _ rfl, hne _ rfl⟩, hne _ rfl⟩, hne _ rfl⟩

theorem value_head (h : Value t v) : ∃ c t', t = c :: t' ∧ isWs c = false ∧ c ≠ closeBracket := by
  cases h
  case number h =>
    obtain ⟨c, t', rfl, hc⟩ := number_head h
    exact ⟨c, t', rfl, (digit_ne hc).1, (digit_ne hc).2.2.2.2.1⟩
  case string h => cases h; exact ⟨_, _, rfl, rfl, by decide⟩
  all_goals exact ⟨_, _, rfl, rfl, by decide⟩

theorem space_value (hw : Ws w) (h : Value t v) (rest : Utf16) : space (w ++ t ++ rest) = t ++ rest := by
  obtain ⟨c, t', rfl, hc, _⟩ := value_head h
  rw [List.append_assoc, space_append hw]
  exact space_eq_self fun d hd => by cases hd; exact hc

def Good (distinct : Bool) (d : ℕ) (v : Json Utf16) : Prop := v.depth < d ∧ (distinct = true → v.Unique)

theorem good_array : Good distinct (d + 1) (.array vs) ↔ ∀ v ∈ vs, Good distinct d v := by
  rw [Good, depth, Json.Unique, depthItems_lt, uniqueItems_iff]
  exact ⟨fun h v hv => ⟨h.1 v hv, fun ht => h.2 ht v hv⟩, fun h => ⟨fun v hv => (h v hv).1, fun ht v hv => (h v hv).2 ht⟩⟩

theorem good_object : Good distinct (d + 1) (.object ms) ↔
    (∀ m ∈ ms, Good distinct d m.2) ∧ (distinct = true → (ms.map Prod.fst).Nodup) := by
  rw [Good, depth, Json.Unique, depthMembers_lt, uniqueMembers_iff]
  exact ⟨fun h => ⟨fun m hm => ⟨h.1 m hm, fun ht => (h.2 ht).2 m hm⟩, fun ht => (h.2 ht).1⟩,
    fun h => ⟨fun m hm => (h.1 m hm).1, fun ht => ⟨h.2 ht, fun m hm => (h.1 m hm).2 ht⟩⟩⟩

theorem value_of_literal {word : Utf16} {c : CodeUnit} {t : Utf16} (hw : word = c :: t)
    (hc : isWs c = false ∧ c ≠ openBrace ∧ c ≠ openBracket ∧ c ≠ quote)
    (hf : literals.find? (fun w => w.1.isPrefixOf (word ++ rest)) = some (word, v)) (hs : space body = word ++ rest) :
    value distinct (d + 1) body = .ok (v, rest) := by
  subst hw
  have ⟨_, h₁, h₂, h₃⟩ := hc
  have hhead : (c :: t ++ rest).head? = some c := rfl
  rw [value]
  simp only [hs, hhead, Option.some.injEq, h₁, h₂, h₃, if_false]
  simp only [List.cons_append] at hf ⊢
  rw [hf]
  simp only [← List.cons_append, List.drop_left]

theorem value_takes (distinct : Bool) (d : ℕ) : Takes (value distinct d) fun t v => Value t v ∧ Good distinct d v := by
  induction d
  case zero =>
    intro w t v rest _ h _
    exact absurd h.2.1 (Nat.not_lt_zero _)
  case succ d hi =>
    intro w t v rest hw ⟨h, hg⟩ hstop
    have hs := space_value hw h rest
    have hlen : t.length ≤ (w ++ t ++ rest).length := by simp only [List.length_append]; omega
    generalize w ++ t ++ rest = body at hs hlen
    cases h
    case null  => exact value_of_literal rfl (by decide) rfl hs
    case true  => exact value_of_literal rfl (by decide) rfl hs
    case false => exact value_of_literal rfl (by decide) rfl hs
    case number h =>
      have hn := numberToken_append h hstop
      obtain ⟨c, t', rfl, hc⟩ := number_head h
      have ⟨_, h₁, h₂, h₃, _, ht, hf, hnl⟩ := digit_ne hc
      have hfind := @literals_find_none (c :: t' ++ rest) fun c hc => by cases hc; exact ⟨ht, hf, hnl⟩
      have hhead : (c :: t' ++ rest).head? = some c := rfl
      rw [value]
      simp only [hs, hhead, Option.some.injEq, h₁, h₂, h₃, if_false, hfind, hn]
      rfl
    case string s h =>
      have hr := readString_append h rest
      cases h
      case mk t h =>
        have hhead : (quote :: t ++ rest).head? = some quote := rfl
        have h₁ : quote ≠ openBrace := by decide
        have h₂ : quote ≠ openBracket := by decide
        rw [value]
        simp only [hs, hhead, Option.some.injEq, h₁, h₂, if_false, if_true, hr]
        rfl
    case emptyArray w hw =>
      have hhead : (openBracket :: w ++ [closeBracket] ++ rest).head? = some openBracket := rfl
      have h₁ : openBracket ≠ openBrace := by decide
      have htail : space (openBracket :: w ++ [closeBracket] ++ rest).tail = closeBracket :: rest := by
        rw [List.append_assoc]
        exact space_cons (by decide) hw rest
      rw [value]
      simp only [hs, hhead, htail, Option.some.injEq, h₁, List.head?_cons, List.tail_cons, if_false, if_true]
    case emptyObject w hw =>
      have hhead : (openBrace :: w ++ [closeBrace] ++ rest).head? = some openBrace := rfl
      have htail : space (openBrace :: w ++ [closeBrace] ++ rest).tail = closeBrace :: rest := by
        rw [List.append_assoc]
        exact space_cons (by decide) hw rest
      rw [value]
      simp only [hs, hhead, htail, List.head?_cons, List.tail_cons, if_true]
    case array t vs h =>
      have hgood := separated_spaced_and.mpr ⟨h, good_array.mp hg⟩
      obtain ⟨w, c, t', hw, rfl, hs', hc, hne⟩ := hgood.strip fun h => h.strip fun h => value_head h.1
      have hhead : (openBracket :: (w ++ c :: t') ++ [closeBracket] ++ rest).head? = some openBracket := rfl
      have hinner : space (openBracket :: (w ++ c :: t') ++ [closeBracket] ++ rest).tail =
          c :: t' ++ closeBracket :: rest := by
        simp only [List.cons_append, List.append_assoc, List.tail_cons, List.nil_append]
        exact space_cons hc hw _
      have hn : vs.length ≤ body.length := by
        have := h.length_le
        simp only [List.length_append, List.length_cons] at this hlen
        omega
      have h₁ : openBracket ≠ openBrace := by decide
      rw [value]
      simp only [hs, hhead, hinner, Option.some.injEq, h₁, if_false, if_true]
      have hclose : (c :: t' ++ closeBracket :: rest).head? ≠ some closeBracket := fun h => hne (Option.some.inj h)
      rw [if_neg hclose, items_append hi hs' hn]
      rfl
    case object t ms h =>
      have hgood := separated_member_and.mpr ⟨h, (good_object.mp hg).1⟩
      obtain ⟨w, c, t', hw, rfl, hs', hc, hne⟩ := hgood.strip (H := fun c => isWs c = false ∧ c ≠ closeBrace) fun h =>
        have ⟨w, t', hw, ht, hm⟩ := h.strip
        ⟨w, quote, t', hw, ht, hm, by decide⟩
      have hhead : (openBrace :: (w ++ c :: t') ++ [closeBrace] ++ rest).head? = some openBrace := rfl
      have hinner : space (openBrace :: (w ++ c :: t') ++ [closeBrace] ++ rest).tail =
          c :: t' ++ closeBrace :: rest := by
        simp only [List.cons_append, List.append_assoc, List.tail_cons, List.nil_append]
        exact space_cons hc hw _
      have hn : ms.length ≤ body.length := by
        have := h.length_le
        simp only [List.length_append, List.length_cons] at this hlen
        omega
      rw [value]
      simp only [hs, hhead, hinner, if_true]
      have hclose : (c :: t' ++ closeBrace :: rest).head? ≠ some closeBrace := fun h => hne (Option.some.inj h)
      have hd : distinct = true → (([] : List (Utf16 × Json Utf16)).map Prod.fst ++ ms.map Prod.fst).Nodup :=
        (good_object.mp hg).2
      rw [if_neg hclose, members_append hi hs' hn hd]
      rfl

-- Conversely a reader that only takes what `P` describes.
def Sound (p : Reader) (P : Utf16 → Json Utf16 → Prop) : Prop :=
  ∀ {body v rest}, p body = .ok (v, rest) → ∃ w t, Ws w ∧ P t v ∧ body = w ++ t ++ rest

theorem Sound.spaced (hp : Sound p P) (h : p body = .ok (v, rest)) :
    ∃ t, Spaced P t v ∧ body = t ++ space rest := by
  have ⟨w, t, hw, ht, hb⟩ := hp h
  have ⟨w', hw', hr⟩ := exists_space rest
  exact ⟨w ++ t ++ w', .mk hw ht hw', by rw [hb, List.append_assoc _ w', ← hr]⟩

theorem items_eq (hp : Sound p P) (h : items p n acc body = .ok (vs, rest)) :
    ∃ t vs', vs = acc ++ vs' ∧ Separated (Spaced P) t vs' ∧ body = t ++ closeBracket :: rest := by
  induction n generalizing acc body
  case zero      => cases h
  case succ n hi =>
    rw [items, Except.bind_eq_ok] at h
    obtain ⟨⟨v, body₁⟩, hv, h⟩ := h
    obtain ⟨t, ht, rfl⟩ := hp.spaced hv
    simp only [] at h
    split at h
    case isTrue hc =>
      obtain ⟨ts, vs', rfl, hs, hb⟩ := hi h
      refine ⟨t ++ comma :: ts, v :: vs', by rw [List.append_assoc]; rfl, .cons ht hs, ?_⟩
      rw [head_of_tail hc, hb, List.append_assoc, List.cons_append]
    case isFalse =>
      split at h
      case isTrue hc =>
        cases h
        exact ⟨t, [v], rfl, .last ht, by rw [← head_of_tail hc]⟩
      case isFalse   => cases h

theorem members_eq (hp : Sound p P) (hd : distinct = true → (fields.map Prod.fst).Nodup)
    (h : members distinct p n fields body = .ok (ms, rest)) : ∃ t ms', ms = fields ++ ms' ∧
      Separated (Member P) t ms' ∧ body = t ++ closeBrace :: rest ∧ (distinct = true → (ms.map Prod.fst).Nodup) := by
  induction n generalizing fields body
  case zero      => cases h
  case succ n hi =>
    rw [members, Except.bind_eq_ok] at h
    obtain ⟨⟨key, body₁⟩, hk, h⟩ := h
    have ⟨w, hw, hb⟩ := exists_space body
    have ⟨w', hw', hb₁⟩ := exists_space body₁
    obtain ⟨name, hname, hb'⟩ := readString_eq hk
    have hn : Spaced Quoted (w ++ name ++ w') key := .mk hw hname hw'
    simp only [] at h
    split at h
    case isTrue => cases h
    case isFalse hdup =>
      split at h
      case isTrue => cases h
      case isFalse hcolon =>
        rw [Except.bind_eq_ok] at h
        obtain ⟨⟨v, body₂⟩, hv, h⟩ := h
        obtain ⟨t, ht, hb₂⟩ := hp.spaced hv
        have hm : Member P (w ++ name ++ w' ++ colon :: t) (key, v) := .mk hn ht
        have hbody : body = w ++ name ++ w' ++ colon :: t ++ space body₂ := by
          have hc := head_of_tail (Decidable.of_not_not hcolon)
          rw [hb, hb', hb₁, hc, hb₂]
          simp only [List.append_assoc, List.cons_append]
        have hd' : distinct = true → ((fields ++ [(key, v)]).map Prod.fst).Nodup := fun ht => by
          rw [List.map_append]
          refine List.nodup_append.mpr ⟨hd ht, List.nodup_singleton _, ?_⟩
          intro a ha b hb hab
          cases List.mem_singleton.mp hb
          exact hdup ⟨ht, (show a = key from hab) ▸ ha⟩
        simp only [] at h
        split at h
        case isTrue hc =>
          obtain ⟨ts, ms', rfl, hs, hb₃, hnodup⟩ := hi hd' h
          refine ⟨_, (key, v) :: ms', by rw [List.append_assoc]; rfl, .cons hm hs, ?_, hnodup⟩
          rw [hbody, head_of_tail hc, hb₃]
          simp only [List.append_assoc, List.cons_append]
        case isFalse =>
          split at h
          case isTrue hc =>
            cases h
            exact ⟨_, [(key, v)], rfl, .last hm, by rw [hbody, head_of_tail hc]; rfl, hd'⟩
          case isFalse   => cases h

theorem literals_find (h : literals.find? (fun w => w.1.isPrefixOf body) = some (t, v)) :
    Value t v ∧ v.depth = 0 ∧ v.Unique ∧ body = t ++ body.drop t.length := by
  have hp := List.find?_some h
  have hm := List.mem_of_find?_eq_some h
  obtain ⟨r, hr⟩ := List.isPrefixOf_iff_prefix.mp hp
  have hb : body = t ++ body.drop t.length := by rw [← hr, List.drop_left]
  simp only [literals, List.mem_cons, Prod.mk.injEq, List.not_mem_nil, or_false] at hm
  rcases hm with ⟨rfl, rfl⟩ | ⟨rfl, rfl⟩ | ⟨rfl, rfl⟩
  · exact ⟨.true, rfl, trivial, hb⟩
  · exact ⟨.false, rfl, trivial, hb⟩
  · exact ⟨.null, rfl, trivial, hb⟩

theorem value_sound (distinct : Bool) (d : ℕ) : Sound (value distinct d) fun t v => Value t v ∧ Good distinct d v := by
  induction d
  case zero =>
    intro body v rest h
    cases h
  case succ d hi =>
    intro body v rest h
    have ⟨w, hw, hb⟩ := exists_space body
    rw [value] at h
    simp only [] at h
    split at h
    case isTrue ho =>
      have hto := head_of_tail ho
      have ⟨w', hw', hb'⟩ := exists_space (space body).tail
      split at h
      case isTrue hc =>
        cases h
        have htc := head_of_tail hc
        refine ⟨w, openBrace :: w' ++ [closeBrace], hw, ⟨.emptyObject hw', good_object.mpr ?_⟩, ?_⟩
        · exact ⟨fun m hm => absurd hm (by simp), fun _ => List.nodup_nil⟩
        · conv_lhs => rw [hb, hto, hb', htc]
          simp
      case isFalse =>
        rw [Except.bind_eq_ok] at h
        obtain ⟨⟨ms, r⟩, hm, h⟩ := h
        cases h
        have hstart : distinct = true → (([] : List (Utf16 × Json Utf16)).map Prod.fst).Nodup := fun _ => List.nodup_nil
        obtain ⟨t, ms', rfl, hs, ht, hnodup⟩ := members_eq hi hstart hm
        have hs := hs.prepend fun h => h.prepend hw'
        rw [separated_member_and] at hs
        refine ⟨w, openBrace :: (w' ++ t) ++ [closeBrace], hw, ⟨.object hs.1, good_object.mpr ⟨hs.2, hnodup⟩⟩, ?_⟩
        conv_lhs => rw [hb, hto, hb', ht]
        simp
    case isFalse =>
      split at h
      case isTrue ho =>
        have hto := head_of_tail ho
        have ⟨w', hw', hb'⟩ := exists_space (space body).tail
        split at h
        case isTrue hc =>
          cases h
          have htc := head_of_tail hc
          refine ⟨w, openBracket :: w' ++ [closeBracket], hw, ⟨.emptyArray hw', good_array.mpr ?_⟩, ?_⟩
          · exact fun m hm => absurd hm (by simp)
          · conv_lhs => rw [hb, hto, hb', htc]
            simp
        case isFalse =>
          rw [Except.bind_eq_ok] at h
          obtain ⟨⟨vs, r⟩, hm, h⟩ := h
          cases h
          obtain ⟨t, vs', rfl, hs, ht⟩ := items_eq hi hm
          have hs := hs.prepend fun h => h.prepend hw'
          rw [separated_spaced_and] at hs
          refine ⟨w, openBracket :: (w' ++ t) ++ [closeBracket], hw, ⟨.array hs.1, good_array.mpr hs.2⟩, ?_⟩
          conv_lhs => rw [hb, hto, hb', ht]
          simp
      case isFalse =>
        split at h
        case isTrue =>
          rw [Except.bind_eq_ok] at h
          obtain ⟨⟨s, r⟩, hr, h⟩ := h
          cases h
          obtain ⟨t, ht, hb'⟩ := readString_eq hr
          exact ⟨w, t, hw, ⟨.string ht, Nat.succ_pos d, fun _ => trivial⟩, by rw [List.append_assoc, ← hb', ← hb]⟩
        case isFalse =>
          split at h
          case h_1 t hf =>
            cases h
            obtain ⟨hv, hd, hu, hb'⟩ := literals_find hf
            exact ⟨w, _, hw, ⟨hv, by rw [hd]; exact Nat.succ_pos d, fun _ => hu⟩, by
              rw [List.append_assoc, ← hb', ← hb]⟩
          case h_2 =>
            rw [Except.bind_eq_ok] at h
            obtain ⟨⟨t, r⟩, hr, h⟩ := h
            cases h
            cases hn : numberToken (space body)
            case none   => rw [hn] at hr; cases hr
            case some p =>
              rw [hn] at hr
              cases hr
              have ⟨hb', ht⟩ := numberToken_eq hn
              exact ⟨w, t, hw, ⟨.number ht, Nat.succ_pos d, fun _ => trivial⟩, by rw [List.append_assoc, ← hb', ← hb]⟩

theorem text_eq_ok_iff (distinct : Bool) (d : ℕ) :
    text distinct d body = .ok v ↔ Text body v ∧ Good distinct d v := by
  rw [text]
  constructor
  · intro h
    rw [Except.bind_eq_ok] at h
    obtain ⟨⟨v', r⟩, hv, h⟩ := h
    simp only [] at h
    split at h
    case isFalse  => cases h
    case isTrue hr =>
      cases h
      obtain ⟨w, t, hw, ⟨ht, hg⟩, hb⟩ := value_sound distinct d hv
      have ⟨w', hw', hr'⟩ := exists_space r
      rw [hr, List.append_nil] at hr'
      exact ⟨by rw [hb]; exact .mk hw ht (hr' ▸ hw'), hg⟩
  · intro ⟨h, hg⟩
    cases h
    case mk w t w' hw hw' h =>
      rw [value_takes distinct d hw ⟨h, hg⟩ (List.append_nil w' ▸ stops_append hw' stops_nil), Except.ok_bind]
      have hs : space w' = [] := by
        rw [← List.append_nil w', space_append hw']
        rfl
      simp only [hs, if_true]

end Values

section Termination

variable {p : Reader} {P : Utf16 → Json Utf16 → Prop} {acc : List (Json Utf16)} {n d : ℕ}
variable {fields : List (Utf16 × Json Utf16)} {distinct : Bool}

-- A reader that does not stop in the middle takes something whenever it succeeds.
structure Ends (p : Reader) : Prop where
  shorter : ∀ {body v rest}, p body = .ok (v, rest) → rest.length < body.length
  rounds  : ∀ {body}, p body ≠ .error .outOfRounds

theorem space_length_le (body : Utf16) : (space body).length ≤ body.length := (List.dropWhile_suffix _).length_le

theorem items_ends (hp : Ends p) (h : body.length < n) : items p n acc body ≠ .error .outOfRounds := by
  induction n generalizing acc body
  case zero      => cases h
  case succ n hi =>
    intro he
    rw [items, Except.bind_eq_error] at he
    rcases he with he | ⟨⟨v, rest⟩, hv, he⟩
    · exact hp.rounds he
    · simp only [] at he
      have hs := hp.shorter hv
      have hle := space_length_le rest
      split at he
      case isTrue => exact hi (by rw [List.length_tail]; omega) he
      case isFalse =>
        split at he
        case isTrue  => cases he
        case isFalse => cases he

theorem orFail_ne_outOfRounds {α : Type} (o : Option α) : orFail o ≠ .error .outOfRounds := by
  cases o
  case none => exact fun h => nomatch h
  case some => exact fun h => nomatch h

theorem readString_ne_outOfRounds (body : Utf16) : readString body ≠ .error .outOfRounds := by
  intro h
  rw [readString, Except.bind_eq_error] at h
  rcases h with h | ⟨_, _, h⟩
  · exact orFail_ne_outOfRounds _ h
  · rw [Except.bind_eq_error] at h
    rcases h with h | ⟨_, _, h⟩
    · exact orFail_ne_outOfRounds _ h
    · cases h

theorem members_ends (hp : Ends p) (h : body.length < n) :
    members distinct p n fields body ≠ .error .outOfRounds := by
  induction n generalizing fields body
  case zero      => cases h
  case succ n hi =>
    intro he
    rw [members, Except.bind_eq_error] at he
    rcases he with he | ⟨⟨key, rest⟩, hk, he⟩
    · exact readString_ne_outOfRounds _ he
    · have ⟨t, ht, hb⟩ := readString_eq hk
      have hle := space_length_le body
      have hle' := space_length_le rest
      rw [hb, List.length_append] at hle
      simp only [] at he
      split at he
      case isTrue => cases he
      case isFalse =>
        split at he
        case isTrue => cases he
        case isFalse =>
          rw [Except.bind_eq_error] at he
          rcases he with he | ⟨⟨v, rest'⟩, hv, he⟩
          · exact hp.rounds he
          · have hs := hp.shorter hv
            have hle'' := space_length_le rest'
            rw [List.length_tail] at hs
            simp only [] at he
            split at he
            case isTrue  => exact hi (by rw [List.length_tail]; omega) he
            case isFalse =>
              split at he
              case isTrue  => cases he
              case isFalse => cases he

theorem value_ends (distinct : Bool) (d : ℕ) : Ends (value distinct d) := by
  induction d
  case zero      => exact ⟨fun h => (nomatch h), fun h => (nomatch h)⟩
  case succ d hi =>
    refine ⟨fun h => ?_, @fun body h => ?_⟩
    · obtain ⟨w, t, _, ⟨ht, _⟩, rfl⟩ := value_sound distinct (d + 1) h
      obtain ⟨c, t', rfl, _⟩ := value_head ht
      simp only [List.length_append, List.length_cons]
      omega
    · have hle := space_length_le body
      have hin : (space body).head? ≠ none → (space (space body).tail).length < body.length := by
        intro hn
        have h₁ := space_length_le (space body).tail
        have h₂ : 0 < (space body).length := by
          rw [List.length_pos_iff]
          exact fun he => hn (by rw [he]; rfl)
        rw [List.length_tail] at h₁
        omega
      rw [value] at h
      simp only [] at h
      split at h
      case isTrue ho =>
        split at h
        case isTrue  => cases h
        case isFalse =>
          rw [Except.bind_eq_error] at h
          rcases h with h | ⟨_, _, h⟩
          · exact members_ends hi (hin (by rw [ho]; simp)) h
          · cases h
      case isFalse =>
        split at h
        case isTrue ho =>
          split at h
          case isTrue  => cases h
          case isFalse =>
            rw [Except.bind_eq_error] at h
            rcases h with h | ⟨_, _, h⟩
            · exact items_ends hi (hin (by rw [ho]; simp)) h
            · cases h
        case isFalse =>
          split at h
          case isTrue =>
            rw [Except.bind_eq_error] at h
            rcases h with h | ⟨_, _, h⟩
            · exact readString_ne_outOfRounds _ h
            · cases h
          case isFalse =>
            split at h
            case h_1 => cases h
            case h_2 =>
              rw [Except.bind_eq_error] at h
              rcases h with h | ⟨_, _, h⟩
              · exact orFail_ne_outOfRounds _ h
              · cases h

theorem text_ne_outOfRounds (distinct : Bool) (d : ℕ) (body : Utf16) : text distinct d body ≠ .error .outOfRounds := by
  intro h
  rw [text, Except.bind_eq_error] at h
  rcases h with h | ⟨_, _, h⟩
  · exact (value_ends distinct d).rounds h
  · simp only [] at h
    split at h
    case isTrue  => cases h
    case isFalse => cases h

end Termination

end Readers.ExactJson
