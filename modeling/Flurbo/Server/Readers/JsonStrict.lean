import Flurbo.Server.Readers.JsonGrammar

-- The strict reader and the exact one accept the same JSON texts.

namespace Readers.ExactJson

open Json

variable {c : CodeUnit} {t s rest body w : Utf16}

section Strict

variable {v : Json Utf16} {d n : ℕ} {p : Utf16 → Except Issue Utf16} {Q : Json Utf16 → Prop} {keys : List Utf16}
variable {vs : List (Json Utf16)} {ms : List (Utf16 × Json Utf16)} {r : Utf16} {N : Type}

mutual

theorem collapse_eq : (v : Json Utf16) → v.Unique → collapse v = v
  | .array items, h    => by rw [collapse, collapseItems_eq items h]
  | .object members, h => by rw [collapse, collapseMembers_eq members [] h.1 h.2]; rfl
  | .null, _ | .bool _, _ | .number _, _ | .string _, _ => rfl

theorem collapseItems_eq : (items : List (Json Utf16)) → UniqueItems items → collapseItems items = items
  | [], _            => rfl
  | item :: items, h => by rw [collapseItems, collapse_eq item h.1, collapseItems_eq items h.2]

theorem collapseMembers_eq : (members fields : List (Utf16 × Json Utf16)) →
    (fields.map Prod.fst ++ members.map Prod.fst).Nodup → UniqueMembers members →
    collapseMembers fields members = fields ++ members
  | [], fields, _, _                     => by rw [collapseMembers, List.append_nil]
  | (key, item) :: members, fields, hd, h => by
    have hk : key ∉ fields.map Prod.fst := fun hm => (List.nodup_append.mp hd).2.2 _ hm _ (by simp) rfl
    have hd' : ((fields ++ [(key, item)]).map Prod.fst ++ members.map Prod.fst).Nodup := by
      rw [List.map_append, List.append_assoc]
      exact hd
    rw [collapseMembers]
    simp only [collapse_eq item h.1, if_neg hk]
    rw [collapseMembers_eq members _ hd' h.2, List.append_assoc]
    rfl

end

theorem jsonParse_eq_ok_iff (toNumber : Utf16 → N) {document : Json N} :
    jsonParse toNumber body = .ok document ↔ ∃ v, Text body v ∧ document = (collapse v).map toNumber := by
  rw [jsonParse, Except.bind_eq_ok]
  refine exists_congr fun v => ?_
  rw [text_eq_ok_iff]
  constructor
  · intro ⟨⟨ht, _⟩, h⟩
    cases h
    exact ⟨ht, rfl⟩
  · intro ⟨ht, h⟩
    refine ⟨⟨ht, ?_, fun h => nomatch h⟩, by rw [h]; rfl⟩
    have ⟨_, hv, hl⟩ := ht.length_le
    exact hv.depth_lt (Nat.lt_succ_of_le hl)

-- The white space of the scan is more than that of JSON.
theorem isSpaceUnit_of_isWs (h : isWs c = true) : isSpaceUnit c = true := by
  simp only [isWs, Bool.or_eq_true, decide_eq_true_eq] at h
  rcases h with ((rfl | rfl) | rfl) | rfl <;> rfl

theorem isSpaceUnit_digit (h : isDigit c = true) : isSpaceUnit c = false := by
  rw [isDigit, Bool.and_eq_true, decide_eq_true_iff, decide_eq_true_iff, UInt16.le_iff_toNat_le,
    UInt16.le_iff_toNat_le] at h
  have hne (d : CodeUnit) (hd : isDigit d = false) : c ≠ d := by
    rintro rfl
    rw [isDigit, Bool.and_eq_false_iff, decide_eq_false_iff_not, decide_eq_false_iff_not, UInt16.le_iff_toNat_le,
      UInt16.le_iff_toNat_le] at hd
    omega
  rw [isSpaceUnit, decide_eq_false_iff_not]
  intro hs
  rcases hs with hs | ⟨hs, _⟩
  · simp only [List.mem_cons, List.not_mem_nil, or_false] at hs
    rcases hs with h | h | h | h | h | h | h | h | h | h | h | h | h | h <;> exact hne _ rfl h
  · rw [UInt16.le_iff_toNat_le] at hs
    have h₁ : nine.toNat = 57 := rfl
    have h₂ : (0x2000 : CodeUnit).toNat = 8192 := rfl
    omega

theorem skip_ws (hw : Ws w) (body : Utf16) : skip (w ++ body) = skip body :=
  List.dropWhile_append_of_pos fun c hc => isSpaceUnit_of_isWs (hw c hc)

theorem skip_cons (h : isSpaceUnit c = false) (hw : Ws w) (body : Utf16) : skip (w ++ c :: body) = c :: body := by
  rw [skip_ws hw, skip, List.dropWhile_cons_of_neg (by simp [h])]

theorem endsToken_stops (h : Stops rest) : ∀ c ∈ rest.head?, (!endsToken c) = false := by
  intro c hc
  rcases h c hc with h | rfl | rfl | rfl
  · simp [endsToken, isSpaceUnit_of_isWs h]
  all_goals rfl

theorem endsToken_digit (h : isDigit c = true) : (!endsToken c) = true := by
  have hne (d : CodeUnit) (hd : isDigit d = false) : c ≠ d := by
    rintro rfl
    exact absurd h (by simp [hd])
  simp only [endsToken, isSpaceUnit_digit h, Bool.false_or, Bool.not_eq_true', Bool.or_eq_false_iff,
    decide_eq_false_iff_not]
  exact ⟨⟨hne _ rfl, hne _ rfl⟩, hne _ rfl⟩

theorem endsToken_number (h : Number t) : ∀ c ∈ t, (!endsToken c) = true := by
  obtain ⟨hsign, hi, hf, he⟩ := h
  intro c hc
  simp only [List.mem_append] at hc
  rcases hc with hc | hc | hc | hc
  · rcases hsign with rfl | rfl
    · cases hc
    · rw [List.mem_singleton.mp hc]; rfl
  · cases hi
    case zero => rw [List.mem_singleton.mp hc]; rfl
    case digits h _ hs => exact (List.mem_cons.mp hc).elim (fun he => he ▸ endsToken_digit h) fun hc => endsToken_digit (hs c hc)
  · cases hf
    case none => cases hc
    case digits _ hs => exact (List.mem_cons.mp hc).elim (fun he => he ▸ rfl) fun hc => endsToken_digit (hs c hc)
  · cases he
    case none => cases hc
    case digits he hsign _ hs =>
      simp only [List.cons_append, List.mem_cons, List.mem_append] at hc
      rcases hc with rfl | hc | hc
      · rcases he with rfl | rfl <;> rfl
      · rcases hsign with rfl | rfl | rfl
        · cases hc
        · rw [List.mem_singleton.mp hc]; rfl
        · rw [List.mem_singleton.mp hc]; rfl
      · exact endsToken_digit (hs c hc)

theorem value_head_skip (h : Value t v) : ∃ c t', t = c :: t' ∧ isSpaceUnit c = false ∧ c ≠ closeBracket := by
  cases h
  case number h =>
    obtain ⟨c, t', rfl, hc⟩ := number_head h
    have hs : isSpaceUnit c = false := hc.elim (fun h => h ▸ rfl) isSpaceUnit_digit
    exact ⟨c, t', rfl, hs, (digit_ne hc).2.2.2.2.1⟩
  case string h => cases h; exact ⟨_, _, rfl, rfl, by decide⟩
  all_goals exact ⟨_, _, rfl, rfl, by decide⟩

theorem skip_value (hw : Ws w) (h : Value t v) (rest : Utf16) : skip (w ++ t ++ rest) = t ++ rest := by
  obtain ⟨c, t', rfl, hc, _⟩ := value_head_skip h
  rw [List.append_assoc, List.cons_append, skip_cons hc hw]

-- What the scan says about a value that is there.
def Scans (p : Utf16 → Except Issue Utf16) (Q : Json Utf16 → Prop) : Prop :=
  ∀ {w t v rest r}, Ws w → Value t v → Stops rest → (p (w ++ t ++ rest) = .ok r ↔ Q v ∧ r = rest)

structure Separates (c : CodeUnit) : Prop where
  stop  : c = comma ∨ c = closeBracket ∨ c = closeBrace
  space : isSpaceUnit c = false

theorem separates_comma : Separates comma := ⟨.inl rfl, rfl⟩

theorem separates_bracket : Separates closeBracket := ⟨.inr (.inl rfl), rfl⟩

theorem separates_brace : Separates closeBrace := ⟨.inr (.inr rfl), rfl⟩

theorem Scans.spaced (hp : Scans p Q) (h : Spaced Value t v) (hc : Separates c) (rest : Utf16) : ∃ body,
    skip body = c :: rest ∧ (skip (t ++ c :: rest)).head? ≠ some closeBracket ∧
    (∀ r, p (skip (t ++ c :: rest)) = .ok r ↔ Q v ∧ r = body) ∧ ∀ r, p (t ++ c :: rest) = .ok r ↔ Q v ∧ r = body := by
  cases h
  case mk w t w' hw hw' h =>
    have hs : Stops (w' ++ c :: rest) := stops_append hw' (stops_cons (.inr hc.stop) rest)
    have hskip : skip (w ++ t ++ w' ++ c :: rest) = t ++ (w' ++ c :: rest) := by
      rw [List.append_assoc]
      exact skip_value hw h _
    refine ⟨w' ++ c :: rest, skip_cons hc.space hw' rest, ?_, fun r => ?_, fun r => ?_⟩
    · obtain ⟨c, t', rfl, _, hne⟩ := value_head_skip h
      rw [hskip]
      exact fun h => hne (Option.some.inj h)
    · rw [hskip]
      exact hp (w := []) (by simp [Ws]) h hs
    · rw [List.append_assoc]
      exact hp hw h hs

theorem scanItems_iff (hp : Scans p Q) (h : Separated (Spaced Value) t vs) (hn : vs.length ≤ n) :
    scanItems p n (skip (t ++ closeBracket :: rest)) = .ok r ↔ (∀ v ∈ vs, Q v) ∧ r = closeBracket :: rest := by
  induction h generalizing n
  case last t v h =>
    cases n
    case zero   => cases hn
    case succ n =>
      have ⟨body, hs, hhead, hv, _⟩ := hp.spaced h separates_bracket rest
      rw [scanItems, if_neg hhead, Except.bind_eq_ok]
      simp only [hv, List.forall_mem_singleton]
      constructor
      · intro ⟨a, ⟨hq, ha⟩, h⟩
        subst ha
        simp only [hs] at h
        cases h
        exact ⟨hq, rfl⟩
      · intro ⟨hq, hr⟩
        refine ⟨body, ⟨hq, rfl⟩, ?_⟩
        simp only [hs, hr]
        rfl
  case cons t ts v vs h _ hi =>
    cases n
    case zero   => cases hn
    case succ n =>
      have ⟨body, hs, hhead, hv, _⟩ := hp.spaced h separates_comma (ts ++ closeBracket :: rest)
      rw [List.append_assoc, List.cons_append, scanItems, if_neg hhead, Except.bind_eq_ok]
      simp only [hv, List.forall_mem_cons, and_assoc]
      constructor
      · intro ⟨a, hq, ha, h⟩
        subst ha
        simp only [hs, List.head?_cons, List.tail_cons, if_true] at h
        exact ⟨hq, (hi (Nat.le_of_succ_le_succ hn)).mp h⟩
      · intro ⟨hq, h⟩
        refine ⟨body, hq, rfl, ?_⟩
        simp only [hs, List.head?_cons, List.tail_cons, if_true]
        exact (hi (Nat.le_of_succ_le_succ hn)).mpr h

theorem Scans.member {key : Utf16} (hp : Scans p Q) (h : Member Value t (key, v)) (hc : Separates c) (rest : Utf16) :
    ∃ body₁ body, (skip (t ++ c :: rest)).head? ≠ some closeBrace ∧
      scanString (skip (t ++ c :: rest)) = .ok (key, body₁) ∧ skip body = c :: rest ∧
      ∀ r, p (skip body₁).tail = .ok r ↔ Q v ∧ r = body := by
  cases h
  case mk name t hn h =>
    cases hn
    case mk w q w' hw hw' hq =>
      have ⟨body, hs, _, _, hv⟩ := hp.spaced h hc rest
      have hcolon : skip (w' ++ colon :: (t ++ c :: rest)) = colon :: (t ++ c :: rest) := skip_cons rfl hw' _
      have hskip : skip (w ++ q ++ w' ++ colon :: t ++ c :: rest) = q ++ (w' ++ colon :: (t ++ c :: rest)) := by
        simp only [List.append_assoc, List.cons_append]
        cases hq
        exact skip_cons rfl hw _
      refine ⟨w' ++ colon :: (t ++ c :: rest), body, ?_, ?_, hs, fun r => ?_⟩
      · rw [hskip]
        cases hq
        exact fun h => nomatch h
      · rw [hskip, scanString_append hq]
      · rw [hcolon]
        exact hv r

theorem scanMembers_iff (hp : Scans p Q) (h : Separated (Member Value) t ms) (hn : ms.length ≤ n) (hk : keys.Nodup) :
    scanMembers p n keys (skip (t ++ closeBrace :: rest)) = .ok r ↔
      (keys ++ ms.map Prod.fst).Nodup ∧ (∀ m ∈ ms, Q m.2) ∧ r = closeBrace :: rest := by
  induction h generalizing n keys
  case last t m h =>
    cases n
    case zero   => cases hn
    case succ n =>
      have ⟨body₁, body, hhead, hkey, hs, hv⟩ := hp.member h separates_brace rest
      have hnd : (keys ++ [m].map Prod.fst).Nodup ↔ m.1 ∉ keys := by
        rw [List.nodup_append_comm]
        exact List.nodup_cons.trans (and_iff_left hk)
      rw [scanMembers, if_neg hhead, hkey, Except.ok_bind, hnd]
      simp only []
      by_cases hd : m.1 ∈ keys
      · rw [if_pos hd]
        exact iff_of_false (fun h => nomatch h) fun h => h.1 hd
      · rw [if_neg hd, Except.bind_eq_ok, and_iff_right hd]
        simp only [hv, List.forall_mem_singleton]
        constructor
        · intro ⟨a, ⟨hq, ha⟩, h⟩
          subst ha
          simp only [hs] at h
          cases h
          exact ⟨hq, rfl⟩
        · intro ⟨hq, hr⟩
          refine ⟨body, ⟨hq, rfl⟩, ?_⟩
          simp only [hs, hr]
          rfl
  case cons t ts m ms h _ hi =>
    cases n
    case zero   => cases hn
    case succ n =>
      have ⟨body₁, body, hhead, hkey, hs, hv⟩ := hp.member h separates_comma (ts ++ closeBrace :: rest)
      rw [List.append_assoc, List.cons_append, scanMembers, if_neg hhead, hkey, Except.ok_bind]
      simp only []
      by_cases hd : m.1 ∈ keys
      · rw [if_pos hd]
        exact iff_of_false (fun h => nomatch h) fun h => (List.nodup_append.mp h.1).2.2 _ hd _ (by simp) rfl
      · have hk' : (keys ++ [m.1]).Nodup := List.nodup_append_comm.mp (List.nodup_cons.mpr ⟨hd, hk⟩)
        have hnd : keys ++ (m :: ms).map Prod.fst = keys ++ [m.1] ++ ms.map Prod.fst := by
          rw [List.append_assoc]
          rfl
        rw [if_neg hd, Except.bind_eq_ok, hnd]
        simp only [hv, List.forall_mem_cons]
        constructor
        · intro ⟨a, ⟨hq, ha⟩, h⟩
          subst ha
          simp only [hs, List.head?_cons, List.tail_cons, if_true] at h
          have ⟨h₁, h₂, h₃⟩ := (hi (Nat.le_of_succ_le_succ hn) hk').mp h
          exact ⟨h₁, ⟨hq, h₂⟩, h₃⟩
        · intro ⟨h₁, ⟨hq, h₂⟩, h₃⟩
          refine ⟨body, ⟨hq, rfl⟩, ?_⟩
          simp only [hs, List.head?_cons, List.tail_cons, if_true]
          exact (hi (Nat.le_of_succ_le_succ hn) hk').mpr ⟨h₁, h₂, h₃⟩

theorem scan_token (hne : ∀ c ∈ t.head?, c ≠ openBrace ∧ c ≠ openBracket ∧ c ≠ quote)
    (ht : ∀ c ∈ t, (!endsToken c) = true) (hn : t ≠ []) (hs : skip body = t ++ rest) (hstop : Stops rest) :
    scan (d + 1) body = .ok rest := by
  obtain ⟨c, t, rfl⟩ := List.exists_cons_of_ne_nil hn
  have ⟨h₁, h₂, h₃⟩ := hne c rfl
  have hhead : (c :: t ++ rest).head? = some c := rfl
  rw [scan]
  simp only [hs, hhead, Option.some.injEq, h₁, h₂, h₃, if_false, dropWhile_span ht (endsToken_stops hstop)]

theorem scan_iff (d : ℕ) : Scans (scan d) (Good true d) := by
  induction d
  case zero =>
    intro w t v rest r _ _ _
    exact iff_of_false (fun h => nomatch h) fun h => absurd h.1.1 (Nat.not_lt_zero _)
  case succ d hi =>
    intro w t v rest r hw h hstop
    have hs := skip_value hw h rest
    have hlen : t.length ≤ (w ++ t ++ rest).length := by simp only [List.length_append]; omega
    generalize w ++ t ++ rest = body at hs hlen
    have leaf (hv : v.depth = 0 ∧ v.Unique) (hr : scan (d + 1) body = .ok rest) :
        scan (d + 1) body = .ok r ↔ Good true (d + 1) v ∧ r = rest := by
      have hg : Good true (d + 1) v := ⟨by rw [hv.1]; exact Nat.succ_pos d, fun _ => hv.2⟩
      rw [hr, and_iff_right hg]
      exact ⟨fun h => (Except.ok.inj h).symm, fun h => h ▸ rfl⟩
    cases h
    case null | true | false =>
      exact leaf ⟨rfl, trivial⟩ (scan_token (fun c hc => by cases hc; decide) (List.all_eq_true.mp rfl) (by decide) hs hstop)
    case number h =>
      refine leaf ⟨rfl, trivial⟩ (scan_token ?_ (endsToken_number h) ?_ hs hstop)
      · obtain ⟨c, t', rfl, hc⟩ := number_head h
        intro c hc'
        cases hc'
        exact ⟨(digit_ne hc).2.1, (digit_ne hc).2.2.1, (digit_ne hc).2.2.2.1⟩
      · obtain ⟨c, t', rfl, _⟩ := number_head h
        exact List.cons_ne_nil _ _
    case string s h =>
      have hr := scanString_append h rest
      refine leaf ⟨rfl, trivial⟩ ?_
      cases h
      case mk t h =>
        have hhead : (quote :: t ++ rest).head? = some quote := rfl
        have h₁ : quote ≠ openBrace := by decide
        have h₂ : quote ≠ openBracket := by decide
        rw [scan]
        simp only [hs, hhead, Option.some.injEq, h₁, h₂, if_false, if_true, hr]
        rfl
    case emptyArray w hw =>
      refine leaf ⟨rfl, trivial⟩ ?_
      have hhead : (openBracket :: w ++ [closeBracket] ++ rest).head? = some openBracket := rfl
      have h₁ : openBracket ≠ openBrace := by decide
      have htail : skip (openBracket :: w ++ [closeBracket] ++ rest).tail = closeBracket :: rest := by
        rw [List.append_assoc]
        exact skip_cons rfl hw rest
      have ⟨n, hn⟩ := Nat.exists_eq_add_of_le' hlen
      simp only [List.cons_append, List.length_cons, ← Nat.add_assoc] at hn
      rw [scan, hn]
      simp only [hs, hhead, htail, Option.some.injEq, h₁, if_false, if_true]
      rfl
    case emptyObject w hw =>
      refine leaf ⟨rfl, List.nodup_nil, trivial⟩ ?_
      have hhead : (openBrace :: w ++ [closeBrace] ++ rest).head? = some openBrace := rfl
      have htail : skip (openBrace :: w ++ [closeBrace] ++ rest).tail = closeBrace :: rest := by
        rw [List.append_assoc]
        exact skip_cons rfl hw rest
      have ⟨n, hn⟩ := Nat.exists_eq_add_of_le' hlen
      simp only [List.cons_append, List.length_cons, ← Nat.add_assoc] at hn
      rw [scan, hn]
      simp only [hs, hhead, htail, if_true]
      rfl
    case array t vs h =>
      have hhead : (openBracket :: t ++ [closeBracket] ++ rest).head? = some openBracket := rfl
      have htail : (openBracket :: t ++ [closeBracket] ++ rest).tail = t ++ closeBracket :: rest := by simp
      have h₁ : openBracket ≠ openBrace := by decide
      have hn : vs.length ≤ body.length := by
        have := h.length_le
        simp only [List.length_append, List.length_cons] at this hlen
        omega
      rw [scan]
      simp only [hs, hhead, htail, Option.some.injEq, h₁, if_false, if_true]
      rw [Except.bind_eq_ok, good_array]
      simp only [scanItems_iff hi h hn]
      constructor
      · intro ⟨a, ⟨hq, ha⟩, h⟩
        subst ha
        exact ⟨hq, (Except.ok.inj h).symm⟩
      · intro ⟨hq, hr⟩
        exact ⟨_, ⟨hq, rfl⟩, by rw [hr]; rfl⟩
    case object t ms h =>
      have hhead : (openBrace :: t ++ [closeBrace] ++ rest).head? = some openBrace := rfl
      have htail : (openBrace :: t ++ [closeBrace] ++ rest).tail = t ++ closeBrace :: rest := by simp
      have hn : ms.length ≤ body.length := by
        have := h.length_le
        simp only [List.length_append, List.length_cons] at this hlen
        omega
      rw [scan]
      simp only [hs, hhead, htail, if_true]
      rw [Except.bind_eq_ok, good_object]
      simp only [scanMembers_iff hi h hn List.nodup_nil, List.nil_append]
      constructor
      · intro ⟨a, ⟨hd, hq, ha⟩, h⟩
        subst ha
        exact ⟨⟨hq, fun _ => hd⟩, (Except.ok.inj h).symm⟩
      · intro ⟨⟨hq, hd⟩, hr⟩
        exact ⟨_, ⟨hd trivial, hq, rfl⟩, by rw [hr]; rfl⟩

-- Without a byte-order mark both readers accept the same bodies, with the same document.
theorem strictJSON_eq_ok_iff (toNumber : Utf16 → N) {document : Json N} :
    strictJSON toNumber body = .ok document ↔
      ∃ v, Text body v ∧ Good true 65 v ∧ document = v.map toNumber := by
  rw [strictJSON, Except.bind_eq_ok]
  simp only [Except.mapError_eq_ok, jsonParse_eq_ok_iff]
  have hscan {v : Json Utf16} (h : Text body v) : (∃ r, scan 65 body = .ok r) ↔ Good true 65 v := by
    cases h
    case mk w t w' hw hw' h =>
      have hs : Stops w' := List.append_nil w' ▸ stops_append hw' stops_nil
      simp only [scan_iff 65 hw h hs]
      exact ⟨fun he => he.choose_spec.1, fun h => ⟨_, h, rfl⟩⟩
  constructor
  · rintro ⟨_, ⟨v, ht, hd⟩, h⟩
    rw [Except.bind_eq_ok] at h
    obtain ⟨r, hr, h⟩ := h
    have hg := (hscan ht).mp ⟨r, hr⟩
    refine ⟨v, ht, hg, ?_⟩
    rw [← Except.ok.inj h, hd, collapse_eq v (hg.2 rfl)]
  · rintro ⟨v, ht, hg, hd⟩
    obtain ⟨r, hr⟩ := (hscan ht).mpr hg
    refine ⟨_, ⟨v, ht, rfl⟩, ?_⟩
    rw [hr, Except.ok_bind, hd, collapse_eq v (hg.2 rfl)]
    rfl

theorem text_head (h : Text body v) : body.head? ≠ some Utf16.byteOrderMark := by
  cases h
  case mk w t w' hw hw' h =>
    intro hc
    cases w
    case nil =>
      obtain ⟨c, t', rfl, hs, _⟩ := value_head_skip h
      rw [Option.some.inj hc] at hs
      exact absurd hs (by decide)
    case cons c w =>
      have hs := hw c (by simp)
      rw [Option.some.inj hc] at hs
      exact absurd hs (by decide)

theorem parseExactJSON_eq_ok_iff {input : Utf16} : parseExactJSON input = .ok v ↔
    Text input.dropMark v ∧ v.depth ≤ 64 ∧ v.Unique := by
  rw [parseExactJSON, text_eq_ok_iff, Good, Nat.lt_succ_iff]
  exact and_congr_right fun _ => and_congr_right fun _ => ⟨fun h => h rfl, fun h _ => h⟩

end Strict

-- The exact reader accepts the JSON texts without too many levels or double names and keeps the texts of
-- their numbers. It ends on every input. The strict one accepts the same without a byte-order mark.
theorem parseExactJSON_exact {N : Type} (toNumber : Utf16 → N) (input : Utf16) :
    (∀ document, parseExactJSON input = .ok document ↔
      Text input.dropMark document ∧ document.depth ≤ 64 ∧ document.Unique) ∧
    parseExactJSON input ≠ .error .outOfRounds ∧
    ∀ document : Json N, strictJSON toNumber input = .ok document ↔
      input.head? ≠ some Utf16.byteOrderMark ∧
        ∃ exact, parseExactJSON input = .ok exact ∧ document = exact.map toNumber := by
  refine ⟨fun _ => parseExactJSON_eq_ok_iff, text_ne_outOfRounds true 65 _, fun document => ?_⟩
  rw [strictJSON_eq_ok_iff]
  simp only [parseExactJSON_eq_ok_iff]
  constructor
  · intro ⟨v, ht, hg, hd⟩
    have hb := text_head ht
    exact ⟨hb, v, ⟨(Utf16.dropMark_of_ne hb).symm ▸ ht, Nat.le_of_lt_succ hg.1, hg.2 rfl⟩, hd⟩
  · intro ⟨hb, v, ⟨ht, hl, hu⟩, hd⟩
    exact ⟨v, Utf16.dropMark_of_ne hb ▸ ht, ⟨Nat.lt_succ_of_le hl, fun _ => hu⟩, hd⟩

end Readers.ExactJson
