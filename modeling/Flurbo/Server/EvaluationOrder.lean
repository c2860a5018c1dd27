import Flurbo.Server.Corrections
import Flurbo.Server.Readers.JsonRecord

-- The answer of an evaluation does not depend on the order of its captures, and a later one keeps it.

open Except

-- `localeCompare` is a total preorder.
structure Settlement.Readers.Collates (R : Settlement.Readers) : Prop where
  total {a b : String}   : R.localeLe a b = true ∨ R.localeLe b a = true
  trans {a b c : String} : R.localeLe a b = true → R.localeLe b c = true → R.localeLe a c = true

namespace Settlement

variable {R : Readers} {rule : Rule} {captures captures' : List Capture} {c : Capture} {now now' : ℕ}
variable {s s' initial : Sourced} {records records' : List Sourced} {i i' : Identity} {links : List Identity}

section Order

def isCorrection (rule : Rule) (s : Sourced) : Bool :=
  (s.record.kind = .correction ∨ s.record.kind = .correctionNotice) ∧
    s.record.publishedAt ≤ rule.timing.correctionCutoff

-- The order in which corrections are applied.
def publishedLe (R : Readers) (a b : Sourced) : Bool :=
  a.record.publishedAt < b.record.publishedAt ∨
    a.record.publishedAt = b.record.publishedAt ∧ R.localeLe a.record.id b.record.id

theorem correctionsOf_eq (R : Readers) (rule : Rule) (records : List Sourced) :
    correctionsOf R rule records = (records.filter (isCorrection rule)).mergeSort (publishedLe R) := rfl

theorem publishedLe_total (hR : R.Collates) (a b : Sourced) : (publishedLe R a b || publishedLe R b a) = true := by
  simp only [publishedLe, Bool.or_eq_true, decide_eq_true_eq]
  rcases lt_trichotomy a.record.publishedAt b.record.publishedAt with h | h | h
  · exact .inl (.inl h)
  · exact (@Readers.Collates.total R hR a.record.id b.record.id).imp (fun hl => .inr ⟨h, hl⟩) fun hl => .inr ⟨h.symm, hl⟩
  · exact .inr (.inl h)

theorem publishedLe_trans (hR : R.Collates) (a b c : Sourced) (h : publishedLe R a b = true)
    (h' : publishedLe R b c = true) : publishedLe R a c = true := by
  simp only [publishedLe, decide_eq_true_eq] at *
  rcases h with h | ⟨h, hl⟩ <;> rcases h' with h' | ⟨h', hl'⟩
  · exact .inl (h.trans h')
  · exact .inl (h' ▸ h)
  · exact .inl (h ▸ h')
  · exact .inr ⟨h.trans h', hR.trans hl hl'⟩

theorem publishedAt_le_of (h : publishedLe R s s' = true) : s.record.publishedAt ≤ s'.record.publishedAt := by
  rw [publishedLe, decide_eq_true_iff] at h
  exact h.elim (·.le) (·.1.le)

theorem mem_correctionsOf : s ∈ correctionsOf R rule records ↔ s ∈ records ∧ isCorrection rule s = true := by
  rw [correctionsOf_eq, List.mem_mergeSort, List.mem_filter]

theorem correctionsOf_pairwise (hR : R.Collates) (rule : Rule) (records : List Sourced) :
    (correctionsOf R rule records).Pairwise fun a b => publishedLe R a b = true :=
  List.pairwise_mergeSort (publishedLe_trans hR) (publishedLe_total hR) _

end Order

section Select

-- The identity of the record that decides the outcome.
def Deciding (rule : Rule) (records : List Sourced) (i : Identity) : Prop :=
  Undisputed rule records ∧ ∃ initial, Candidate rule records initial ∧
    if rule.vintage = .initialWithCorrections then
      i.kind ≠ .correctionNotice ∧ ∃ links, lastOf initial.record.identity links = i ∧
        Chained initial.record.identity (records.filter (isCorrection rule)) links
    else i = initial.record.identity

theorem Chained.corrections (R : Readers) : Chained i (records.filter (isCorrection rule)) links ↔
    Chained i (correctionsOf R rule records) links := by
  have h (s : Sourced) : s ∈ records.filter (isCorrection rule) ↔ s ∈ correctionsOf R rule records := by
    rw [mem_correctionsOf, List.mem_filter]
  exact ⟨.congr h, .congr fun s => (h s).symm⟩

theorem Deciding.congr (h : ∀ s, s ∈ records ↔ s ∈ records') (hd : Deciding rule records i) :
    Deciding rule records' i := by
  obtain ⟨hu, initial, hc, hd⟩ := hd
  refine ⟨hu.congr h, initial, (Candidate.congr h).mp hc, ?_⟩
  split
  case isFalse hv => rwa [if_neg hv] at hd
  case isTrue hv =>
    rw [if_pos hv] at hd
    obtain ⟨hk, links, hl, hch⟩ := hd
    exact ⟨hk, links, hl, hch.congr fun s => by rw [List.mem_filter, List.mem_filter, h]⟩

-- Every correction names the record that it corrects.
def Targeted (rule : Rule) (records : List Sourced) : Prop :=
  ∀ s ∈ records, isCorrection rule s = true → s.record.supersedesId.isSome = true

theorem targeted_recordsOf : Targeted rule (recordsOf R rule captures now) := by
  intro s hs hk
  obtain ⟨c, -, -, hp⟩ := mem_recordsOf.mp hs
  have hc := hp.record
  simp only [checkRecord, bind_eq_ok, ensure_eq_ok] at hc
  obtain ⟨-, -, -, -, -, h, -⟩ := hc
  rw [isCorrection, decide_eq_true_iff] at hk
  obtain ⟨v, hv, -⟩ := h hk.1
  exact Option.isSome_iff_exists.mpr ⟨v, hv⟩

theorem Targeted.corrections (h : Targeted rule records) :
    ∀ s ∈ correctionsOf R rule records, s.record.supersedesId.isSome = true := fun s hs =>
  have ⟨hm, hc⟩ := mem_correctionsOf.mp hs
  h s hm hc

theorem select_eq (R : Readers) (rule : Rule) (records : List Sourced) : select R rule records = (do
    let initial ← selectInitial rule records
    if rule.vintage = .initialWithCorrections then
      let c ← (correctionsOf R rule records).foldlM correct (begin initial)
      if c.selected.record.kind = .correctionNotice then .error .correctionWithoutReplacement
      else .ok (c.used, c.selected)
    else .ok ([initial], initial)) := rfl

theorem select_deciding (ht : Targeted rule records) {used : List Sourced} {selected : Sourced}
    (h : select R rule records = .ok (used, selected)) : Deciding rule records selected.record.identity := by
  rw [select_eq, bind_eq_ok] at h
  obtain ⟨initial, hi, h⟩ := h
  have ⟨hc, hu⟩ := selectInitial_eq_ok hi
  refine ⟨hu, initial, hc, ?_⟩
  split at h
  case isFalse hv =>
    cases h
    rw [if_neg hv]
  case isTrue hv =>
    rw [if_pos hv]
    rw [bind_eq_ok] at h
    obtain ⟨c, hf, h⟩ := h
    have ⟨links, hl, hr⟩ := chained_of_fold ht.corrections hf
    split at h
    case isTrue     => cases h
    case isFalse hk =>
      cases h
      exact ⟨hk, links, hr.selected.symm, (Chained.corrections R).mpr hl⟩

theorem exists_select (hR : R.Collates) (ht : Targeted rule records) (h : Deciding rule records i) :
    ∃ used selected, select R rule records = .ok (used, selected) ∧ selected.record.identity = i := by
  obtain ⟨hu, s, hc, h⟩ := h
  have ⟨initial, hi⟩ := selectInitial_of_undisputed hc hu
  have he := hu.same _ _ hc (selectInitial_eq_ok hi).1
  rw [select_eq, hi, ok_bind]
  split at h
  case isFalse hv =>
    rw [if_neg hv]
    exact ⟨_, _, rfl, by rw [h, he]⟩
  case isTrue hv =>
    obtain ⟨hk, links, rfl, hl⟩ := h
    rw [he] at hl hk ⊢
    have hsorted := (correctionsOf_pairwise hR rule records).imp publishedAt_le_of
    have ⟨c, hf, hr⟩ := fold_of_chained ht.corrections hsorted ((Chained.corrections R).mp hl)
    have hk' : ¬ c.selected.record.kind = .correctionNotice := by
      rw [← hr.selected] at hk
      exact hk
    rw [if_pos hv, hf, ok_bind, if_neg hk']
    exact ⟨_, _, rfl, hr.selected⟩

end Select

section Thrown

-- No record that cannot be encoded is compared: none is an initial record, and none follows a chain of all
-- the corrections that are published before it.
structure Comparable (R : Readers) (rule : Rule) (records : List Sourced) : Prop where
  initials    : ∀ s, Candidate rule records s → s.record.encodes = true
  corrections : rule.vintage = .initialWithCorrections → Undisputed rule records →
    ∀ initial, Candidate rule records initial → ∀ s ∈ records, isCorrection rule s = true →
      s.record.encodes = false → ∀ links, ¬ Chained initial.record.identity
        (records.filter fun b => isCorrection rule b && !publishedLe R s b) links

theorem Comparable.congr (h : ∀ s, s ∈ records ↔ s ∈ records') (hc : Comparable R rule records) :
    Comparable R rule records' where
  initials s hs := hc.initials s ((Candidate.congr h).mpr hs)
  corrections hv hu initial hi s hs hk he links hl := by
    have h' (s : Sourced) : s ∈ records' ↔ s ∈ records := (h s).symm
    refine hc.corrections hv (hu.congr h') initial ((Candidate.congr h).mpr hi) s ((h s).mpr hs) hk he links ?_
    exact hl.congr fun b => by rw [List.mem_filter, List.mem_filter, h]

theorem select_ne_thrown (hR : R.Collates) (ht : Targeted rule records) (h : Comparable R rule records) :
    select R rule records ≠ .error .thrown := by
  intro hs
  rw [select_eq, bind_eq_error] at hs
  rcases hs with hs | ⟨initial, hi, hs⟩
  · obtain ⟨s, hs, he⟩ := selectInitial_thrown.mp hs
    exact absurd (h.initials s hs) (by simp [he])
  have ⟨hc, hu⟩ := selectInitial_eq_ok hi
  split at hs
  case isFalse => cases hs
  case isTrue hv =>
    rw [bind_eq_error] at hs
    rcases hs with hs | ⟨c, -, hs⟩
    case inr => split at hs <;> cases hs
    obtain ⟨l₁, a, l₂, c, hl, hf, he⟩ := List.foldlM_eq_error.mp hs
    have hsorted := correctionsOf_pairwise hR rule records
    have hsup := ht.corrections (R := R)
    have ha : a ∈ correctionsOf R rule records := by simp [hl]
    -- What is published before the record is at the head of what the loop has read before it.
    rw [hl, List.pairwise_append] at hsorted
    have hsplit := (hsorted.1.imp fun {b b'} hle (hb : (!publishedLe R a b') = true) => by
      rw [Bool.not_eq_true', ← Bool.not_eq_true] at hb ⊢
      exact fun h => hb (publishedLe_trans hR _ _ _ h hle)).filter_append (p := fun b => !publishedLe R a b)
    rw [hsplit, List.foldlM_append, bind_eq_ok] at hf
    obtain ⟨c₁, hf, -⟩ := hf
    have hin (b : Sourced) : b ∈ l₁.filter (fun b => !publishedLe R a b) ↔
        b ∈ records.filter fun b => isCorrection rule b && !publishedLe R a b := by
      rw [List.mem_filter, List.mem_filter, Bool.and_eq_true, ← and_assoc, ← mem_correctionsOf (R := R), hl,
        List.mem_append, List.mem_cons]
      refine and_congr_left fun hb => ⟨.inl, fun h => h.resolve_right ?_⟩
      rw [Bool.not_eq_true', ← Bool.not_eq_true] at hb
      rintro (rfl | h)
      · exact hb (by simpa using publishedLe_total hR b b)
      · exact hb ((List.pairwise_cons.mp hsorted.2.1).1 b h)
    obtain ⟨links, hch, -⟩ := chained_of_fold (fun s h => hsup s (by simp [hl, List.mem_of_mem_filter h])) hf
    have ⟨hm, hk⟩ := mem_correctionsOf.mp ha
    exact h.corrections hv hu initial hc a hm hk (correct_thrown.mp he) links (hch.congr hin)

-- A record comes before those that are published at the same time if its capture does.
theorem select_thrown (hR : R.Collates) (ht : Targeted rule (s :: records))
    (hv : rule.vintage = .initialWithCorrections) (hu : Undisputed rule (s :: records))
    (hc : Candidate rule (s :: records) initial) (hk : isCorrection rule s = true) (he : s.record.encodes = false)
    (hl : Chained initial.record.identity
      ((s :: records).filter fun b => isCorrection rule b && !publishedLe R s b) links) :
    select R rule (s :: records) = .error .thrown := by
  have ⟨first, hi⟩ := selectInitial_of_undisputed hc hu
  rw [hu.same _ _ hc (selectInitial_eq_ok hi).1] at hl
  have ⟨l₁, l₂, hs, hs', hbefore⟩ := List.mergeSort_cons (publishedLe_trans hR) (publishedLe_total hR) s
    (records.filter (isCorrection rule))
  have hsort : correctionsOf R rule (s :: records) = l₁ ++ s :: l₂ := by
    rw [correctionsOf_eq, List.filter_cons_of_pos hk, hs]
  have hsorted := correctionsOf_pairwise hR rule (s :: records)
  have hsup := ht.corrections (R := R)
  rw [hsort] at hsorted hsup
  have hin (b : Sourced) : b ∈ (s :: records).filter (fun b => isCorrection rule b && !publishedLe R s b) ↔ b ∈ l₁ := by
    rw [List.mem_filter, Bool.and_eq_true, ← and_assoc, ← mem_correctionsOf (R := R), hsort, List.mem_append,
      List.mem_cons]
    refine ⟨fun ⟨h, hb⟩ => h.resolve_right ?_, fun h => ⟨.inl h, hbefore b h⟩⟩
    rw [Bool.not_eq_true', ← Bool.not_eq_true] at hb
    rintro (rfl | h)
    · exact hb (by simpa using publishedLe_total hR b b)
    · exact hb ((List.pairwise_cons.mp (List.pairwise_append.mp hsorted).2.1).1 b h)
  obtain ⟨c, hf, -⟩ := fold_of_chained (fun b h => hsup b (by simp [h]))
    ((List.pairwise_append.mp hsorted).1.imp publishedAt_le_of) (hl.congr hin)
  rw [select_eq, hi, ok_bind, if_pos hv, hsort, List.foldlM_append, hf, ok_bind, List.foldlM_cons,
    correct_thrown.mpr he]
  rfl

end Thrown

section Answers

inductive Evaluation.Status
  | terminal | timeout | waiting | unresolved | ready
  deriving DecidableEq, Repr

-- The status and the outcome of a result.
def Evaluation.answer : Evaluation → Option (Evaluation.Status × Option ℕ)
  | .thrown       => none
  | .terminal     => some (.terminal, none)
  | .timeout      => some (.timeout, none)
  | .waiting      => some (.waiting, none)
  | .unresolved _ => some (.unresolved, none)
  | .ready p      => some (.ready, some p.outcome)

-- Every order of the captures gives the same status and outcome.
def Insensitive (R : Readers) (rule : Rule) (captures : List Capture) (now : ℕ) (finalized : Bool) : Prop :=
  ∃ a, ∀ captures', captures'.Perm captures →
    (evaluateSettlement R rule captures' now finalized).answer = some a

theorem evaluate_thrown (h : Opened R rule captures now)
    (hs : select R rule (recordsOf R rule captures now) = .error .thrown) :
    evaluateSettlement R rule captures now false = .thrown := by
  rw [evaluate_opened h, hs]

theorem answer_unresolved (h : Opened R rule captures now) {e : Reason} (he : e ≠ .thrown)
    (hs : select R rule (recordsOf R rule captures now) = .error e) :
    (evaluateSettlement R rule captures now false).answer = some (.unresolved, none) := by
  rw [evaluate_opened h, hs]
  cases e <;> first | rfl | exact absurd rfl he

def outcomeOf (rule : Rule) (i : Identity) : ℕ := if decides rule.decision i.value then 2 else 1

theorem answer_ready (h : Opened R rule captures now) {used : List Sourced} {selected : Sourced}
    (hs : select R rule (recordsOf R rule captures now) = .ok (used, selected)) :
    (evaluateSettlement R rule captures now false).answer =
      some (.ready, some (outcomeOf rule selected.record.identity)) := by
  rw [evaluate_opened h, hs]
  rfl

-- What is not opened is the same in every order, up to the issues of the captures.
theorem answer_not_opened {finalized : Bool} (h : ¬ (finalized = false ∧ Opened R rule captures now)) :
    (evaluateSettlement R rule captures now finalized).answer = some (
      if finalized then .terminal
      else if now ≥ rule.timing.observationEndsAt + rule.timing.assertionPeriod then .timeout
      else if now < rule.timing.observationEndsAt then .waiting
      else .unresolved, none) := by
  rw [evaluate_not_opened h]
  split_ifs <;> rfl

-- The captures can be ordered such that a record is read first.
theorem exists_perm_first (hs : s ∈ recordsOf R rule captures now) :
    ∃ captures' rest, captures'.Perm captures ∧ recordsOf R rule captures' now = s :: rest := by
  obtain ⟨c, hc, hle, hp⟩ := mem_recordsOf.mp hs
  obtain ⟨l₁, l₂, rfl⟩ := List.append_of_mem hc
  refine ⟨c :: (l₁ ++ l₂), recordsOf R rule (l₁ ++ l₂) now, List.perm_middle.symm, ?_⟩
  have hpub := hp.publishedAt_le.trans hle
  rw [recordsOf, parsed, List.map_cons, parse_eq_ok.mpr ⟨hle, hp⟩, List.filterMap_cons]
  simp only [hpub, if_true]
  rfl

theorem insensitive_iff (hR : R.Collates) {finalized : Bool} : Insensitive R rule captures now finalized ↔
    (finalized = false → Opened R rule captures now → Comparable R rule (recordsOf R rule captures now)) := by
  constructor
  · rintro ⟨a, ha⟩ rfl ho
    have hne {captures' : List Capture} (hp : captures'.Perm captures) :
        select R rule (recordsOf R rule captures' now) ≠ .error .thrown := by
      intro hs
      have := ha captures' hp
      rw [evaluate_thrown (ho.perm hp.symm) hs] at this
      cases this
    refine ⟨fun s hs => ?_, fun hv hu initial hi s hs hk he links hl => ?_⟩
    · by_contra he
      refine hne .rfl ?_
      rw [select_eq, selectInitial_thrown.mpr ⟨s, hs, by simpa using he⟩]
      rfl
    · -- The permutation in which the record precedes all that are published at the same time.
      have ⟨captures', rest, hp, hrest⟩ := exists_perm_first hs
      have hm (b : Sourced) : b ∈ recordsOf R rule captures now ↔ b ∈ s :: rest := by
        rw [← hrest]
        exact (recordsOf_perm hp).mem_iff.symm
      have ht : Targeted rule (s :: rest) := hrest ▸ targeted_recordsOf
      refine hne hp ?_
      rw [hrest]
      refine select_thrown hR ht hv (hu.congr hm) ((Candidate.congr hm).mp hi) hk he (hl.congr fun b => ?_)
      rw [List.mem_filter, List.mem_filter, hm]
  · intro h
    by_cases ho : finalized = false ∧ Opened R rule captures now
    case neg =>
      refine ⟨_, fun captures' hp => answer_not_opened fun h' => ho ⟨h'.1, h'.2.perm hp⟩⟩
    case pos =>
      obtain ⟨rfl, ho⟩ := ho
      have hmem {captures' : List Capture} (hp : captures'.Perm captures) (s : Sourced) :
          s ∈ recordsOf R rule captures now ↔ s ∈ recordsOf R rule captures' now :=
        (recordsOf_perm hp).mem_iff.symm
      by_cases hd : ∃ i, Deciding rule (recordsOf R rule captures now) i
      · obtain ⟨i, hi⟩ := hd
        refine ⟨(.ready, some (outcomeOf rule i)), fun captures' hp => ?_⟩
        obtain ⟨used, selected, hs, rfl⟩ := exists_select hR targeted_recordsOf (hi.congr (hmem hp))
        exact answer_ready (ho.perm hp.symm) hs
      · refine ⟨(.unresolved, none), fun captures' hp => ?_⟩
        have hn := select_ne_thrown hR targeted_recordsOf ((h rfl ho).congr (hmem hp))
        cases hs : select R rule (recordsOf R rule captures' now)
        case error e => exact answer_unresolved (ho.perm hp.symm) (fun he => hn (he ▸ hs)) hs
        case ok r    =>
          have hi := @select_deciding _ _ _ targeted_recordsOf r.1 r.2 hs
          exact absurd ⟨_, hi.congr fun s => (hmem hp s).symm⟩ hd

end Answers

section Later

variable {p p' : Packet}

theorem ready_deciding (h : evaluateSettlement R rule captures now false = .ready p) :
    Opened R rule captures now ∧ ∃ i, Deciding rule (recordsOf R rule captures now) i ∧
      p.outcome = outcomeOf rule i ∧ p.measuredValue = i.value := by
  have ⟨_, ho, used, selected, hs, hp⟩ := evaluate_ready_iff.mp h
  subst hp
  exact ⟨ho, _, select_deciding targeted_recordsOf hs, rfl, rfl⟩

-- Captures are only added, and none of them is fetched before one that was there.
structure Grows (captures captures' : List Capture) : Prop where
  kept  : ∀ c ∈ captures, c ∈ captures'
  later : ∀ c' ∈ captures', c' ∉ captures → ∀ c ∈ captures, c.fetchedAt ≤ c'.fetchedAt

theorem recordsOf_mono (hsub : ∀ c ∈ captures, c ∈ captures') (ho : Opened R rule captures' now')
    (hs : s ∈ recordsOf R rule captures now) : s ∈ recordsOf R rule captures' now' := by
  obtain ⟨c, hc, -, hp⟩ := mem_recordsOf.mp hs
  exact mem_recordsOf.mpr ⟨c, hsub c hc, (ho.parsed c (hsub c hc)).1, hp⟩

-- A candidate remains one.
theorem Candidate.grows (hg : Grows captures captures') (ho : Opened R rule captures now)
    (ho' : Opened R rule captures' now') (hc : Candidate rule (recordsOf R rule captures now) s) :
    Candidate rule (recordsOf R rule captures' now') s := by
  obtain ⟨hs, hi, hg', hw⟩ := hc
  refine ⟨recordsOf_mono hg.kept ho' hs, hi, hg', fun hv => ?_⟩
  have ⟨hin, hmin⟩ := hw hv
  refine ⟨hin, fun s' hs' hi' hin' => ?_⟩
  obtain ⟨c', hc', -, hp'⟩ := mem_recordsOf.mp hs'
  by_cases hold : c' ∈ captures
  · exact hmin s' (mem_recordsOf.mpr ⟨c', hold, (ho.parsed c' hold).1, hp'⟩) hi' hin'
  · obtain ⟨c, hc, -, hp⟩ := mem_recordsOf.mp hs
    have := hg.later c' hc' hold c hc
    rwa [hp.source, hp'.source]

theorem Candidate.kept (hsub : ∀ c ∈ captures, c ∈ captures') (ho' : Opened R rule captures' now')
    (hv : rule.vintage ≠ .firstObservedSnapshot) (hc : Candidate rule (recordsOf R rule captures now) s) :
    Candidate rule (recordsOf R rule captures' now') s :=
  have ⟨hs, hi, hg, _⟩ := hc
  ⟨recordsOf_mono hsub ho' hs, hi, hg, fun h => absurd h hv⟩

theorem ready_kept (hv : rule.vintage ≠ .initialWithCorrections) (hg : Grows captures captures')
    (h : evaluateSettlement R rule captures now false = .ready p)
    (h' : evaluateSettlement R rule captures' now' false = .ready p') :
    p.outcome = p'.outcome ∧ p.measuredValue = p'.measuredValue := by
  obtain ⟨ho, i, ⟨-, s, hc, hi⟩, hp, hp'⟩ := ready_deciding h
  obtain ⟨ho', i', ⟨hu', s', hc', hi'⟩, hq, hq'⟩ := ready_deciding h'
  rw [if_neg hv] at hi hi'
  have he : i = i' := by rw [hi, hi', hu'.same _ _ (hc.grows hg ho ho') hc']
  rw [hp, hp', hq, hq', he]
  exact ⟨rfl, rfl⟩

theorem ready_corrected (hv : rule.vintage = .initialWithCorrections) (hsub : ∀ c ∈ captures, c ∈ captures')
    (hcorr : ∀ s' ∈ recordsOf R rule captures' now', isCorrection rule s' = true →
      ∃ s ∈ recordsOf R rule captures now, s.record = s'.record)
    (h : evaluateSettlement R rule captures now false = .ready p)
    (h' : evaluateSettlement R rule captures' now' false = .ready p') :
    p.outcome = p'.outcome ∧ p.measuredValue = p'.measuredValue := by
  obtain ⟨ho, i, ⟨-, s, hc, hi⟩, hp, hp'⟩ := ready_deciding h
  obtain ⟨ho', i', ⟨hu', s', hc', hi'⟩, hq, hq'⟩ := ready_deciding h'
  rw [if_pos hv] at hi hi'
  obtain ⟨-, links, hlast, hl⟩ := hi
  obtain ⟨-, links', hlast', hl'⟩ := hi'
  have hs : s.record.identity = s'.record.identity :=
    hu'.same _ _ (hc.kept hsub ho' (by simp [hv])) hc'
  -- Both chains consist of the same corrections.
  have hsame : Chained s.record.identity
      ((recordsOf R rule captures' now').filter (isCorrection rule)) links := by
    refine ⟨hl.1, fun i => (hl.2 i).trans ⟨fun ⟨b, hb, he⟩ => ?_, fun ⟨b, hb, he⟩ => ?_⟩⟩
    · rw [List.mem_filter] at hb
      exact ⟨b, List.mem_filter.mpr ⟨recordsOf_mono hsub ho' hb.1, hb.2⟩, he⟩
    · rw [List.mem_filter] at hb
      obtain ⟨a, ha, hab⟩ := hcorr b hb.1 hb.2
      refine ⟨a, List.mem_filter.mpr ⟨ha, ?_⟩, hab ▸ he⟩
      rw [isCorrection, hab]
      exact hb.2
  have he : i = i' := by
    rw [← hlast, ← hlast', ← hs]
    exact congrArg _ (hsame.unique (hs ▸ hl'))
  rw [hp, hp', hq, hq', he]
  exact ⟨rfl, rfl⟩

end Later

-- The order of the captures matters only if a record that cannot be encoded is compared. A ready answer stays.
theorem evaluation_settled_iff (hR : R.Collates) (rule : Rule) :
    (∀ captures now finalized, Insensitive R rule captures now finalized ↔
      (finalized = false → Opened R rule captures now → Comparable R rule (recordsOf R rule captures now))) ∧
    (∀ captures captures' now now' p p', rule.vintage ≠ .initialWithCorrections → Grows captures captures' →
      evaluateSettlement R rule captures now false = .ready p →
      evaluateSettlement R rule captures' now' false = .ready p' →
      p.outcome = p'.outcome ∧ p.measuredValue = p'.measuredValue) ∧
    (∀ captures captures' now now' p p', rule.vintage = .initialWithCorrections →
      (∀ c ∈ captures, c ∈ captures') →
      (∀ s' ∈ recordsOf R rule captures' now', isCorrection rule s' = true →
        ∃ s ∈ recordsOf R rule captures now, s.record = s'.record) →
      evaluateSettlement R rule captures now false = .ready p →
      evaluateSettlement R rule captures' now' false = .ready p' →
      p.outcome = p'.outcome ∧ p.measuredValue = p'.measuredValue) :=
  ⟨fun _ _ _ => insensitive_iff hR, fun _ _ _ _ _ _ hv hg h h' => ready_kept hv hg h h',
    fun _ _ _ _ _ _ hv hsub hcorr h h' => ready_corrected hv hsub hcorr h h'⟩

section Samples

open Readers.JsonRecord (Numbers Fields jsonRecord)

-- Numbers are kept as their texts, of which one is too large.
def sampleNumbers : Numbers Utf16 where
  parse t := t
  ofNat n := Utf16.ofString (toString n)
  write t := if t = Utf16.ofString "1e999" then none else some t
  safe t  := if t.all Json.isDigit then some (t.foldl (fun n c => 10 * n + (c.toNat - 0x30)) 0) else none

def sampleFields : Fields where
  id           := Utf16.ofString "/i"
  series       := Utf16.ofString "/s"
  period       := Utf16.ofString "/p"
  unit         := Utf16.ofString "/u"
  publishedAt  := Utf16.ofString "/t"
  kind         := Utf16.ofString "/k"
  value        := Utf16.ofString "/v"
  supersedesId := some (Utf16.ofString "/c")

def recordReaders : Readers := { sampleReaders with
  digest        := String.length
  acceptsType _ := (· = some "application/json")
  jsonRecord    := fun rule body => jsonRecord sampleNumbers sampleFields rule (Utf16.encode body) }

theorem recordReaders_collates : recordReaders.Collates where
  total        := by simpa [recordReaders, sampleReaders] using fun {a b : String} => String.le_total a b
  trans h h'   := by
    simp only [recordReaders, sampleReaders, decide_eq_true_eq] at *
    exact String.le_trans h h'

def correctedRule : Rule := { sampleRule with
  source  := ⟨"source", .jsonRecord, ["a"]⟩
  timing  := ⟨10, 20, 30, 30, 3600, 3600, 3600⟩
  vintage := .initialWithCorrections }

theorem correctedRule_valid : correctedRule.Valid where
  urls_pos    := by decide
  urls_le     := by decide
  urls_nodup  := by decide
  decision    := ⟨by simp [correctedRule, sampleRule], fun _ => ⟨"1", rfl, rfl⟩, by simp [correctedRule, sampleRule]⟩
  timing      := ⟨by decide, by decide, rfl, by decide, by decide, by decide, by decide⟩
  corrections := fun h => absurd rfl h
  snapshot    := by simp [correctedRule, sampleRule]
  general     := by simp [correctedRule, sampleRule, Adapter.general]
  chain       := by simp [correctedRule, sampleRule]
  usgs        := by simp [correctedRule, sampleRule]

def documentOf (id at_ kind value corrects : String) : String :=
  "\x7b\"s\":\"series\",\"p\":\"period\",\"u\":\"unit\",\"i\":\"" ++ id ++ "\",\"t\":" ++ at_ ++
    ",\"k\":\"" ++ kind ++ "\",\"v\":" ++ value ++ ",\"c\":" ++ corrects ++ "\x7d"

def recordCapture (fetchedAt : ℕ) (body : String) : Capture where
  requestedUrl := "a"
  finalUrl     := "a"
  fetchedAt    := fetchedAt
  status       := 200
  contentType  := some "application/json"
  complete     := true
  bytes        := body.utf8ByteSize
  body         := body
  sha256       := body.length

def release : Capture := recordCapture 30 (documentOf "i" "12" "initial" "\"5\"" "null")

-- The number is too large to be written.
def hugeNotice : Capture := recordCapture 30 (documentOf "x" "15" "correction-notice" "1e999" "\"i\"")

def strayCorrection : Capture := recordCapture 30 (documentOf "x" "15" "correction" "\"6\"" "\"y\"")

-- A correction in force, and the release that is fetched once more.
def correction : Capture := recordCapture 30 (documentOf "x" "15" "correction" "\"6\"" "\"i\"")

def releasedAgain : Capture := { release with fetchedAt := 29 }

def sourcedOf (c : Capture) (r : Record) : Sourced :=
  ⟨r, c.requestedUrl, c.finalUrl, c.fetchedAt, c.sha256, c.bytes⟩

def releaseRecord : Sourced :=
  sourcedOf release ⟨"i", correctedRule.observation, .initial, .text "5", 12, none⟩

def noticeRecord : Sourced :=
  sourcedOf hugeNotice ⟨"x", correctedRule.observation, .correctionNotice, .other none, 15, some (.text "i")⟩

def strayRecord : Sourced :=
  sourcedOf strayCorrection ⟨"x", correctedRule.observation, .correction, .text "6", 15, some (.text "y")⟩

def correctionRecord : Sourced :=
  sourcedOf correction ⟨"x", correctedRule.observation, .correction, .text "6", 15, some (.text "i")⟩

theorem parse_recordCapture {t : ℕ} {body : String} {record : Record} (ht : t ≤ 30)
    (hsize : body.utf8ByteSize ≠ 0 ∧ body.utf8ByteSize ≤ 2000000)
    (hr : jsonRecord sampleNumbers sampleFields correctedRule (Utf16.encode body) = .ok record)
    (hk : checkRecord correctedRule (recordCapture t body) record = .ok ()) :
    parseSettlementCapture recordReaders correctedRule (recordCapture t body) 30 =
      .ok (sourcedOf (recordCapture t body) record) := by
  have hc : checkCapture recordReaders correctedRule (recordCapture t body) = .ok () := by
    simp [checkCapture, recordCapture, recordReaders, correctedRule, sampleRule, ensure, hsize]
  have ht' : validTime t := by simp only [validTime]; omega
  exact parse_eq_ok.mpr ⟨ht, ht', hc, hr, hk, rfl⟩

-- What the captures are read as.
theorem parse_samples :
    (parseSettlementCapture recordReaders correctedRule release 30 = .ok releaseRecord ∧
      parseSettlementCapture recordReaders correctedRule hugeNotice 30 = .ok noticeRecord) ∧
    parseSettlementCapture recordReaders correctedRule strayCorrection 30 = .ok strayRecord ∧
    parseSettlementCapture recordReaders correctedRule correction 30 = .ok correctionRecord := by
  refine ⟨⟨?_, ?_⟩, ?_, ?_⟩
  all_goals
    exact parse_recordCapture le_rfl (by decide +kernel) (by decide +kernel) (by decide +kernel)

theorem parse_release : parseSettlementCapture recordReaders correctedRule release 30 = .ok releaseRecord :=
  parse_samples.1.1

theorem parse_hugeNotice : parseSettlementCapture recordReaders correctedRule hugeNotice 30 = .ok noticeRecord :=
  parse_samples.1.2

theorem parse_strayCorrection :
    parseSettlementCapture recordReaders correctedRule strayCorrection 30 = .ok strayRecord := parse_samples.2.1

theorem parse_correction :
    parseSettlementCapture recordReaders correctedRule correction 30 = .ok correctionRecord := parse_samples.2.2

theorem opened_of_parsed {l : List Capture} (hl : l.length ≤ 100) (hc : covers correctedRule l = true)
    (hm : monitored correctedRule l = true)
    (hp : ∀ c ∈ l, ∃ s, parseSettlementCapture recordReaders correctedRule c 30 = .ok s) :
    Opened recordReaders correctedRule l 30 where
  started       := le_rfl
  running       := by decide
  size          := hl
  covered _     := hc
  monitored _ _ := hm
  parsed c h    := by
    have ⟨s, hs⟩ := hp c h
    exact ⟨(parse_eq_ok.mp hs).1, s, (parse_eq_ok.mp hs).2⟩

-- The corrections are applied as they come if they come in order.
theorem select_sorted (h : (records.filter (isCorrection rule)).Pairwise fun a b => publishedLe R a b = true) :
    select R rule records = (do
      let initial ← selectInitial rule records
      if rule.vintage = .initialWithCorrections then
        let c ← (records.filter (isCorrection rule)).foldlM correct (begin initial)
        if c.selected.record.kind = .correctionNotice then .error .correctionWithoutReplacement
        else .ok (c.used, c.selected)
      else .ok ([initial], initial)) := by
  rw [select_eq, correctionsOf_eq, List.mergeSort_of_pairwise h]

theorem evaluation_order_matters : correctedRule.Valid ∧ recordReaders.Collates ∧
    (evaluateSettlement recordReaders correctedRule [release, hugeNotice, strayCorrection] 30 false).answer = none ∧
    (evaluateSettlement recordReaders correctedRule [release, strayCorrection, hugeNotice] 30 false).answer =
      some (.unresolved, none) := by
  have hp : ∀ c ∈ [release, hugeNotice, strayCorrection],
      ∃ s, parseSettlementCapture recordReaders correctedRule c 30 = .ok s := by
    simp [parse_release, parse_hugeNotice, parse_strayCorrection]
  have ho : Opened recordReaders correctedRule [release, hugeNotice, strayCorrection] 30 :=
    opened_of_parsed (by decide) (by decide) (by decide) hp
  have h₁ : recordsOf recordReaders correctedRule [release, hugeNotice, strayCorrection] 30 =
      [releaseRecord, noticeRecord, strayRecord] := by
    rw [recordsOf, parsed]
    simp only [List.map_cons, parse_release, parse_hugeNotice, parse_strayCorrection]
    rfl
  have h₂ : recordsOf recordReaders correctedRule [release, strayCorrection, hugeNotice] 30 =
      [releaseRecord, strayRecord, noticeRecord] := by
    rw [recordsOf, parsed]
    simp only [List.map_cons, parse_release, parse_hugeNotice, parse_strayCorrection]
    rfl
  have hs₁ : select recordReaders correctedRule [releaseRecord, noticeRecord, strayRecord] = .error .thrown := by
    rw [select_sorted (by decide +kernel)]
    decide +kernel
  have hs₂ : select recordReaders correctedRule [releaseRecord, strayRecord, noticeRecord] =
      .error .correctionChainInvalid := by
    rw [select_sorted (by decide +kernel)]
    decide +kernel
  refine ⟨correctedRule_valid, recordReaders_collates, ?_, ?_⟩
  · rw [evaluate_thrown ho (h₁ ▸ hs₁)]
    rfl
  · exact answer_unresolved (ho.perm (.cons _ (.swap _ _ _))) (by decide) (h₂ ▸ hs₂)

-- A rule that the first of two captures settles.
def snapshotRule : Rule := { sampleRule with source := ⟨"source", .jsonApi, ["a"]⟩ }

def snapshotAt (fetchedAt : ℕ) : Capture := recordCapture fetchedAt "5"

def snapshotRecord (fetchedAt : ℕ) : Sourced :=
  sourcedOf (snapshotAt fetchedAt)
    ⟨"json-api.v1:f", snapshotRule.observation, .initial, .text "5", fetchedAt, none⟩

def againRecord : Sourced := sourcedOf releasedAgain releaseRecord.record

theorem parse_releasedAgain :
    parseSettlementCapture recordReaders correctedRule releasedAgain 30 = .ok againRecord := by
  have ⟨_, hp⟩ := parse_eq_ok.mp parse_release
  exact parse_eq_ok.mpr ⟨by decide, by decide, hp.checked, hp.read, by decide, rfl⟩

theorem ready_samples :
    (∃ p, evaluateSettlement recordReaders correctedRule [release, correction] 30 false = .ready p) ∧
    (∃ p, evaluateSettlement recordReaders correctedRule [correction, releasedAgain, release] 30 false = .ready p) ∧
    recordsOf recordReaders correctedRule [correction, releasedAgain, release] 30 =
      [correctionRecord, againRecord, releaseRecord] := by
  have ho : Opened recordReaders correctedRule [release, correction] 30 :=
    opened_of_parsed (by decide) (by decide) (by decide) (by simp [parse_release, parse_correction])
  have ho' : Opened recordReaders correctedRule [correction, releasedAgain, release] 30 :=
    opened_of_parsed (by decide) (by decide) (by decide)
      (by simp [parse_release, parse_correction, parse_releasedAgain])
  have hr : recordsOf recordReaders correctedRule [release, correction] 30 = [releaseRecord, correctionRecord] := by
    rw [recordsOf, parsed]
    simp only [List.map_cons, parse_release, parse_correction]
    rfl
  have hr' : recordsOf recordReaders correctedRule [correction, releasedAgain, release] 30 =
      [correctionRecord, againRecord, releaseRecord] := by
    rw [recordsOf, parsed]
    simp only [List.map_cons, parse_release, parse_correction, parse_releasedAgain]
    rfl
  refine ⟨⟨_, evaluate_ready_iff.mpr ⟨rfl, ho, [releaseRecord, correctionRecord], correctionRecord, ?_, rfl⟩⟩,
    ⟨_, evaluate_ready_iff.mpr ⟨rfl, ho', [againRecord, correctionRecord], correctionRecord, ?_, rfl⟩⟩, hr'⟩
  · rw [hr, select_sorted (by decide +kernel)]
    decide +kernel
  · rw [hr', select_sorted (by decide +kernel)]
    decide +kernel

theorem evaluation_settled_iff_corrected :
    (Insensitive recordReaders correctedRule [release, hugeNotice, strayCorrection] 30 false ↔
      (false = false → Opened recordReaders correctedRule [release, hugeNotice, strayCorrection] 30 →
        Comparable recordReaders correctedRule
          (recordsOf recordReaders correctedRule [release, hugeNotice, strayCorrection] 30))) ∧
    (∃ p p', evaluateSettlement recordReaders snapshotRule [snapshotAt 12] 30 false = .ready p ∧
      evaluateSettlement recordReaders snapshotRule [snapshotAt 12, snapshotAt 15] 31 false = .ready p' ∧
      p.outcome = p'.outcome ∧ p.measuredValue = p'.measuredValue) ∧
    ∃ p p', evaluateSettlement recordReaders correctedRule [release, correction] 30 false = .ready p ∧
      evaluateSettlement recordReaders correctedRule [correction, releasedAgain, release] 30 false = .ready p' ∧
      p.outcome = p'.outcome ∧ p.measuredValue = p'.measuredValue := by
  refine ⟨(evaluation_settled_iff recordReaders_collates correctedRule).1 _ _ _, ?_, ?_⟩
  · have hp : evaluateSettlement recordReaders snapshotRule [snapshotAt 12] 30 false =
        .ready (packetOf snapshotRule [snapshotAt 12] 30 [snapshotRecord 12] (snapshotRecord 12)) := by
      decide +kernel
    have hp' : evaluateSettlement recordReaders snapshotRule [snapshotAt 12, snapshotAt 15] 31 false =
        .ready (packetOf snapshotRule [snapshotAt 12, snapshotAt 15] 31 [snapshotRecord 12] (snapshotRecord 12)) := by
      decide +kernel
    exact ⟨_, _, hp, hp', (evaluation_settled_iff recordReaders_collates snapshotRule).2.1 _ _ _ _ _ _ (by decide)
      ⟨by decide, by decide⟩ hp hp'⟩
  · have ⟨⟨p, hp⟩, ⟨p', hp'⟩, hr⟩ := ready_samples
    refine ⟨p, p', hp, hp', (evaluation_settled_iff recordReaders_collates correctedRule).2.2 _ _ _ _ _ _ rfl
      (by simp) ?_ hp hp'⟩
    have hc : correctionRecord ∈ recordsOf recordReaders correctedRule [release, correction] 30 :=
      mem_recordsOf.mpr
        ⟨correction, List.mem_cons_of_mem _ List.mem_cons_self, le_rfl, (parse_eq_ok.mp parse_correction).2⟩
    rw [hr]
    simp only [List.forall_mem_cons]
    exact ⟨fun _ => ⟨_, hc, rfl⟩, fun h => (by cases h), fun h => (by cases h), by simp⟩

end Samples

end Settlement
