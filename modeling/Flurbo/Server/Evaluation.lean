import Flurbo.Server.SnapshotRetention

-- What an evaluation depends on: the set of the captures that could be read, and for corrections
-- the order that their publication gives them.

open Except

namespace Settlement

variable {R : Readers} {rule : Rule} {captures captures' : List Capture} {c : Capture} {now now' : ℕ}
variable {s s' : Sourced} {records records' : List Sourced}

section Records

theorem mem_recordsOf : s ∈ recordsOf R rule captures now ↔
    ∃ c ∈ captures, c.fetchedAt ≤ now ∧ Parsed R rule c s := by
  simp only [recordsOf, parsed, List.mem_filterMap, List.mem_map]
  constructor
  · rintro ⟨_, ⟨c, hc, he⟩, h⟩
    subst he
    cases hp : parseSettlementCapture R rule c now
    case error => simp [hp] at h
    case ok s' =>
      rw [hp] at h
      simp only [Option.ite_none_right_eq_some, Option.some.injEq] at h
      obtain ⟨_, rfl⟩ := h
      exact ⟨c, hc, parse_eq_ok.mp hp⟩
  · rintro ⟨c, hc, hle, hp⟩
    refine ⟨_, ⟨c, hc, parse_eq_ok.mpr ⟨hle, hp⟩⟩, ?_⟩
    have := hp.publishedAt_le.trans hle
    simp [this]

theorem recordsOf_perm (h : captures.Perm captures') :
    (recordsOf R rule captures now).Perm (recordsOf R rule captures' now) :=
  (h.map _).filterMap _

theorem issuesOf_eq_nil : issuesOf R rule captures now = [] ↔
    ∀ c ∈ captures, c.fetchedAt ≤ now ∧ ∃ s, Parsed R rule c s := by
  have hnil {l : List Issue} : l.dedup = [] ↔ l = [] := by
    simp only [List.eq_nil_iff_forall_not_mem, List.mem_dedup]
  rw [issuesOf, hnil, List.filterMap_eq_nil_iff, parsed, List.forall_mem_map]
  refine forall₂_congr fun c _ => ?_
  cases hp : parseSettlementCapture R rule c now
  case error e =>
    refine iff_of_false (by simp) fun h => ?_
    obtain ⟨hle, s, hs⟩ := h
    rw [parse_eq_ok.mpr ⟨hle, hs⟩] at hp
    cases hp
  case ok s    =>
    obtain ⟨hle, hs⟩ := parse_eq_ok.mp hp
    exact iff_of_true rfl ⟨hle, s, hs⟩

end Records

section Ready

-- What is checked before a record is selected.
structure Opened (R : Readers) (rule : Rule) (captures : List Capture) (now : ℕ) : Prop where
  started   : rule.timing.observationEndsAt ≤ now
  running   : now < rule.timing.observationEndsAt + rule.timing.assertionPeriod
  size      : captures.length ≤ 100
  covered   : captures ≠ [] → covers rule captures = true
  parsed    : ∀ c ∈ captures, c.fetchedAt ≤ now ∧ ∃ s, Parsed R rule c s
  monitored : recordsOf R rule captures now ≠ [] → rule.vintage = .initialWithCorrections →
    monitored rule captures = true

def packetOf (rule : Rule) (captures : List Capture) (now : ℕ) (used : List Sourced) (selected : Sourced) : Packet where
  rule             := rule
  evaluatedAt      := now
  outcome          := if decides rule.decision selected.record.value then 2 else 1
  selectedRecordId := selected.record.id
  measuredValue    := selected.record.value
  records          := used
  captures         := captures

theorem evaluate_opened (h : Opened R rule captures now) : evaluateSettlement R rule captures now false =
    match select R rule (recordsOf R rule captures now) with
    | .error .thrown       => .thrown
    | .error reason        => .unresolved reason
    | .ok (used, selected) => .ready (packetOf rule captures now used selected) := by
  have hi := issuesOf_eq_nil.mpr h.parsed
  have hcov : ¬ (captures ≠ [] ∧ (!covers rule captures) = true) := fun ⟨hn, hc⟩ => by
    rw [h.covered hn] at hc
    cases hc
  have hmon : ¬ (recordsOf R rule captures now ≠ [] ∧ rule.vintage = .initialWithCorrections ∧
      (!monitored rule captures) = true) := fun ⟨hn, hv, hm⟩ => by
    rw [h.monitored hn hv] at hm
    cases hm
  rw [evaluateSettlement]
  simp only [Bool.false_eq_true, if_false, if_neg h.running.not_ge, if_neg h.started.not_gt, if_neg h.size.not_gt,
    if_neg hcov, hi, ne_eq, not_true_eq_false, if_neg hmon]
  rfl

-- Every other evaluation is waiting, over, or unresolved for a reason of its own.
theorem evaluate_not_opened {finalized : Bool} (h : ¬ (finalized = false ∧ Opened R rule captures now)) :
    evaluateSettlement R rule captures now finalized =
      if finalized then .terminal
      else if now ≥ rule.timing.observationEndsAt + rule.timing.assertionPeriod then .timeout
      else if now < rule.timing.observationEndsAt then .waiting
      else .unresolved <|
        if captures.length > 100 then .captureSetInvalid
        else if captures ≠ [] ∧ !covers rule captures then .sourceCoverageMissing
        else if issuesOf R rule captures now ≠ [] then .sourceCaptureFailed (issuesOf R rule captures now)
        else .correctionMonitorStale := by
  rw [evaluateSettlement]
  simp only []
  split
  case isTrue => rfl
  case isFalse hf =>
    split
    case isTrue => rfl
    case isFalse hr =>
      split
      case isTrue => rfl
      case isFalse hs =>
        split
        case isTrue => rfl
        case isFalse hl =>
          split
          case isTrue => rfl
          case isFalse hc =>
            split
            case isTrue => rfl
            case isFalse hi =>
              split
              case isTrue => rfl
              case isFalse hm =>
                refine absurd ⟨by simpa using hf, ?_⟩ h
                exact {
                  started   := not_lt.mp hs
                  running   := not_le.mp hr
                  size      := not_lt.mp hl
                  covered   := fun hn => by simpa [hn] using hc
                  parsed    := issuesOf_eq_nil.mp (by simpa using hi)
                  monitored := fun hn hv => by simpa [hn, hv] using hm }

theorem evaluate_ready_iff {finalized : Bool} {p : Packet} :
    evaluateSettlement R rule captures now finalized = .ready p ↔ finalized = false ∧ Opened R rule captures now ∧
      ∃ used selected, select R rule (recordsOf R rule captures now) = .ok (used, selected) ∧
        p = packetOf rule captures now used selected := by
  by_cases h : finalized = false ∧ Opened R rule captures now
  · obtain ⟨rfl, ho⟩ := h
    rw [evaluate_opened ho, and_iff_right rfl, and_iff_right ho]
    constructor
    · intro he
      split at he
      case h_1                 => cases he
      case h_2                 => cases he
      case h_3 used selected h => exact ⟨used, selected, h, (Evaluation.ready.inj he).symm⟩
    · intro ⟨used, selected, hs, hp⟩
      rw [hs, hp]
  · rw [evaluate_not_opened h]
    refine iff_of_false ?_ fun ⟨hf, ho, _⟩ => h ⟨hf, ho⟩
    split_ifs <;> exact fun he => nomatch he

theorem covers_perm (h : captures.Perm captures') : covers rule captures = covers rule captures' := by
  rw [Bool.eq_iff_iff]
  simp only [covers, List.all_eq_true, List.any_eq_true, h.mem_iff]

theorem monitored_perm (h : captures.Perm captures') : monitored rule captures = monitored rule captures' := by
  rw [Bool.eq_iff_iff]
  simp only [monitored, List.all_eq_true, List.any_eq_true, h.mem_iff]

theorem Opened.perm (h : captures.Perm captures') (ho : Opened R rule captures now) :
    Opened R rule captures' now where
  started        := ho.started
  running        := ho.running
  size           := h.length_eq ▸ ho.size
  covered hn     := covers_perm h ▸ ho.covered fun he => hn (by rw [he] at h; exact h.nil_eq.symm)
  parsed c hc    := ho.parsed c (h.mem_iff.mpr hc)
  monitored hn hv := monitored_perm h ▸ ho.monitored (fun he => hn (by
    have hp := @recordsOf_perm R rule _ _ now h
    rw [he] at hp
    exact hp.nil_eq.symm)) hv

end Ready

section Initial

-- The initial records that the vintage of the rule admits.
def Candidate (rule : Rule) (records : List Sourced) (s : Sourced) : Prop :=
  s ∈ records ∧ isInitial rule s = true ∧
    (rule.source.adapter.general = true → rule.vintage = .initial →
      rule.timing.scheduledAt ≤ s.record.publishedAt) ∧
    (rule.vintage = .firstObservedSnapshot → inWindow rule s = true ∧
      ∀ s' ∈ records, isInitial rule s' = true → inWindow rule s' = true →
        s.provenance.fetchedAt ≤ s'.provenance.fetchedAt)

theorem Candidate.congr (h : ∀ s, s ∈ records ↔ s ∈ records') :
    Candidate rule records s ↔ Candidate rule records' s := by
  simp only [Candidate, h]

-- The candidates that the source collects, if it collects any.
theorem initialsOf_eq (rule : Rule) (records : List Sourced) :
    (∀ initials, initialsOf rule records = .ok initials → ∀ s, s ∈ initials ↔ Candidate rule records s) ∧
      ((∃ s, Candidate rule records s) → ∃ initials, initialsOf rule records = .ok initials) := by
  rw [initialsOf]
  simp only []
  split
  case isTrue hg =>
    -- A release of a general reader has to come after the observation window opens.
    have hmem (s : Sourced) : s ∈ (records.filter (isInitial rule)).filter
        (fun s => decide (rule.timing.scheduledAt ≤ s.record.publishedAt)) ↔ Candidate rule records s := by
      rw [List.mem_filter, List.mem_filter, decide_eq_true_iff, Candidate, and_assoc]
      exact ⟨fun h => ⟨h.1, h.2.1, fun _ _ => h.2.2, fun hn => by simp [hg.2] at hn⟩,
        fun h => ⟨h.1, h.2.1, h.2.2.1 hg.1 hg.2⟩⟩
    split
    case isTrue hl =>
      refine ⟨fun _ h => (by cases h), fun h => ?_⟩
      obtain ⟨s, hs⟩ := h
      have := (hmem s).mpr hs
      rw [hl.1] at this
      cases this
    case isFalse   => exact ⟨fun _ h => ok.inj h ▸ hmem, fun _ => ⟨_, rfl⟩⟩
  case isFalse hg =>
    have hg' (s : Sourced) : rule.source.adapter.general = true → rule.vintage = .initial →
        rule.timing.scheduledAt ≤ s.record.publishedAt := fun h h' => absurd ⟨h, h'⟩ hg
    split
    case isTrue hv =>
      have hmem (s : Sourced) : s ∈ ((records.filter (isInitial rule)).filter (inWindow rule)).filter
          (fun s => decide (some s.provenance.fetchedAt =
            (((records.filter (isInitial rule)).filter (inWindow rule)).map (·.provenance.fetchedAt)).min?)) ↔
          Candidate rule records s := by
        rw [List.mem_filter, decide_eq_true_iff, @eq_comm _ (some _), List.min?_eq_some_iff]
        simp only [List.mem_filter, List.mem_map, Candidate]
        constructor
        · rintro ⟨⟨⟨hr, hi⟩, hw⟩, _, hmin⟩
          exact ⟨hr, hi, hg' s, fun _ => ⟨hw, fun s' hr' hi' hw' => hmin _ ⟨s', ⟨⟨hr', hi'⟩, hw'⟩, rfl⟩⟩⟩
        · rintro ⟨hr, hi, _, hs⟩
          obtain ⟨hw, hmin⟩ := hs hv
          refine ⟨⟨⟨hr, hi⟩, hw⟩, ⟨s, ⟨⟨hr, hi⟩, hw⟩, rfl⟩, ?_⟩
          rintro _ ⟨s', ⟨⟨hr', hi'⟩, hw'⟩, rfl⟩
          exact hmin s' hr' hi' hw'
      split
      case h_1 he =>
        refine ⟨fun _ h => (by cases h), fun h => ?_⟩
        obtain ⟨s, hs⟩ := h
        have := (hmem s).mpr hs
        rw [he] at this
        cases this
      case h_2 => exact ⟨fun _ h => ok.inj h ▸ hmem, fun _ => ⟨_, rfl⟩⟩
    case isFalse hv =>
      have hmem (s : Sourced) : s ∈ records.filter (isInitial rule) ↔ Candidate rule records s := by
        rw [List.mem_filter, Candidate]
        exact ⟨fun h => ⟨h.1, h.2, hg' s, fun h => absurd h hv⟩, fun h => ⟨h.1, h.2.1⟩⟩
      exact ⟨fun _ h => ok.inj h ▸ hmem, fun _ => ⟨_, rfl⟩⟩

-- One identity that can be compared, and no cancellation.
structure Undisputed (rule : Rule) (records : List Sourced) : Prop where
  encodes    : ∀ s, Candidate rule records s → s.record.encodes = true
  same       : ∀ s s', Candidate rule records s → Candidate rule records s' → s.record.identity = s'.record.identity
  notCalled  : ∀ s ∈ records, isCancelled rule s = false

theorem Undisputed.congr (h : ∀ s, s ∈ records ↔ s ∈ records') (hu : Undisputed rule records) :
    Undisputed rule records' where
  encodes s hs      := hu.encodes s ((Candidate.congr h).mpr hs)
  same s s' hs hs'  := hu.same s s' ((Candidate.congr h).mpr hs) ((Candidate.congr h).mpr hs')
  notCalled s hs    := hu.notCalled s ((h s).mpr hs)

theorem selectInitial_eq_ok (h : selectInitial rule records = .ok s) :
    Candidate rule records s ∧ Undisputed rule records := by
  rw [selectInitial, bind_eq_ok] at h
  obtain ⟨initials, hi, h⟩ := h
  have hmem := (initialsOf_eq rule records).1 initials hi
  split at h
  case h_1 =>
    split at h
    · cases h
    · split at h <;> cases h
  case h_2 first others =>
    split at h
    case isTrue => cases h
    case isFalse he =>
      split at h
      case isTrue => cases h
      case isFalse hd =>
        split at h
        case isTrue => cases h
        case isFalse hc =>
          rw [Bool.not_eq_true, List.any_eq_false] at he hd hc
          rw [← ok.inj h]
          have hid (s : Sourced) (hs : Candidate rule records s) : s.record.identity = first.record.identity := by
            rcases List.mem_cons.mp ((hmem s).mpr hs) with rfl | hs
            · rfl
            · simpa using hd s hs
          refine ⟨(hmem first).mp List.mem_cons_self, fun s hs => ?_, fun s s' hs hs' => ?_, fun s hs => ?_⟩
          · simpa using he s ((hmem s).mpr hs)
          · rw [hid s hs, hid s' hs']
          · simpa using hc s hs

theorem selectInitial_of_undisputed (hs : Candidate rule records s) (hu : Undisputed rule records) :
    ∃ first, selectInitial rule records = .ok first := by
  have ⟨initials, hi⟩ := (initialsOf_eq rule records).2 ⟨s, hs⟩
  have hmem := (initialsOf_eq rule records).1 initials hi
  rw [selectInitial, hi, ok_bind]
  cases initials
  case nil              => exact absurd ((hmem s).mpr hs) (by simp)
  case cons first others =>
    have hf := (hmem first).mp List.mem_cons_self
    have he : ¬ ((first :: others).any (!·.record.encodes)) = true := by
      rw [Bool.not_eq_true, List.any_eq_false]
      intro s hs
      simp [hu.encodes s ((hmem s).mp hs)]
    have hd : ¬ (others.any (·.record.identity ≠ first.record.identity)) = true := by
      rw [Bool.not_eq_true, List.any_eq_false]
      intro s hs
      simp [hu.same s first ((hmem s).mp (List.mem_cons_of_mem _ hs)) hf]
    have hc : ¬ (records.any (isCancelled rule)) = true := by
      rw [Bool.not_eq_true, List.any_eq_false]
      intro s hs
      simp [hu.notCalled s hs]
    exact ⟨first, by simp only [if_neg he, if_neg hd, if_neg hc]; rfl⟩

-- It throws if some candidate cannot be compared.
theorem selectInitial_thrown : selectInitial rule records = .error .thrown ↔
    ∃ s, Candidate rule records s ∧ s.record.encodes = false := by
  have hne {e : Reason} (h : initialsOf rule records = .error e) : e ≠ .thrown := by
    rintro rfl
    rw [initialsOf] at h
    simp only [] at h
    split at h
    · split at h <;> cases h
    · split at h
      · split at h <;> cases h
      · cases h
  rw [selectInitial]
  cases hi : initialsOf rule records
  case error e =>
    rw [error_bind]
    refine iff_of_false (fun h => hne hi (error.inj h)) fun h => ?_
    obtain ⟨s, hs, _⟩ := h
    obtain ⟨_, h⟩ := (initialsOf_eq rule records).2 ⟨s, hs⟩
    rw [hi] at h
    cases h
  case ok initials =>
    have hmem := (initialsOf_eq rule records).1 initials hi
    rw [ok_bind]
    simp only [← hmem]
    split
    case h_1 =>
      refine iff_of_false ?_ (by simp)
      split
      · exact fun h => by cases h
      · split <;> exact fun h => by cases h
    case h_2 first others =>
      split
      case isTrue he =>
        rw [List.any_eq_true] at he
        exact iff_of_true rfl (by simpa using he)
      case isFalse he =>
        rw [Bool.not_eq_true, List.any_eq_false] at he
        refine iff_of_false ?_ fun h => he _ h.choose_spec.1 (by rw [h.choose_spec.2]; rfl)
        split
        · exact fun h => by cases h
        · split <;> exact fun h => by cases h

end Initial

end Settlement
