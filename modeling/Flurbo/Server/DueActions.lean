import Mathlib.Data.List.MinMax
import Flurbo.Server.SettlementCalendar

-- The plan, the calendar and the monitor agree on when an action is due.

open Except

namespace Resolution

-- The times of what is read are safe integers, as the publication of the rules requires of the latest ones.
structure Readable (s : State) : Prop where
  length_eq : s.cases.length = s.publication.observationEnds.length
  timestamp : s.timestamp ≤ maxSafeInteger
  ends_le   : ∀ ends ∈ s.publication.observationEnds, ends ≤ maxSafeInteger
  times_le  : ∀ c ∈ s.cases,
    c.assertionDeadline ≤ maxSafeInteger ∧ c.challengeUntil ≤ maxSafeInteger ∧ c.voteUntil ≤ maxSafeInteger

-- A resolver adds the period of assertion to the ends of observation that it is deployed with.
def Ordered (s : State) : Prop := ∀ p ∈ s.cases.zip s.publication.observationEnds, p.2 ≤ p.1.assertionDeadline

-- The action that an entry of the calendar stands for.
def Action.key : Action → Option (EntryAction × Option ℕ)
  | .complete | .wait => none
  | .deliver          => some (.deliver, none)
  | .finalize event   => some (.finalize, some event)
  | .evidence event   => some (.evidence, some event)

def CalendarEntry.key (e : CalendarEntry) : EntryAction × Option ℕ := (e.action, e.event)

variable {s : State} {c : Case} {ends event now t owner : ℕ} {owned : Journal} {evidence : Bool}
  {mode : String} {row : (Case × ℕ) × ℕ} {calendar : Calendar} {calendars : List Calendar}
  {whose : Option ℕ} {journal : Option Journal} {a : Action} {deferred : ℕ → Option ℕ}

section Rows

theorem mem_rows : row ∈ s.rows → row.1 ∈ s.cases.zip s.publication.observationEnds := fun h =>
  List.mem_of_getElem? (List.mem_zipIdx_iff_getElem?.mp h)

-- The entries of a case, if all of its times are safe.
def entriesOf (whose : Option ℕ) (journal : Option Journal) (evidence : Bool) (mode : String) :
    (Case × ℕ) × ℕ → List CalendarEntry
  | ((c, ends), event) =>
    match c.phase with
    | .finalized => []
    | .pending   =>
      (if evidence && !rehearsed mode event then [⟨.evidence, some event, ends, some c.assertionDeadline⟩] else []) ++
        [⟨.finalize, some event, c.assertionDeadline, none⟩]
    | .asserted  =>
      if whose = some c.asserter ∧ journal.all (journaled · event c) then
        [⟨.finalize, some event, c.challengeUntil, none⟩]
      else
        []
    | .disputed  => [⟨.finalize, some event, c.voteUntil, none⟩]

theorem time_eq {n : ℕ} (h : n ≤ maxSafeInteger) : time n = some n := if_pos h

theorem caseEntries_eq (hd : Readable s) (h : row ∈ s.rows) :
    caseEntries whose journal evidence mode row = some (entriesOf whose journal evidence mode row) := by
  obtain ⟨⟨c, ends⟩, event⟩ := row
  have hm := mem_rows h
  have ⟨ha, hc, hv⟩ := hd.times_le c (List.of_mem_zip hm).1
  have he := hd.ends_le ends (List.of_mem_zip hm).2
  simp only [caseEntries, entriesOf]
  cases c.phase
  case pending =>
    simp only [time_eq ha, time_eq he]
    cases evidence && !rehearsed mode event <;> rfl
  case asserted =>
    simp only [time_eq hc]
    split <;> rfl
  case disputed  => simp only [time_eq hv]; rfl
  case finalized => rfl

theorem caseWatch_isSome (hd : Readable s) (h : row ∈ s.rows) :
    (caseWatch whose t row).isSome := by
  obtain ⟨⟨c, ends⟩, event⟩ := row
  have hm := mem_rows h
  have ⟨ha, hc, hv⟩ := hd.times_le c (List.of_mem_zip hm).1
  have he := hd.ends_le ends (List.of_mem_zip hm).2
  simp only [caseWatch]
  cases c.phase
  case pending =>
    simp only [time_eq ha, time_eq he]
    by_cases ht : t ≥ ends <;> simp [ht]
  case asserted  => simp [time_eq hc]
  case disputed  => simp [time_eq hv]
  case finalized => rfl

-- The planned action of a case is its entry that is due, if any is.
theorem caseAction_iff (k : EntryAction × Option ℕ) :
    (∃ a, caseAction owner owned (fun _ => none) evidence mode now row = some a ∧ a.key = some k) ↔
      ∃ e ∈ entriesOf (some owner) (some owned) evidence mode row, e.due now ∧ e.key = k := by
  obtain ⟨⟨c, ends⟩, event⟩ := row
  simp only [caseAction, entriesOf]
  cases hp : c.phase
  case finalized => simp
  case disputed =>
    by_cases h : now ≥ c.voteUntil <;> simp_all [Action.key, CalendarEntry.key, CalendarEntry.due]
  case asserted =>
    have hm : (owner = c.asserter ∧ journaled owned event c) ↔ (c.asserter = owner ∧ journaled owned event c) := by
      rw [eq_comm]
    by_cases h : now ≥ c.challengeUntil <;> by_cases hw : c.asserter = owner ∧ journaled owned event c <;>
      simp [h, hm, hw, Action.key, CalendarEntry.key, CalendarEntry.due]
  case pending =>
    by_cases h : now ≥ c.assertionDeadline
    · have hlate : c.assertionDeadline ≤ now := h
      cases evidence && !rehearsed mode event <;>
        simp [hlate, Action.key, CalendarEntry.key, CalendarEntry.due]
    · have hlt : now < c.assertionDeadline := not_le.mp h
      cases evidence <;> cases hr : rehearsed mode event <;> by_cases he : ends ≤ now <;>
        simp [h, hlt, he, Action.key, CalendarEntry.key, CalendarEntry.due]

end Rows

section Entries

theorem mapM_some {α β : Type*} {f : α → Option β} {g : α → β} {l : List α} (h : ∀ x ∈ l, f x = some (g x)) :
    l.mapM f = some (l.map g) := by
  induction l
  case nil          => rfl
  case cons x l hi  =>
    have ⟨hx, hl⟩ := List.forall_mem_cons.mp h
    rw [List.mapM_cons, hx, hi hl]
    rfl

def allEntries (whose : Option ℕ) (journal : Option Journal) (evidence : Bool) (s : State) : List CalendarEntry :=
  if s.delivered then []
  else (if s.cases.all (·.phase = .finalized) then [⟨.deliver, none, 0, none⟩] else []) ++
    s.rows.flatMap (entriesOf whose journal evidence s.publication.mode)

theorem settlementCalendar_eq (hd : Readable s) :
    ∃ calendar, settlementCalendar whose journal evidence s = some calendar ∧
      calendar.entries = allEntries whose journal evidence s := by
  have hw : s.rows.mapM (caseWatch whose s.timestamp) =
      some (s.rows.map fun row => (caseWatch whose s.timestamp row).getD []) := by
    refine mapM_some fun row hr => ?_
    obtain ⟨l, hl⟩ := Option.isSome_iff_exists.mp (@caseWatch_isSome _ s.timestamp _ whose hd hr)
    rw [hl, Option.getD_some]
  have he : s.rows.mapM (caseEntries whose journal evidence s.publication.mode) =
      some (s.rows.map (entriesOf whose journal evidence s.publication.mode)) :=
    mapM_some fun row hr => caseEntries_eq hd hr
  simp only [settlementCalendar, allEntries, if_neg (not_not.mpr hd.length_eq), time_eq hd.timestamp,
    Option.bind_eq_bind, Option.bind_some]
  by_cases hs : s.delivered
  · rw [if_pos hs, if_pos hs]
    exact ⟨_, rfl, rfl⟩
  · rw [if_neg hs, if_neg hs, hw, he]
    exact ⟨_, rfl, by rw [List.flatMap_def]⟩

theorem mem_entriesOf (hd : Ordered s) (hr : row ∈ s.rows) {e : CalendarEntry}
    (he : e ∈ entriesOf whose journal evidence mode row) (d : ℕ) (h : e.deadline = some d) :
    e.readyAt ≤ d ∧ ∃ e' ∈ entriesOf whose journal evidence mode row, e'.readyAt = d ∧ e'.deadline = none := by
  obtain ⟨⟨c, ends⟩, event⟩ := row
  have hp := hd _ (mem_rows hr)
  simp only [entriesOf] at he ⊢
  cases hphase : c.phase <;> simp only [hphase] at he
  case finalized => simp at he
  case asserted =>
    split at he
    · rw [List.mem_singleton.mp he] at h
      cases h
    · simp at he
  case disputed =>
    rw [List.mem_singleton.mp he] at h
    cases h
  case pending =>
    rcases List.mem_append.mp he with he | he
    · split at he
      · rw [List.mem_singleton.mp he] at h ⊢
        cases h
        refine ⟨hp, ⟨.finalize, some event, c.assertionDeadline, none⟩, ?_, rfl, rfl⟩
        exact List.mem_append_right _ (List.mem_singleton_self _)
      · simp at he
    · rw [List.mem_singleton.mp he] at h
      cases h

-- An entry that ends is followed by one that does not.
theorem mem_allEntries (hd : Ordered s) {e : CalendarEntry}
    (he : e ∈ allEntries whose journal evidence s) (d : ℕ) (h : e.deadline = some d) :
    e.readyAt ≤ d ∧ ∃ e' ∈ allEntries whose journal evidence s, e'.readyAt = d ∧ e'.deadline = none := by
  unfold allEntries at he ⊢
  split at he
  case isTrue     => simp at he
  case isFalse hn =>
    rw [if_neg hn]
    rcases List.mem_append.mp he with he | he
    · split at he
      · rw [List.mem_singleton.mp he] at h
        cases h
      · simp at he
    · obtain ⟨row, hr, he⟩ := List.mem_flatMap.mp he
      obtain ⟨hle, e', he', hd'⟩ := mem_entriesOf hd hr he d h
      exact ⟨hle, e', List.mem_append_right _ (List.mem_flatMap.mpr ⟨row, hr, he'⟩), hd'⟩

end Entries

section Plans

variable {calendar : Calendar}

def Action.idle (a : Action) : Prop := a = .wait ∨ a = .complete

theorem key_eq_none : a.key = none ↔ a.idle := by
  cases a <;> simp [Action.key, Action.idle]

-- A plan of some action is an entry that is due, and a plan of none means that no entry is.
theorem plan_spec (hc : s.requiredCollateral ≤ s.poolCash) :
    ∃ a, nextResolutionAction owner owned (fun _ => none) evidence s = .ok a ∧
      (a.idle ↔ (allEntries (some owner) (some owned) evidence s).filter (·.due s.timestamp) = []) ∧
      (a.idle ∨ ∃ e ∈ (allEntries (some owner) (some owned) evidence s).filter (·.due s.timestamp),
        a.key = some e.key) := by
  unfold nextResolutionAction allEntries
  by_cases hs : s.delivered
  · exact ⟨.complete, if_pos hs, by simp [hs, Action.idle], .inl (.inr rfl)⟩
  rw [if_neg hs, if_neg hs, if_neg (not_lt.mpr hc)]
  by_cases hf : s.cases.all (·.phase = .finalized)
  · rw [if_pos hf, if_pos hf]
    have hdue : CalendarEntry.due ⟨.deliver, none, 0, none⟩ s.timestamp := by simp [CalendarEntry.due]
    have hm (l : List CalendarEntry) : CalendarEntry.mk .deliver none 0 none ∈
        ([CalendarEntry.mk .deliver none 0 none] ++ l).filter fun e => e.due s.timestamp :=
      List.mem_filter.mpr ⟨List.mem_append_left _ (List.mem_singleton_self _), hdue⟩
    exact ⟨.deliver, rfl, iff_of_false (by simp [Action.idle]) (List.ne_nil_of_mem (hm _)), .inr ⟨_, hm _, rfl⟩⟩
  · rw [if_neg hf, if_neg hf, List.nil_append]
    refine ⟨_, rfl, ?_⟩
    cases hp : s.rows.findSome? (caseAction owner owned (fun _ => none) evidence s.publication.mode s.timestamp)
    case none =>
      have hidle : (Option.getD none Action.wait).idle := .inl rfl
      refine ⟨iff_of_true hidle ?_, .inl hidle⟩
      refine List.filter_eq_nil_iff.mpr fun e he hdue => ?_
      obtain ⟨row, hr, he⟩ := List.mem_flatMap.mp he
      obtain ⟨a, ha, _⟩ := (@caseAction_iff _ owner _ _ _ _ e.key).mpr ⟨e, he, hdue, rfl⟩
      rw [List.findSome?_eq_none_iff.mp hp row hr] at ha
      cases ha
    case some a =>
      obtain ⟨row, hr, ha⟩ := List.exists_of_findSome?_eq_some hp
      have hk : ∃ k, a.key = some k := by
        obtain ⟨⟨c, ends⟩, event⟩ := row
        simp only [caseAction] at ha
        split_ifs at ha <;> cases ha <;> exact ⟨_, rfl⟩
      obtain ⟨k, hk⟩ := hk
      obtain ⟨e, he, hdue, rfl⟩ := (caseAction_iff k).mp ⟨a, ha, hk⟩
      have hm : e ∈ (s.rows.flatMap (entriesOf (some owner) (some owned) evidence s.publication.mode)).filter
          (·.due s.timestamp) := List.mem_filter.mpr ⟨List.mem_flatMap.mpr ⟨row, hr, he⟩, hdue⟩
      refine ⟨iff_of_false ?_ (List.ne_nil_of_mem hm), .inr ⟨e, hm, hk⟩⟩
      rw [Option.getD_some, ← key_eq_none, hk]
      simp

end Plans

section Wakes

-- The entries that become due at a time.
def Gains (calendar : Calendar) (t : ℕ) : Prop :=
  ∃ e ∈ dueEntries calendar t, e ∉ dueEntries calendar (t - 1)

theorem mem_dueEntries {e : CalendarEntry} : e ∈ dueEntries calendar t ↔ e ∈ calendar.entries ∧ e.due t :=
  List.mem_filter

theorem due_iff {e : CalendarEntry} : e.due t ↔ e.readyAt ≤ t ∧ ∀ d, e.deadline = some d → t < d := by
  rw [CalendarEntry.due, Bool.and_eq_true, decide_eq_true_iff]
  cases e.deadline <;> simp

theorem gains_iff (hd : Ordered s) (he : calendar.entries = allEntries whose journal evidence s)
    (ht : 0 < t) : Gains calendar t ↔ ∃ e ∈ calendar.entries, e.readyAt = t := by
  simp only [Gains, mem_dueEntries, due_iff]
  constructor
  · rintro ⟨e, ⟨hm, hready, hdead⟩, hnot⟩
    refine ⟨e, hm, le_antisymm hready ?_⟩
    by_contra hlt
    exact hnot ⟨hm, by omega, fun d hd => by have := hdead d hd; omega⟩
  · rintro ⟨e, hm, hready⟩
    -- An entry that has ended when it gets ready is followed by another one at that time.
    obtain ⟨e', hm', hready', hdead'⟩ : ∃ e' ∈ calendar.entries, e'.readyAt = t ∧ ∀ d, e'.deadline = some d → t < d := by
      cases hdead : e.deadline
      case none   => exact ⟨e, hm, hready, by simp [hdead]⟩
      case some d =>
        obtain ⟨hle, e', hm', hr', hn⟩ := mem_allEntries hd (he ▸ hm) d hdead
        by_cases hlt : t < d
        · refine ⟨e, hm, hready, fun d' hd' => ?_⟩
          rw [hdead] at hd'
          exact Option.some.inj hd' ▸ hlt
        · exact ⟨e', he ▸ hm', by omega, by simp [hn]⟩
    exact ⟨e', ⟨hm', hready'.le, hdead'⟩, fun ⟨_, hr, _⟩ => by omega⟩

theorem nextWake_eq_some {w : ℕ} : nextWake calendars now = some w ↔
    IsLeast {t | now < t ∧ ∃ c ∈ calendars, ∃ e ∈ c.entries, e.readyAt = t} w := by
  have hm (t : ℕ) : t ∈ (calendars.flatMap fun c => c.entries.map (·.readyAt)).filter (· > now) ↔
      now < t ∧ ∃ c ∈ calendars, ∃ e ∈ c.entries, e.readyAt = t := by
    simp [List.mem_filter, and_comm]
  rw [nextWake, List.min?_eq_some_iff]
  constructor
  · exact fun ⟨h, hle⟩ => ⟨(hm w).mp h, fun t ht => hle t ((hm t).mpr ht)⟩
  · exact fun ⟨h, hle⟩ => ⟨(hm w).mpr h, fun t ht => hle ((hm t).mp ht)⟩

theorem nextWake_eq_none : nextWake calendars now = none ↔
    ¬ ∃ t, now < t ∧ ∃ c ∈ calendars, ∃ e ∈ c.entries, e.readyAt = t := by
  rw [nextWake, List.min?_eq_none_iff, List.filter_eq_nil_iff]
  simp
  grind

end Wakes

section Skips

variable {m : Monitored} {report : Report} {seen : Seen} {clock checked : ℕ}

-- What a report says about the state that it is made from.
structure Reports (m : Monitored) (report : Report) : Prop where
  length_eq : m.timing.observationEnds.length = m.cases.length
  settled   : report.lifecycle = .settled ↔ m.delivered
  timestamp : report.timestamp = m.timestamp
  recent    : m.timestamp ≤ report.checkedAt + 15
  timing    : report.timing = m.timing
  phases    : ∀ e ∈ report.events, ∃ c ∈ m.cases, e.phase = c.phase
  events    : ∀ c ends event, ((c, ends), event) ∈ (m.cases.zip m.timing.observationEnds).zipIdx →
    ends ≤ c.assertionDeadline ∧ ∃ e ∈ report.events, e.event = event ∧ e.phase = c.phase ∧
      (c.phase = .asserted → e.deadline = some c.challengeUntil) ∧ (c.phase = .disputed → e.deadline = some c.voteUntil)

theorem time_eq_some {n k : ℕ} (h : time n = some k) : k = n := by
  unfold time at h
  split at h
  · exact (Option.some.inj h).symm
  · cases h

theorem reportEvent_spec {timing : Timing} {e : ReportEvent} (h : reportEvent timing t ((c, ends), event) = some e) :
    ends ≤ c.assertionDeadline ∧ e.event = event ∧ e.phase = c.phase ∧
      (c.phase = .asserted → e.deadline = some c.challengeUntil) ∧
      (c.phase = .disputed → e.deadline = some c.voteUntil) := by
  simp only [reportEvent, Option.bind_eq_bind, Option.bind_eq_some_iff] at h
  obtain ⟨_, he, _, ha, _, hc, _, hv, h⟩ := h
  rw [time_eq_some he, time_eq_some ha, time_eq_some hc, time_eq_some hv] at h
  split at h
  case isTrue       => cases h
  case isFalse hnot =>
    cases h
    rw [not_or, not_or, not_not] at hnot
    refine ⟨by omega, rfl, rfl, fun hp => ?_, fun hp => ?_⟩ <;> simp [hp]

theorem mapM_mem {α β : Type*} {f : α → Option β} {l : List α} {ys : List β} (h : l.mapM f = some ys) :
    (∀ x ∈ l, ∃ y ∈ ys, f x = some y) ∧ ∀ y ∈ ys, ∃ x ∈ l, f x = some y := by
  induction l generalizing ys
  case nil         =>
    cases h
    simp
  case cons x l hi =>
    rw [List.mapM_cons] at h
    simp only [Option.bind_eq_bind, Option.bind_eq_some_iff, Option.pure_def, Option.some.injEq] at h
    obtain ⟨y, hy, zs, hz, rfl⟩ := h
    obtain ⟨hl, hr⟩ := hi hz
    refine ⟨List.forall_mem_cons.mpr ⟨⟨y, by simp, hy⟩, fun x' hx' => ?_⟩,
      List.forall_mem_cons.mpr ⟨⟨x, by simp, hy⟩, fun y' hy' => ?_⟩⟩
    · obtain ⟨z, hz, hf⟩ := hl x' hx'
      exact ⟨z, List.mem_cons_of_mem _ hz, hf⟩
    · obtain ⟨z, hz, hf⟩ := hr y' hy'
      exact ⟨z, List.mem_cons_of_mem _ hz, hf⟩

theorem settlementReport_spec (h : settlementReport m checked = some report) : Reports m report := by
  simp only [settlementReport, Option.bind_eq_bind, Option.bind_eq_some_iff] at h
  obtain ⟨ch, hch, ct, hct, h⟩ := h
  rw [time_eq_some hch, time_eq_some hct] at h
  split at h
  case isTrue => cases h
  case isFalse hfresh =>
    split at h
    case isTrue => cases h
    case isFalse hlen =>
      simp only [Option.bind_eq_some_iff] at h
      obtain ⟨closes, _, events, hev, h⟩ := h
      split at h
      case isTrue => cases h
      case isFalse hfinal =>
        cases h
        simp only [not_or, not_not] at hlen
        obtain ⟨hleft, hright⟩ := mapM_mem hev
        refine ⟨hlen.2.1, ?_, rfl, by dsimp only; omega, rfl, fun e he => ?_, fun c ends event hrow => ?_⟩
        · by_cases hdel : m.delivered
          · simp [hdel]
          · simp only [hdel]
            by_cases hopen : m.timestamp < closes <;> simp [hopen]
        · obtain ⟨⟨⟨c, ends⟩, event⟩, hrow, hevent⟩ := hright e he
          have hzip := List.mem_of_getElem? (List.mem_zipIdx_iff_getElem?.mp hrow)
          exact ⟨c, (List.of_mem_zip hzip).1, (reportEvent_spec hevent).2.2.1⟩
        · obtain ⟨e, he, hevent⟩ := hleft _ hrow
          obtain ⟨hle, hspec⟩ := reportEvent_spec hevent
          exact ⟨hle, e, he, hspec⟩

-- How long the checks that are skipped leave alone.
theorem skipped_spec (h : skipCheck seen clock ∨ isIdle seen clock) :
    seen.nextDueAt = some .none ∨
      ∃ d, seen.nextDueAt = some (.time d) ∧ clock + 300 < d ∧ seen.checkedAt ≤ clock := by
  unfold skipCheck isIdle dueSoonSeconds at h
  cases hd : seen.nextDueAt
  case none     => simp [hd] at h
  case some due =>
    cases due
    case none   => exact .inl rfl
    case time d =>
      refine .inr ⟨d, rfl, ?_⟩
      simp only [hd, Bool.and_eq_true, decide_eq_true_iff] at h
      rcases h with ⟨⟨hd, _⟩, hc⟩ | h
      · exact ⟨by omega, hc⟩
      · split at h
        case isTrue     => cases h
        case isFalse hc =>
          simp only [Bool.or_eq_true, decide_eq_true_iff, not_or] at hc h
          exact ⟨by omega, by omega⟩

-- A case is not acted on before the time at which the monitor expects something of it.
theorem caseAction_early (hd : t < c.challengeUntil ∨ c.phase ≠ .asserted) (hv : t < c.voteUntil ∨ c.phase ≠ .disputed)
    (hp : t < ends ∧ ends ≤ c.assertionDeadline ∨ c.phase ≠ .pending) :
    caseAction owner owned deferred evidence mode t ((c, ends), event) = none := by
  have h₁ : ¬ (c.phase = .pending ∧ t ≥ c.assertionDeadline ∨ c.phase = .disputed ∧ t ≥ c.voteUntil) := by
    rintro (⟨h, ht⟩ | ⟨h, ht⟩)
    · have := hp.resolve_right (not_not.mpr h)
      omega
    · exact absurd (hv.resolve_right (not_not.mpr h)) (not_lt.mpr ht)
  have h₂ : ¬ (c.phase = .asserted ∧ t ≥ c.challengeUntil ∧ c.asserter = owner ∧ journaled owned event c) :=
    fun ⟨h, ht, _⟩ => absurd (hd.resolve_right (not_not.mpr h)) (not_lt.mpr ht)
  have h₃ : ¬ (evidence ∧ c.phase = .pending ∧ t ≥ ends ∧ ¬ (deferred event).any (· > t)) :=
    fun ⟨_, h, ht, _⟩ => absurd (hp.resolve_right (not_not.mpr h)).1 (not_lt.mpr ht)
  simp only [caseAction, if_neg h₁, if_neg h₂, if_neg h₃, ite_self]

-- No open event is expected before the time at which the monitor expects something.
theorem nextDueAt_spec {d : ℕ} (hl : report.lifecycle ≠ .settled) (h : nextDueAt report = .time d)
    (hd : report.timestamp < d) :
    (∃ e ∈ report.events, e.phase ≠ .finalized) ∧ ∀ e ∈ report.events, e.phase ≠ .finalized →
      d ≤ if e.phase = .pending then report.timing.observationEnds.getD e.event 0 else e.deadline.getD 0 := by
  rw [nextDueAt, if_neg hl] at h
  simp only [Due.time.injEq] at h
  cases hm : ((report.events.filter (·.phase ≠ .finalized)).map fun e =>
      if e.phase = .pending then max report.timestamp (report.timing.observationEnds.getD e.event 0)
      else max report.timestamp (e.deadline.getD 0)).min?
  case none   =>
    rw [hm, Option.getD_none] at h
    omega
  case some w =>
    rw [hm, Option.getD_some] at h
    obtain ⟨hmem, hle⟩ := List.min?_eq_some_iff.mp hm
    obtain ⟨e, he, _⟩ := List.mem_map.mp hmem
    obtain ⟨he, hopen⟩ := List.mem_filter.mp he
    refine ⟨⟨e, he, by simpa using hopen⟩, fun e he hopen => ?_⟩
    have := hle _ (List.mem_map_of_mem (List.mem_filter.mpr ⟨he, by simpa using hopen⟩))
    split at this
    case isTrue hp  => rw [if_pos hp]; omega
    case isFalse hp => rw [if_neg hp]; omega

-- While a pool is skipped, there is nothing to do on it.
theorem skipped_idle (hr : settlementReport m checked = some report)
    (hpub : m.timing.observationEnds = m.publication.observationEnds)
    (hnext : seen.nextDueAt = some (nextDueAt report)) (hseen : report.checkedAt ≤ seen.checkedAt)
    (hskip : skipCheck seen clock ∨ isIdle seen clock) (ht : t ≤ clock + 300)
    (ha : nextResolutionAction owner owned deferred evidence { m.toState with timestamp := t } = .ok a) : a.idle := by
  have hrep := settlementReport_spec hr
  unfold nextResolutionAction at ha
  by_cases hs : m.delivered
  · rw [if_pos hs] at ha
    exact .inr (ok.inj ha).symm
  have hl : report.lifecycle ≠ .settled := mt hrep.settled.mp hs
  obtain ⟨d, hdue, hlate, hclock⟩ : ∃ d, nextDueAt report = .time d ∧ clock + 300 < d ∧ seen.checkedAt ≤ clock := by
    rcases skipped_spec hskip with hn | ⟨d, hn, hlate, hclock⟩
    · rw [hnext, nextDueAt, if_neg hl] at hn
      cases hn
    · exact ⟨d, Option.some.inj (hnext.symm.trans hn), hlate, hclock⟩
  have hrecent := hrep.recent
  have hstamp := hrep.timestamp
  obtain ⟨⟨e, he, hopen⟩, hall⟩ := nextDueAt_spec hl hdue (by omega)
  rw [if_neg hs] at ha
  split at ha
  case isTrue => cases ha
  case isFalse =>
    have hnone : ∀ row ∈ State.rows { m.toState with timestamp := t },
        caseAction owner owned deferred evidence m.publication.mode t row = none := by
      rintro ⟨⟨c, ends⟩, event⟩ hrow
      obtain ⟨hperiod, e, he, hevent, hphase, hasserted, hdisputed⟩ := hrep.events c ends event (by rw [hpub]; exact hrow)
      have hends : report.timing.observationEnds.getD event 0 = ends := by
        have hget := List.mem_zipIdx_iff_getElem?.mp hrow
        obtain ⟨_, hget⟩ := List.getElem?_zip_eq_some.mp hget
        rw [hrep.timing, hpub, List.getD_eq_getElem?_getD, hget, Option.getD_some]
      have hle (hne : c.phase ≠ .finalized) := hall e he (hphase ▸ hne)
      rw [hevent, hends, hphase] at hle
      refine caseAction_early ?_ ?_ ?_
      · by_cases hp : c.phase = .asserted
        · have := hle (by simp [hp])
          rw [if_neg (by simp [hp]), hasserted hp, Option.getD_some] at this
          exact .inl (by omega)
        · exact .inr hp
      · by_cases hp : c.phase = .disputed
        · have := hle (by simp [hp])
          rw [if_neg (by simp [hp]), hdisputed hp, Option.getD_some] at this
          exact .inl (by omega)
        · exact .inr hp
      · by_cases hp : c.phase = .pending
        · have := hle (by simp [hp])
          rw [if_pos hp] at this
          exact .inl ⟨by omega, hperiod⟩
        · exact .inr hp
    split at ha
    case isTrue hf =>
      obtain ⟨c, hc, hphase⟩ := hrep.phases e he
      have hfinal := List.all_eq_true.mp hf c hc
      exact absurd (hphase.trans (of_decide_eq_true hfinal)) hopen
    case isFalse =>
      rw [List.findSome?_eq_none_iff.mpr hnone] at ha
      exact .inl (ok.inj ha).symm

end Skips

section Agreement

theorem allEntries_timestamp :
    allEntries whose journal evidence { s with timestamp := t } = allEntries whose journal evidence s := rfl

theorem entries_eq (hd : Readable s)
    (h : settlementCalendar whose journal evidence s = some calendar) :
    calendar.entries = allEntries whose journal evidence s := by
  obtain ⟨c, hc, he⟩ := @settlementCalendar_eq _ evidence whose journal hd
  rw [hc] at h
  exact Option.some.inj h ▸ he

-- The calendar of a deployed resolver that the worker or the alarm computes.
def Computed (calendar : Calendar) : Prop :=
  ∃ s whose journal evidence, Readable s ∧ Ordered s ∧ settlementCalendar whose journal evidence s = some calendar

theorem computed_gains (hc : ∀ c ∈ calendars, Computed c) (ht : 0 < t) :
    (∃ c ∈ calendars, Gains c t) ↔ ∃ c ∈ calendars, ∃ e ∈ c.entries, e.readyAt = t := by
  refine exists_congr fun c => and_congr_right fun hm => ?_
  obtain ⟨s, _, _, _, hd, ho, h⟩ := hc c hm
  exact gains_iff ho (entries_eq hd h) ht

theorem nextWake_spec (hc : ∀ c ∈ calendars, Computed c) (now : ℕ) :
    (∀ w, nextWake calendars now = some w ↔ IsLeast {t | now < t ∧ ∃ c ∈ calendars, Gains c t} w) ∧
      (nextWake calendars now = none ↔ ∀ t, now < t → ∀ c ∈ calendars, ¬ Gains c t) := by
  have hset : {t | now < t ∧ ∃ c ∈ calendars, Gains c t} =
      {t | now < t ∧ ∃ c ∈ calendars, ∃ e ∈ c.entries, e.readyAt = t} :=
    Set.ext fun t => and_congr_right fun ht => computed_gains hc (by omega)
  refine ⟨fun w => hset ▸ nextWake_eq_some, nextWake_eq_none.trans ?_⟩
  constructor
  · exact fun h t ht c hm hg => h ⟨t, ht, (computed_gains hc (by omega)).mp ⟨c, hm, hg⟩⟩
  · rintro h ⟨t, ht, hm⟩
    obtain ⟨c, hm, hg⟩ := (computed_gains hc (by omega)).mpr hm
    exact h t ht c hm hg

-- The plan is idle exactly if nothing is due, a wake is the next time at which something gets due, and a pool
-- that is skipped has nothing to plan.
theorem schedules_agree :
    (∀ s, Readable s → s.requiredCollateral ≤ s.poolCash →
      ∀ owner owned evidence, ∃ calendar a,
        settlementCalendar (some owner) (some owned) evidence s = some calendar ∧
        nextResolutionAction owner owned (fun _ => none) evidence s = .ok a ∧
        (a.idle ↔ dueEntries calendar s.timestamp = []) ∧
        (a.idle ∨ ∃ e ∈ dueEntries calendar s.timestamp, a.key = some e.key)) ∧
    (∀ calendars, (∀ c ∈ calendars, Computed c) → ∀ now,
      (∀ w, nextWake calendars now = some w ↔ IsLeast {t | now < t ∧ ∃ c ∈ calendars, Gains c t} w) ∧
      (nextWake calendars now = none ↔ ∀ t, now < t → ∀ c ∈ calendars, ¬ Gains c t)) ∧
    (∀ s t whose journal evidence calendar, Readable s → t ≤ maxSafeInteger →
      settlementCalendar whose journal evidence s = some calendar →
      ∃ calendar', settlementCalendar whose journal evidence { s with timestamp := t } = some calendar' ∧
        calendar'.entries = calendar.entries) ∧
    ∀ (m : Monitored) checked report, m.timing.observationEnds = m.publication.observationEnds →
      settlementReport m checked = some report → ∀ seen : Seen, seen.nextDueAt = some (nextDueAt report) →
      report.checkedAt ≤ seen.checkedAt → ∀ clock, (skipCheck seen clock ∨
        ∃ schedule pool, pool ∈ idlePools schedule clock ∧ ∀ seen', (pool, seen') ∈ schedule → seen' = seen) →
      ∀ t ≤ clock + 300, ∀ owner owned deferred evidence a,
        nextResolutionAction owner owned deferred evidence { m.toState with timestamp := t } = .ok a → a.idle := by
  refine ⟨fun s hd hc owner owned evidence => ?_, fun _ hc now => nextWake_spec hc now,
    fun s t whose journal evidence calendar hd ht h => ?_,
    fun m checked report hpub hr seen hnext hseen clock hskip t ht owner owned deferred evidence a ha => ?_⟩
  · obtain ⟨calendar, hcal, he⟩ := @settlementCalendar_eq _ evidence (some owner) (some owned) hd
    obtain ⟨a, ha, hidle, hkey⟩ := @plan_spec _ owner owned evidence hc
    refine ⟨calendar, a, hcal, ha, ?_⟩
    rw [dueEntries, he]
    exact ⟨hidle, hkey⟩
  · have hd' : Readable { s with timestamp := t } := ⟨hd.length_eq, ht, hd.ends_le, hd.times_le⟩
    obtain ⟨calendar', hcal, he⟩ := @settlementCalendar_eq _ evidence whose journal hd'
    exact ⟨calendar', hcal, by rw [he, allEntries_timestamp, entries_eq hd h]⟩
  · refine skipped_idle hr hpub hnext hseen (hskip.imp_right ?_) ht ha
    rintro ⟨schedule, pool, hidle, hseen'⟩
    obtain ⟨⟨_, seen'⟩, hm, rfl⟩ := List.mem_map.mp hidle
    obtain ⟨hm, hidle⟩ := List.mem_filter.mp hm
    exact hseen' seen' hm ▸ hidle

-- A rehearsal of two cases: the worker's own assertion, which can be finalized, and an open case.
def Rehearsal.state : State where
  publication        := ⟨"rehearsal", [1000, 1000]⟩
  timestamp          := 5000
  delivered          := false
  cases              := [⟨.asserted, 2, 0, 0, 7, 40, 4700, 0, 4600⟩, ⟨.pending, 0, 0, 0, 0, 0, 0, 0, 8600⟩]
  poolCash           := 10
  requiredCollateral := 10

def Rehearsal.assertions : Journal := fun event => if event = 0 then some ⟨40, 2⟩ else none

-- A pool that was checked long before its event ends.
def Rehearsal.watched : Monitored where
  publication        := ⟨"rehearsal", [5000]⟩
  timestamp          := 1000
  delivered          := false
  cases              := [⟨.pending, 0, 0, 0, 0, 0, 0, 0, 8600⟩]
  poolCash           := 10
  requiredCollateral := 10
  resolved           := false
  timing             := ⟨900, [5000], 3600⟩

def Rehearsal.seen : Seen := ⟨1000, some (.time 5000)⟩

theorem schedules_agree_rehearsal :
    (∃ calendar a,
      settlementCalendar (some 7) (some Rehearsal.assertions) true Rehearsal.state = some calendar ∧
        nextResolutionAction 7 Rehearsal.assertions (fun _ => none) true Rehearsal.state = .ok a ∧
        ∃ e ∈ dueEntries calendar 5000, a.key = some e.key) ∧
    (∃ calendar, settlementCalendar none none true Rehearsal.watched.toState = some calendar ∧
      nextWake [calendar] 1000 = some 5000 ∧ IsLeast {t | 1000 < t ∧ ∃ c ∈ [calendar], Gains c t} 5000) ∧
    skipCheck Rehearsal.seen 1200 ∧
    ∃ a, nextResolutionAction 7 (fun _ => none) (fun _ => none) true
      { Rehearsal.watched.toState with timestamp := 1500 } = .ok a ∧ a.idle := by
  obtain ⟨hplan, hwake, _, hskip⟩ := schedules_agree
  refine ⟨?_, ?_, by decide, .wait, by decide, ?_⟩
  · have hr : Readable Rehearsal.state := ⟨rfl, by decide, by decide, by decide⟩
    obtain ⟨calendar, a, hc, ha, _, hkey⟩ := hplan Rehearsal.state hr (by decide) 7 Rehearsal.assertions true
    refine ⟨calendar, a, hc, ha, hkey.resolve_left fun hidle => ?_⟩
    have hact : nextResolutionAction 7 Rehearsal.assertions (fun _ => none) true Rehearsal.state =
        .ok (.finalize 0) := by decide
    rw [hact] at ha
    cases ha
    exact absurd hidle (by simp [Action.idle])
  · have hr : Readable Rehearsal.watched.toState := ⟨rfl, by decide, by decide, by decide⟩
    obtain ⟨calendar, hc, hw⟩ : ∃ calendar,
        settlementCalendar none none true Rehearsal.watched.toState = some calendar ∧
        nextWake [calendar] 1000 = some 5000 := ⟨_, rfl, by decide⟩
    have hordered : Ordered Rehearsal.watched.toState := by
      simp [Ordered, Rehearsal.watched]
    have hcomputed : ∀ c ∈ [calendar], Computed c := by
      simpa using ⟨_, _, _, _, hr, hordered, hc⟩
    exact ⟨calendar, hc, hw, ((hwake [calendar] hcomputed 1000).1 5000).mp hw⟩
  · obtain ⟨report, hreport, hnext, hchecked⟩ : ∃ report, settlementReport Rehearsal.watched 1000 = some report ∧
        nextDueAt report = .time 5000 ∧ report.checkedAt = 1000 := ⟨_, rfl, by decide, rfl⟩
    exact hskip Rehearsal.watched 1000 report rfl hreport Rehearsal.seen (by rw [hnext]; rfl)
      (by rw [hchecked]; decide) 1200 (.inl (by decide)) 1500 (by decide) 7 (fun _ => none) (fun _ => none) true _
      (by decide)

end Agreement

end Resolution
