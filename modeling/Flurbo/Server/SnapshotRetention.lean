import Flurbo.Server.Collection

-- A snapshot that is reported as retained covers every source, if no run takes the captures of some
-- sources for all of them.

open Except

namespace Settlement

section Parse

variable {R : Readers} {rule : Rule} {c c' : Capture} {s s' : Sourced} {record : Record} {now now' : ℕ}

@[simp]
theorem ensure_eq_ok {p : Prop} [Decidable p] {e : Issue} {u : Unit} : ensure p e = .ok u ↔ p := by
  unfold ensure; split <;> simp_all

-- What a parsed capture consists of.
structure Parsed (R : Readers) (rule : Rule) (c : Capture) (s : Sourced) : Prop where
  valid   : validTime c.fetchedAt
  checked : checkCapture R rule c = .ok ()
  read    : readRecord R rule c = .ok s.record
  record  : checkRecord rule c s.record = .ok ()
  source  : s.provenance = ⟨c.requestedUrl, c.finalUrl, c.fetchedAt, c.sha256, c.bytes⟩

theorem parse_eq_ok : parseSettlementCapture R rule c now = .ok s ↔ c.fetchedAt ≤ now ∧ Parsed R rule c s := by
  simp only [parseSettlementCapture, bind_eq_ok, ensure_eq_ok, pure_eq_ok, ok.injEq]
  constructor
  case mp  =>
    rintro ⟨_, ⟨hv, hle⟩, _, hc, record, hr, _, hk, rfl⟩
    exact ⟨hle, hv, hc, hr, hk, rfl⟩
  case mpr =>
    rintro ⟨hle, hv, hc, hr, hk, hs⟩
    exact ⟨(), ⟨hv, hle⟩, (), hc, s.record, hr, (), hk, by rw [← hs]⟩

theorem Parsed.unique (h : Parsed R rule c s) (h' : Parsed R rule c s') : s = s' := by
  have hr := ok.inj (h.read.symm.trans h'.read)
  have hp := h.source.trans h'.source.symm
  cases s
  cases s'
  simp_all

theorem Parsed.publishedAt_le (h : Parsed R rule c s) : s.record.publishedAt ≤ c.fetchedAt := by
  have hk := h.record
  simp only [checkRecord, bind_eq_ok, ensure_eq_ok] at hk
  obtain ⟨_, _, _, hk, _⟩ := hk
  exact hk.right.right.right

-- The readers of snapshots only read initial records. Those of general adapters are published when
-- they are captured, and a catalogue says when it was generated.
theorem Parsed.snapshot (h : Parsed R rule c s) (hv : rule.Valid)
    (hs : rule.vintage = .firstObservedSnapshot) :
    s.record.kind = .initial ∧
      (rule.source.adapter.general → s.record.publishedAt = c.fetchedAt) ∧
      (rule.source.adapter = .usgsEarthquakeCount →
        ∃ id value, R.usgsGenerated rule c.body = .ok (id, value, s.record.publishedAt)) := by
  have hr := h.read
  have hg (h' : readGeneralRecord R rule c = .ok s.record) :
      s.record.kind = .initial ∧ s.record.publishedAt = c.fetchedAt := by
    simp only [readGeneralRecord, bind_eq_ok, hs, if_true, pure_eq_ok, ok.injEq] at h'
    obtain ⟨_, _, he⟩ := h'
    rw [← he]
    exact ⟨rfl, rfl⟩
  have ha := hv.snapshot hs
  unfold readRecord at hr
  split at hr
  case h_2 hu =>
    simp only [bind_eq_ok, pure_eq_ok, ok.injEq] at hr
    obtain ⟨⟨id, value, publishedAt⟩, hu', he⟩ := hr
    rw [← he]
    exact ⟨rfl, by simp [hu, Adapter.general], fun _ => ⟨id, value, hu'⟩⟩
  all_goals
    simp_all [Adapter.general]

end Parse

section Coverage

variable (R : Readers) (rule : Rule)

-- What is stored: a capture that was fetched since the window opened and could be read.
def Stored (c : Capture) : Prop :=
  rule.timing.scheduledAt ≤ c.fetchedAt ∧ ∃ s, Parsed R rule c s

def Usable (c : Capture) : Prop :=
  ∃ s, Parsed R rule c s ∧ inWindow rule s ∧ s.record.publishedAt ≤ rule.timing.publicationCutoff

def Covered (h : History) : Prop :=
  ∀ url ∈ rule.source.urls, ∃ c ∈ h.list, c.requestedUrl = url ∧ Usable R rule c

variable {R rule} {c c' : Capture} {h h' : History} {s : Sourced} {at_ now : ℕ}

theorem usable_iff : usable R rule at_ c ↔ c.fetchedAt ≤ at_ ∧ Usable R rule c := by
  unfold usable Usable
  constructor
  case mp  =>
    intro hu
    split at hu
    case h_1     => cases hu
    case h_2 s h =>
      have ⟨hle, hp⟩ := parse_eq_ok.mp h
      exact ⟨hle, s, hp, by simpa using hu⟩
  case mpr =>
    rintro ⟨hle, s, hp, hw⟩
    have h : parseSettlementCapture R rule c at_ = .ok s := parse_eq_ok.mpr ⟨hle, hp⟩
    simpa [h] using hw

theorem inWindow_iff : inWindow rule s ↔ rule.timing.scheduledAt ≤ s.record.publishedAt ∧
    rule.timing.scheduledAt ≤ s.provenance.fetchedAt ∧
      s.provenance.fetchedAt ≤ rule.timing.publicationCutoff := by
  simp [inWindow]

theorem Usable.fetched (h : Usable R rule c) :
    rule.timing.scheduledAt ≤ c.fetchedAt ∧ c.fetchedAt ≤ rule.timing.publicationCutoff := by
  have ⟨s, hp, hw, _⟩ := h
  rw [inWindow_iff, hp.source] at hw
  exact hw.right

-- An earlier observation of the same content is as good.
theorem Usable.earlier (hv : rule.Valid) (hs : rule.vintage = .firstObservedSnapshot)
    (hc : c'.content = c.content) (hle : c'.fetchedAt ≤ c.fetchedAt) (h : Usable R rule c)
    (h' : Stored R rule c') : Usable R rule c' := by
  have ⟨s, hp, hw, hk⟩ := h
  have ⟨hl, s', hp'⟩ := h'
  have ⟨_, hf⟩ := h.fetched
  have hb : c'.body = c.body := congrArg (·.body) hc
  refine ⟨s', hp', ?_⟩
  rw [inWindow_iff, hp'.source]
  rw [inWindow_iff, hp.source] at hw
  rcases hv.snapshot hs with hu | hg
  case inl =>
    have ⟨_, _, hu₁⟩ := (hp.snapshot hv hs).right.right hu
    have ⟨_, _, hu₂⟩ := (hp'.snapshot hv hs).right.right hu
    rw [hb, hu₁] at hu₂
    have hpub : s.record.publishedAt = s'.record.publishedAt := by
      simp only [ok.injEq, Prod.mk.injEq] at hu₂
      exact hu₂.right.right
    rw [← hpub]
    exact ⟨by simpa using ⟨hw.left, hl, hle.trans hf⟩, hk⟩
  case inr =>
    rw [(hp'.snapshot hv hs).right.left hg]
    exact ⟨⟨hl, hl, hle.trans hf⟩, hle.trans hf⟩

theorem Covered.put (hv : rule.Valid) (hs : rule.vintage = .firstObservedSnapshot)
    (hh : ∀ c ∈ h.list, Stored R rule c) (hc : Stored R rule c) (hp : h.put c = some h')
    (h₀ : Covered R rule h) : Covered R rule h' := by
  intro url hurl
  obtain ⟨c₀, hc₀, hr, hu⟩ := h₀ url hurl
  obtain ⟨c₁, hc₁, he, hle⟩ := History.put_list hp hc₀
  have hst : Stored R rule c₁ := by
    rcases History.list_put hp hc₁ with hc₁ | rfl
    · exact hh c₁ hc₁
    · exact hc
  have hreq : c₁.requestedUrl = c₀.requestedUrl := congrArg (·.requestedUrl) he
  exact ⟨c₁, hc₁, hreq.trans hr, hu.earlier hv hs he hle hst⟩

theorem covers_of_covered (h₀ : Covered R rule h) : covers rule h.list := by
  simp only [covers, List.all_eq_true, List.any_eq_true, decide_eq_true_eq]
  intro url hurl
  have ⟨c, hc, hr, _⟩ := h₀ url hurl
  exact ⟨c, hc, hr⟩

-- A usable record that is among the records is a candidate.
theorem initialsOf_ne (hs : rule.vintage = .firstObservedSnapshot) {records : List Sourced}
    (hm : s ∈ records) (hi : isInitial rule s) (hw : inWindow rule s) :
    initialsOf rule records ≠ .error .snapshotNotRetainedInWindow := by
  unfold initialsOf
  simp only [hs, reduceCtorEq, and_false, ↓reduceIte]
  have hmem : s ∈ (records.filter (isInitial rule)).filter (inWindow rule) := by
    simp [hm, hi, hw]
  set initials := (records.filter (isInitial rule)).filter (inWindow rule) with hin
  have hne : initials.map (·.provenance.fetchedAt) ≠ [] := by
    simpa using List.ne_nil_of_mem hmem
  obtain ⟨first, hf⟩ := Option.isSome_iff_exists.mp (List.isSome_min?_of_ne_nil hne)
  obtain ⟨s₁, hs₁, hfst⟩ := List.mem_map.mp (List.min?_mem hf)
  have hfil : s₁ ∈ initials.filter (some ·.provenance.fetchedAt = (initials.map (·.provenance.fetchedAt)).min?) := by
    simp [hs₁, hf, hfst]
  split
  case h_1 he => rw [he] at hfil; cases hfil
  case h_2    => simp

-- Selecting the record of a snapshot has its own reasons to fail, apart from a missing candidate.
theorem select_error {records : List Sourced} {e : Reason} (hs : rule.vintage = .firstObservedSnapshot)
    (h : select R rule records = .error e) :
    e ≠ .sourceCoverageMissing ∧
      (e = .snapshotNotRetainedInWindow → initialsOf rule records = .error .snapshotNotRetainedInWindow) := by
  have hi {e : Reason} (h : initialsOf rule records = .error e) : e = .snapshotNotRetainedInWindow := by
    simp only [initialsOf, hs, reduceCtorEq, and_false, ↓reduceIte] at h
    split at h
    · exact (error.inj h).symm
    · cases h
  simp only [select, hs, reduceCtorEq, ↓reduceIte, bind_eq_error] at h
  rcases h with h | ⟨_, _, h⟩
  case inr => cases h
  case inl =>
    simp only [selectInitial, bind_eq_error] at h
    rcases h with h | ⟨initials, _, h⟩
    case inl => exact ⟨by simp [hi h], fun he => he ▸ h⟩
    case inr =>
      repeat' split at h
      all_goals
        cases h
        try exact ⟨by decide, nofun⟩

-- The two results that a retained snapshot rules out.
def Missed (R : Readers) (rule : Rule) (h : History) (now : ℕ) : Prop :=
  evaluateSettlement R rule h.list now false = .unresolved .sourceCoverageMissing ∨
    evaluateSettlement R rule h.list now false = .unresolved .snapshotNotRetainedInWindow

theorem not_missed (hv : rule.Valid) (hs : rule.vintage = .firstObservedSnapshot)
    (h₀ : Covered R rule h) (hn : ∀ c ∈ h.list, c.fetchedAt ≤ now) : ¬Missed R rule h now := by
  have hcov := covers_of_covered h₀
  -- Any source has a usable capture, and there is one.
  have ⟨url, hurl⟩ := List.exists_mem_of_ne_nil _ hv.urls_pos
  have ⟨c, hc, _, s, hp, hw, hk⟩ := h₀ url hurl
  have hrec : s ∈ recordsOf R rule h.list now := by
    simp only [recordsOf, parsed, List.mem_filterMap, List.mem_map]
    refine ⟨.ok s, ⟨c, hc, parse_eq_ok.mpr ⟨hn c hc, hp⟩⟩, ?_⟩
    have := hp.publishedAt_le.trans (hn c hc)
    simp [this]
  have hini : isInitial rule s := by
    simp [isInitial, (hp.snapshot hv hs).left, hk]
  have hne := initialsOf_ne hs hrec hini hw
  unfold Missed evaluateSettlement
  simp only [hcov, Bool.not_true, and_false, Bool.false_eq_true, ↓reduceIte]
  have herr {e : Reason} (h : select R rule (recordsOf R rule h.list now) = .error e) :
      e ≠ .sourceCoverageMissing ∧ e ≠ .snapshotNotRetainedInWindow :=
    ⟨(select_error hs h).left, fun he => hne ((select_error hs h).right he)⟩
  split_ifs
  any_goals simp
  split
  case h_1      => simp
  case h_2 he   => simpa using herr he
  case h_3      => simp

end Coverage

section Runs

variable (R : Readers) (rule : Rule)

-- A run that finds a usable capture of some source finds one of every source.
def Complete (h : History) (at_ : ℕ) : Prop :=
  (∃ c ∈ h.list, usable R rule at_ c) →
    ∀ url ∈ rule.source.urls, ∃ c ∈ h.list, c.requestedUrl = url ∧ usable R rule at_ c

instance decidableComplete (h : History) (at_ : ℕ) : Decidable (Complete R rule h at_) :=
  inferInstanceAs (Decidable ((∃ c ∈ h.list, usable R rule at_ c) →
    ∀ url ∈ rule.source.urls, ∃ c ∈ h.list, c.requestedUrl = url ∧ usable R rule at_ c))

def lists (h : History) : Option Collecting → Prop
  | some ⟨_, .listing at_⟩ => Complete R rule h at_
  | _                      => True

instance decidableLists (h : History) : ∀ run, Decidable (lists R rule h run)
  | some ⟨_, .listing at_⟩   => decidableComplete R rule h at_
  | some ⟨_, .attempting _⟩  => .isTrue trivial
  | some ⟨_, .recording _ _⟩ => .isTrue trivial
  | none                     => .isTrue trivial

def permitted (w : Collection) : Action → Prop
  | .list n fate => fate = .done → lists R rule w.history (w.runs n)
  | _            => True

instance decidablePermitted (w : Collection) : ∀ a, Decidable (permitted R rule w a)
  | .list n fate =>
    have : Decidable (lists R rule w.history (w.runs n)) := decidableLists R rule w.history (w.runs n)
    inferInstanceAs (Decidable (fate = .done → lists R rule w.history (w.runs n)))
  | .tick _ | .start .. | .fetch .. | .store .. | .settle _ | .record .. | .crash _ | .restart _ =>
    .isTrue trivial

def Phase.Fine (h : History) (clock : ℕ) : Phase → Prop
  | .listing _        => rule.timing.scheduledAt ≤ clock
  | .attempting tasks =>
    rule.timing.scheduledAt ≤ clock ∧
      ∀ url c, tasks url = .storing c → Stored R rule c ∧ c.fetchedAt ≤ clock
  | .recording _ status => status = .snapshotRetained → Covered R rule h

structure Sound (w : Collection) : Prop where
  stored  : ∀ c ∈ w.history.list, Stored R rule c ∧ c.fetchedAt ≤ w.clock
  runs    : ∀ n run, w.runs n = some run → run.phase.Fine R rule w.history w.clock
  cache   : ∀ p, w.cache p → Covered R rule w.history
  reports : .snapshotRetained ∈ w.reports → Covered R rule w.history

variable {R rule} {w : Collection} {n : ℕ} {run : Collecting} {phase : Phase} {h : History}

theorem Phase.Fine.later {clock : ℕ} (hf : phase.Fine R rule h clock) (d : ℕ) :
    phase.Fine R rule h (clock + d) := by
  cases phase
  case listing    => exact Nat.le_add_right_of_le hf
  case recording  => exact hf
  case attempting =>
    refine ⟨Nat.le_add_right_of_le hf.left, fun url c hc => ?_⟩
    have ⟨hs, hle⟩ := hf.right url c hc
    exact ⟨hs, Nat.le_add_right_of_le hle⟩

theorem Phase.Fine.mono {clock : ℕ} {h' : History} (hf : phase.Fine R rule h clock)
    (hc : Covered R rule h → Covered R rule h') : phase.Fine R rule h' clock := by
  cases phase
  case listing    => exact hf
  case attempting => exact hf
  case recording  => exact fun hs => hc (hf hs)

namespace Sound

theorem initial (clock : ℕ) : Sound R rule (.initial clock) where
  stored  := by simp [Collection.initial, History.empty, History.list]
  runs    := by simp [Collection.initial]
  cache   := by simp [Collection.initial]
  reports := by simp [Collection.initial]

theorem tick (hw : Sound R rule w) (d : ℕ) : Sound R rule { w with clock := w.clock + d } where
  stored c hc    := ⟨(hw.stored c hc).left, Nat.le_add_right_of_le (hw.stored c hc).right⟩
  runs n run hr  := (hw.runs n run hr).later d
  cache          := hw.cache
  reports        := hw.reports

-- A run that moved on.
theorem proceed (hw : Sound R rule w) (hf : phase.Fine R rule w.history w.clock) :
    Sound R rule (w.proceed n run phase) where
  stored      := hw.stored
  cache       := hw.cache
  reports     := hw.reports
  runs m r hr := by
    by_cases hm : m = n
    case pos =>
      subst hm
      simp only [Collection.proceed, Function.update_self, Option.some.injEq] at hr
      exact hr ▸ hf
    case neg =>
      simp only [Collection.proceed, Function.update_of_ne hm] at hr
      exact hw.runs m r hr

theorem leave (hw : Sound R rule w) : Sound R rule (w.leave n) where
  stored      := hw.stored
  cache       := hw.cache
  reports     := hw.reports
  runs m r hr := by
    by_cases hm : m = n
    case pos => simp [Collection.leave, hm] at hr
    case neg =>
      simp only [Collection.leave, Function.update_of_ne hm] at hr
      exact hw.runs m r hr

theorem report {status : Status} (hw : Sound R rule w)
    (hs : status = .snapshotRetained → Covered R rule w.history) : Sound R rule (w.report n status) where
  stored    := hw.stored
  cache     := hw.cache
  runs      := hw.leave.runs
  reports h := by
    rcases List.mem_cons.mp h with h | h
    · exact hs h.symm
    · exact hw.reports h

theorem remember {process : Option ℕ} (hw : Sound R rule w) (hc : Covered R rule w.history) :
    Sound R rule (w.remember process) := by
  cases process
  case none   => exact hw
  case some p => exact ⟨hw.stored, hw.runs, fun _ _ => hc, hw.reports⟩

theorem restart (hw : Sound R rule w) (process : ℕ) : Sound R rule (w.restart process) where
  stored      := hw.stored
  reports     := hw.reports
  runs m r hr := hw.runs m r (Option.filter_eq_some_iff.mp hr).left
  cache p hp  := by
    by_cases h : p = process
    case pos => simp [Collection.restart, h] at hp
    case neg => exact hw.cache p (by simpa [Collection.restart, Function.update_of_ne h] using hp)

-- A history that lists what it did or more that was stored.
theorem history {h : History} (hw : Sound R rule w)
    (hl : ∀ c ∈ h.list, Stored R rule c ∧ c.fetchedAt ≤ w.clock)
    (hc : Covered R rule w.history → Covered R rule h) : Sound R rule { w with history := h } where
  stored        := hl
  runs n run hr := (hw.runs n run hr).mono hc
  cache p hp    := hc (hw.cache p hp)
  reports hr    := hc (hw.reports hr)

theorem put {c : Capture} {h : History} (hv : rule.Valid) (hs : rule.vintage = .firstObservedSnapshot)
    (hw : Sound R rule w) (hc : Stored R rule c ∧ c.fetchedAt ≤ w.clock) (hp : w.history.put c = some h) :
    Sound R rule { w with history := h } := by
  refine hw.history (fun c' hc' => ?_) ?_
  · rcases History.list_put hp hc' with hc' | rfl
    · exact hw.stored c' hc'
    · exact hc
  · exact Covered.put hv hs (fun c' hc' => (hw.stored c' hc').left) hc.left hp

theorem recordAttempt {a : Attempt} (hw : Sound R rule w) :
    Sound R rule { w with history := w.history.recordAttempt a } := by
  refine hw.history (fun c hc => hw.stored c (by simpa using hc)) fun hc => ?_
  simpa [Covered] using hc

theorem started {process : Option ℕ} {delivered : Bool} {phase : ℕ} (hw : Sound R rule w)
    (hs : rule.vintage = .firstObservedSnapshot) :
    Sound R rule (started rule w n process delivered phase) := by
  unfold Settlement.started
  simp only [hs, ↓reduceIte]
  split
  case isTrue  => exact hw
  case isFalse =>
    split
    case isTrue      => exact hw.report nofun
    case isFalse hat =>
      split
      case isTrue hc =>
        refine hw.proceed fun _ => ?_
        have ⟨p, _, hp⟩ := (Option.any_eq_true ..).mp hc
        exact hw.cache p hp
      case isFalse   => exact hw.proceed (not_lt.mp hat)

theorem listed {at_ : ℕ} (hw : Sound R rule w) (hf : rule.timing.scheduledAt ≤ w.clock)
    (hc : Complete R rule w.history at_) : Sound R rule (listed R rule w n run at_) := by
  unfold Settlement.listed
  split
  case isTrue ha  =>
    have hcov : Covered R rule w.history := by
      intro url hurl
      have ⟨c, hm, hr, hu⟩ := hc (List.any_eq_true.mp ha) url hurl
      exact ⟨c, hm, hr, (usable_iff.mp hu).right⟩
    refine (hw.remember hcov).proceed fun _ => ?_
    cases run.process
    all_goals exact hcov
  case isFalse    =>
    split
    · exact hw.proceed nofun
    · exact hw.proceed ⟨hf, nofun⟩

theorem fetched {tasks : Url → Task} {url : Url} {response : Except Issue Response} (hw : Sound R rule w)
    (hf : Phase.Fine R rule w.history w.clock (.attempting tasks)) :
    Sound R rule (w.proceed n run
      (.attempting (Function.update tasks url (fetched R rule url w.clock response)))) := by
  refine hw.proceed ⟨hf.left, fun u c hu => ?_⟩
  by_cases h : u = url
  case neg =>
    rw [Function.update_of_ne h] at hu
    exact hf.right u c hu
  case pos =>
    rw [h, Function.update_self] at hu
    unfold Settlement.fetched at hu
    split at hu
    case h_1   => cases hu
    case h_2 r =>
      split at hu
      case h_1      => cases hu
      case h_2 s hs =>
        cases hu
        exact ⟨⟨hf.left, s, (parse_eq_ok.mp hs).right⟩, (parse_eq_ok.mp hs).left⟩

theorem ended {tasks : Url → Task} {url : Url} {issue : Option Issue} {h : History} {clock : ℕ}
    (hf : Phase.Fine R rule h clock (.attempting tasks)) (h' : History) :
    Phase.Fine R rule h' clock (.attempting (Function.update tasks url (.ended issue))) := by
  refine ⟨hf.left, fun u c hu => ?_⟩
  by_cases h : u = url
  case neg => exact hf.right u c (by rwa [Function.update_of_ne h] at hu)
  case pos => rw [h, Function.update_self] at hu; cases hu

theorem stored' {tasks : Url → Task} {url : Url} {c : Capture} {fate : Fate} (hv : rule.Valid)
    (hs : rule.vintage = .firstObservedSnapshot) (hw : Sound R rule w)
    (hf : Phase.Fine R rule w.history w.clock (.attempting tasks)) (hc : tasks url = .storing c) :
    Sound R rule (Settlement.stored w n run tasks url c fate) := by
  have hst := hf.right url c hc
  unfold Settlement.stored
  cases hp : w.history.put c
  case none   => cases fate <;> exact hw.proceed (ended hf _)
  case some h =>
    cases fate
    case failed => exact hw.proceed (ended hf _)
    case lost   => exact (hw.put hv hs hst hp).proceed (ended hf _)
    case done   => exact (hw.put hv hs hst hp).proceed (ended hf _)

theorem settled {tasks : Url → Task} (hw : Sound R rule w) : Sound R rule (settled rule w n run tasks) := by
  refine hw.proceed fun h => ?_
  split at h <;> cases h

theorem recorded {attempt : Attempt} {status : Status} {fate : Fate} (hw : Sound R rule w)
    (hf : Phase.Fine R rule w.history w.clock (.recording attempt status)) :
    Sound R rule (recorded w n attempt status fate) := by
  cases fate
  case failed => exact hw.leave
  case lost   => exact hw.recordAttempt.leave
  case done   => exact hw.recordAttempt.report fun h => by simpa [Covered] using hf h

theorem collect {a : Action} {w' : Collection} (hv : rule.Valid)
    (hs : rule.vintage = .firstObservedSnapshot) (hp : permitted R rule w a) (hw : Sound R rule w)
    (h : collect R rule w a = .ok w') : Sound R rule w' := by
  cases a <;> simp only [Settlement.collect] at h
  case tick d          => cases h; exact hw.tick d
  case start           =>
    split at h <;> cases h
    exact hw.started hs
  case list n fate     =>
    split at h <;> cases h
    case h_1 at_ hr =>
      have hf := hw.runs n _ hr
      rw [permitted, hr] at hp
      split
      case isTrue hfate => exact hw.listed hf (hp hfate)
      case isFalse      => exact hw.leave
  case fetch           =>
    split at h
    case h_2    => cases h
    case h_1 hr =>
      split at h <;> cases h
      exact hw.fetched (hw.runs _ _ hr)
  case store           =>
    split at h
    case h_2    => cases h
    case h_1 hr =>
      split at h <;> cases h
      case h_1 hc => exact hw.stored' hv hs (hw.runs _ _ hr) hc
  case settle          =>
    split at h
    case h_2 => cases h
    case h_1 =>
      split at h <;> cases h
      exact hw.settled
  case record          =>
    split at h <;> cases h
    case h_1 hr => exact hw.recorded (hw.runs _ _ hr)
  case crash           => cases h; exact hw.leave
  case restart process => cases h; exact hw.restart process

end Sound

structure Retained (R : Readers) (rule : Rule) (w : Collection) : Prop where
  sources   : ∀ url ∈ rule.source.urls, ∃ c ∈ w.history.list, c.requestedUrl = url ∧
    rule.timing.scheduledAt ≤ c.fetchedAt ∧ c.fetchedAt ≤ rule.timing.publicationCutoff
  evaluated : ∀ now, w.clock ≤ now → ¬Missed R rule w.history now

abbrev reached (R : Readers) (rule : Rule) (clock : ℕ) (as : List Action) : Collection :=
  Run.run (Settlement.collect R rule) (.initial clock) as

-- In a run whose lists are all complete, what is reported as retained covers every source.
theorem snapshot_retained (hv : rule.Valid) (hs : rule.vintage = .firstObservedSnapshot) (clock : ℕ)
    (as : List Action)
    (hp : Run.Along (Settlement.collect R rule) (permitted R rule) (.initial clock) as) :
    .snapshotRetained ∈ (reached R rule clock as).reports →
      Retained R rule (reached R rule clock as) := by
  have hw : Sound R rule (reached R rule clock as) :=
    Run.run_invariant_along hp (.initial clock) fun _ _ _ hp hw h => hw.collect hv hs hp h
  intro hr
  have hc := hw.reports hr
  refine ⟨fun url hurl => ?_, fun now hn => ?_⟩
  · have ⟨c, hm, hreq, hu⟩ := hc url hurl
    exact ⟨c, hm, hreq, hu.fetched⟩
  · exact not_missed hv hs hc fun c hm => (hw.stored c hm).right.trans hn

end Runs

section Samples

theorem sampleRule_valid : sampleRule.Valid where
  urls_pos    := by decide
  urls_le     := by decide
  urls_nodup  := by decide
  decision    := ⟨nofun, fun _ => ⟨"1", rfl, by decide⟩, nofun⟩
  timing      := ⟨by decide, by decide, rfl, by decide, by decide, by decide, by decide⟩
  corrections := fun _ => rfl
  snapshot    := fun _ => .inr rfl
  general     := fun _ => by decide
  chain       := nofun
  usgs        := nofun

def response : Except Issue Response := .ok ⟨none, "body"⟩

-- One run collects, and another one reports.
def collects (first second : Except Issue Response) : List Action := [
  .start 0 none false 0, .list 0 .done, .fetch 0 "a" first, .fetch 0 "b" second, .store 0 "a" .done,
  .store 0 "b" .done, .settle 0, .record 0 .done, .start 1 none false 0, .list 1 .done, .record 1 .done]

theorem snapshot_retained_both :
    .snapshotRetained ∈ (reached sampleReaders sampleRule 12 (collects response response)).reports ∧
      Retained sampleReaders sampleRule
        (reached sampleReaders sampleRule 12 (collects response response)) := by
  have hr : .snapshotRetained ∈
      (reached sampleReaders sampleRule 12 (collects response response)).reports := by
    decide +kernel
  exact ⟨hr, snapshot_retained sampleRule_valid rfl 12 _ (by decide +kernel) hr⟩

-- The second source fails in the first run, and is never tried again.
theorem snapshot_incomplete :
    .snapshotRetained ∈
        (reached sampleReaders sampleRule 12 (collects response (.error (.other 1)))).reports ∧
      ¬Retained sampleReaders sampleRule
        (reached sampleReaders sampleRule 12 (collects response (.error (.other 1)))) := by
  refine ⟨by decide +kernel, fun h => h.evaluated 20 (by decide +kernel) (.inl ?_)⟩
  decide +kernel

end Samples

end Settlement
