import Flurbo.Server.Evaluation

-- Which captures of several sources decide a snapshot.

open Except

namespace Settlement

variable (R : Readers) (rule : Rule) (captures : List Capture) (now : ℕ)

def Reads (c : Capture) (v : Value) : Prop := ∃ s, Parsed R rule c s ∧ s.record.value = v

def Within (c : Capture) : Prop :=
  rule.timing.scheduledAt ≤ c.fetchedAt ∧ c.fetchedAt ≤ rule.timing.publicationCutoff

instance decidableWithin (c : Capture) : Decidable (Within rule c) :=
  inferInstanceAs (Decidable (rule.timing.scheduledAt ≤ c.fetchedAt ∧ c.fetchedAt ≤ rule.timing.publicationCutoff))

-- The first capture of its source in the window, and of all sources.
def First (c : Capture) : Prop :=
  c ∈ captures ∧ Within rule c ∧
    ∀ c' ∈ captures, Within rule c' → c'.requestedUrl = c.requestedUrl → c.fetchedAt ≤ c'.fetchedAt

def Earliest (c : Capture) : Prop :=
  c ∈ captures ∧ Within rule c ∧ ∀ c' ∈ captures, Within rule c' → c.fetchedAt ≤ c'.fetchedAt

-- The first captures of all sources are read as `v`.
def Agree (v : Value) : Prop := ∀ c, First rule captures c → Reads R rule c v

def identifier (c : Capture) : String := adapterName rule.source.adapter ++ ":" ++ R.digestText c.sha256

-- Every source was captured in the window, no capture is invalid, and the answer is due.
structure Snapshots : Prop where
  general  : rule.source.adapter.general = true
  snapshot : rule.vintage = .firstObservedSnapshot
  started  : rule.timing.observationEndsAt ≤ now
  running  : now < rule.timing.observationEndsAt + rule.timing.assertionPeriod
  parsed   : ∀ c ∈ captures, c.fetchedAt ≤ now ∧ ∃ s, Parsed R rule c s
  covered  : ∀ url ∈ rule.source.urls, ∃ c ∈ captures, c.requestedUrl = url ∧ Within rule c

-- The captures of the earliest second have the same bytes, and are read as one value.
def OneRecord : Prop :=
  ∀ c c', Earliest rule captures c → Earliest rule captures c' →
    c.sha256 = c'.sha256 ∧ ∀ v, Reads R rule c v → Reads R rule c' v

-- The evaluation is ready exactly if the sources agree, and then with their value.
def Decided : Prop :=
  (∀ p, evaluateSettlement R rule captures now false = .ready p → Agree R rule captures p.measuredValue) ∧
    ∀ v, Agree R rule captures v →
      ∃ p, evaluateSettlement R rule captures now false = .ready p ∧ p.measuredValue = v

variable {R rule captures now} {c c' : Capture} {s : Sourced} {v w : Value}

theorem identifier_inj : identifier R rule c = identifier R rule c' ↔ c.sha256 = c'.sha256 := by
  rw [identifier, identifier, String.append_right_inj, R.digestText_inj.eq_iff]

theorem Reads.unique (h : Reads R rule c v) (h' : Reads R rule c w) : v = w := by
  obtain ⟨s, hs, rfl⟩ := h
  obtain ⟨s', hs', rfl⟩ := h'
  rw [hs.unique hs']

theorem Parsed.generalRecord (h : Parsed R rule c s) (hg : rule.source.adapter.general = true)
    (hv : rule.vintage = .firstObservedSnapshot) :
    s.record = .initialOf rule (identifier R rule c) s.record.value c.fetchedAt := by
  have hr := h.read
  have hread : readRecord R rule c = readGeneralRecord R rule c := by
    rw [readRecord]
    split <;> simp_all [Adapter.general]
  rw [hread, readGeneralRecord, bind_eq_ok] at hr
  obtain ⟨⟨value, published⟩, _, hr⟩ := hr
  simp only [hv, if_true, pure_eq_ok, ok.injEq] at hr
  rw [← hr]
  rfl

theorem Parsed.fetchedAt (h : Parsed R rule c s) : s.provenance.fetchedAt = c.fetchedAt := by rw [h.source]

theorem Parsed.validValue (h : Parsed R rule c s) (hk : s.record.kind = .initial) :
    validValue rule.decision.type s.record.value = true := by
  have hr := h.record
  simp only [checkRecord, bind_eq_ok, ensure_eq_ok] at hr
  obtain ⟨_, _, _, _, _, _, hr⟩ := hr
  exact hr (.inl hk)

theorem encodes_of_validValue {type : DecisionType} (h : validValue type v = true) : v.encodes = true := by
  cases v
  case other => cases h
  all_goals rfl

namespace Snapshots

theorem isInitial (h : Snapshots R rule captures now) (hp : Parsed R rule c s)
    (hle : c.fetchedAt ≤ rule.timing.publicationCutoff) :
    Settlement.isInitial rule s = true := by
  have hr := hp.generalRecord h.general h.snapshot
  rw [Settlement.isInitial, hr]
  simpa [Record.initialOf] using hle

theorem inWindow (h : Snapshots R rule captures now) (hp : Parsed R rule c s) :
    Settlement.inWindow rule s = true ↔ Within rule c := by
  have hr := hp.generalRecord h.general h.snapshot
  rw [inWindow_iff, hp.fetchedAt, hr]
  exact and_iff_right_of_imp And.left

theorem candidate_iff (h : Snapshots R rule captures now) : Candidate rule (recordsOf R rule captures now) s ↔
    ∃ c, Earliest rule captures c ∧ Parsed R rule c s := by
  constructor
  · intro ⟨hr, _, _, hs⟩
    obtain ⟨c, hc, _, hp⟩ := mem_recordsOf.mp hr
    have ⟨hw, hmin⟩ := hs h.snapshot
    refine ⟨c, ⟨hc, (h.inWindow hp).mp hw, fun c' hc' hw' => ?_⟩, hp⟩
    have ⟨hle, s', hp'⟩ := h.parsed c' hc'
    have := hmin s' (mem_recordsOf.mpr ⟨c', hc', hle, hp'⟩) (h.isInitial hp' hw'.2) ((h.inWindow hp').mpr hw')
    rwa [hp.fetchedAt, hp'.fetchedAt] at this
  · intro ⟨c, ⟨hc, hw, hmin⟩, hp⟩
    refine ⟨mem_recordsOf.mpr ⟨c, hc, (h.parsed c hc).1, hp⟩, h.isInitial hp hw.2, fun _ hi => ?_, fun _ => ?_⟩
    · rw [h.snapshot] at hi
      cases hi
    · refine ⟨(h.inWindow hp).mpr hw, fun s' hr' _ hw' => ?_⟩
      obtain ⟨c', hc', _, hp'⟩ := mem_recordsOf.mp hr'
      rw [hp.fetchedAt, hp'.fetchedAt]
      exact hmin c' hc' ((h.inWindow hp').mp hw')

theorem exists_first (p : Capture → Prop)
    (hp : ∃ c ∈ captures, p c ∧ Within rule c) :
    ∃ c ∈ captures, (p c ∧ Within rule c) ∧ ∀ c' ∈ captures, p c' → Within rule c' → c.fetchedAt ≤ c'.fetchedAt := by
  have hf : { c | c ∈ captures ∧ p c ∧ Within rule c }.Finite := (List.finite_toSet captures).subset fun _ hc => hc.1
  have ⟨c, ⟨hc, hw⟩, hmin⟩ := Set.exists_min_image _ (·.fetchedAt) hf hp
  exact ⟨c, hc, hw, fun c' hc' hp' hw' => hmin c' ⟨hc', hp', hw'⟩⟩

theorem exists_earliest (h : Snapshots R rule captures now) (hv : rule.Valid) : ∃ c, Earliest rule captures c := by
  have ⟨url, hu⟩ := List.exists_mem_of_ne_nil _ hv.urls_pos
  have ⟨c, hc, _, hw⟩ := h.covered url hu
  have ⟨c, hc, ⟨_, hw⟩, hmin⟩ := exists_first (fun _ => True) ⟨c, hc, trivial, hw⟩
  exact ⟨c, hc, hw, fun c' hc' => hmin c' hc' trivial⟩

theorem first_of_earliest (hc : Earliest rule captures c) : First rule captures c :=
  ⟨hc.1, hc.2.1, fun c' hc' hw _ => hc.2.2 c' hc' hw⟩

theorem identity_eq (h : Snapshots R rule captures now) (hp : Parsed R rule c s) :
    s.record.identity = ⟨identifier R rule c, .initial, s.record.value, c.fetchedAt, .text ""⟩ := by
  rw [hp.generalRecord h.general h.snapshot]
  rfl

-- All the candidates are one record if they are read as one, they can be compared, and none is a cancellation.
theorem undisputed_iff (h : Snapshots R rule captures now) :
    Undisputed rule (recordsOf R rule captures now) ↔ OneRecord R rule captures := by
  have hkind {c : Capture} {s : Sourced} (hp : Parsed R rule c s) : s.record.kind = .initial := by
    rw [hp.generalRecord h.general h.snapshot]
    rfl
  constructor
  · intro hu c c' hc hc'
    have ⟨_, s, hp⟩ := h.parsed c hc.1
    have ⟨_, s', hp'⟩ := h.parsed c' hc'.1
    have he := hu.same s s' (h.candidate_iff.mpr ⟨c, hc, hp⟩) (h.candidate_iff.mpr ⟨c', hc', hp'⟩)
    rw [h.identity_eq hp, h.identity_eq hp'] at he
    injection he with hid _ hval _ _
    refine ⟨identifier_inj.mp hid, fun v ⟨t, ht, hv⟩ => ⟨s', hp', ?_⟩⟩
    rw [← hval, ← hv, hp.unique ht]
  · intro ho
    refine ⟨fun s hs => ?_, fun s s' hs hs' => ?_, fun s hs => ?_⟩
    · obtain ⟨c, _, hp⟩ := h.candidate_iff.mp hs
      rw [Record.encodes, h.identity_eq hp, encodes_of_validValue (hp.validValue (hkind hp))]
      rfl
    · obtain ⟨c, hc, hp⟩ := h.candidate_iff.mp hs
      obtain ⟨c', hc', hp'⟩ := h.candidate_iff.mp hs'
      have ⟨hid, hval⟩ := ho c c' hc hc'
      have ⟨t, ht, hv⟩ := hval _ ⟨s, hp, rfl⟩
      rw [h.identity_eq hp, h.identity_eq hp', identifier_inj.mpr hid, hp'.unique ht, hv,
        le_antisymm (hc.2.2 c' hc'.1 hc'.2.1) (hc'.2.2 c hc.1 hc.2.1)]
    · obtain ⟨c, _, _, hp⟩ := mem_recordsOf.mp hs
      rw [isCancelled, hkind hp]
      rfl

theorem select_eq (h : Snapshots R rule captures now) (records : List Sourced) :
    select R rule records = (do let initial ← selectInitial rule records; return ([initial], initial)) := by
  rw [select, h.snapshot]
  rfl

theorem ready_iff (h : Snapshots R rule captures now) {p : Packet} :
    evaluateSettlement R rule captures now false = .ready p ↔ captures.length ≤ 100 ∧
      ∃ s, selectInitial rule (recordsOf R rule captures now) = .ok s ∧ p = packetOf rule captures now [s] s := by
  have ho : Opened R rule captures now ↔ captures.length ≤ 100 := by
    refine ⟨fun ho => ho.size, fun hl => ⟨h.started, h.running, hl, fun _ => ?_, h.parsed, fun _ hv => ?_⟩⟩
    · simp only [covers, List.all_eq_true, List.any_eq_true, decide_eq_true_eq]
      intro url hu
      obtain ⟨c, hc, hr, _⟩ := h.covered url hu
      exact ⟨c, hc, hr⟩
    · rw [h.snapshot] at hv
      cases hv
  rw [evaluate_ready_iff, ho, and_iff_right rfl, h.select_eq]
  refine and_congr_right fun _ => ?_
  simp only [bind_eq_ok, pure_eq_ok, ok.injEq, Prod.mk.injEq]
  constructor
  · rintro ⟨_, _, ⟨s, hs, rfl, rfl⟩, hp⟩
    exact ⟨s, hs, hp⟩
  · intro ⟨s, hs, hp⟩
    exact ⟨_, _, ⟨s, hs, rfl, rfl⟩, hp⟩

theorem measured (h : Snapshots R rule captures now) {p : Packet}
    (hp : evaluateSettlement R rule captures now false = .ready p) (hc : Earliest rule captures c) :
    captures.length ≤ 100 ∧ OneRecord R rule captures ∧ Reads R rule c p.measuredValue := by
  obtain ⟨hl, s, hs, rfl⟩ := h.ready_iff.mp hp
  obtain ⟨hcand, hu⟩ := selectInitial_eq_ok hs
  have ho := h.undisputed_iff.mp hu
  obtain ⟨c', hc', hp'⟩ := h.candidate_iff.mp hcand
  exact ⟨hl, ho, (ho c' c hc' hc).2 _ ⟨s, hp', rfl⟩⟩

theorem exists_ready (h : Snapshots R rule captures now) (hv : rule.Valid) (hl : captures.length ≤ 100)
    (ho : OneRecord R rule captures) : ∃ p, evaluateSettlement R rule captures now false = .ready p := by
  have ⟨c, hc⟩ := h.exists_earliest hv
  have ⟨_, s, hp⟩ := h.parsed c hc.1
  have ⟨first, hf⟩ := selectInitial_of_undisputed (h.candidate_iff.mpr ⟨c, hc, hp⟩) (h.undisputed_iff.mpr ho)
  exact ⟨_, h.ready_iff.mpr ⟨hl, first, hf, rfl⟩⟩

end Snapshots

-- Only the captures of the earliest second are compared, by the digests of their bytes.
theorem snapshot_decided_iff (hv : rule.Valid) (h : Snapshots R rule captures now) :
    Decided R rule captures now ↔
      ((∃ v, Agree R rule captures v) ↔ captures.length ≤ 100 ∧ OneRecord R rule captures) := by
  have ⟨c, hc⟩ := h.exists_earliest hv
  constructor
  · intro ⟨hready, hagree⟩
    constructor
    · intro ⟨v, hv⟩
      have ⟨p, hp, _⟩ := hagree v hv
      have ⟨hl, ho, _⟩ := h.measured hp hc
      exact ⟨hl, ho⟩
    · intro ⟨hl, ho⟩
      have ⟨p, hp⟩ := h.exists_ready hv hl ho
      exact ⟨_, hready p hp⟩
  · intro hiff
    have value {p : Packet} (hp : evaluateSettlement R rule captures now false = .ready p) {v : Value}
        (ha : Agree R rule captures v) : p.measuredValue = v :=
      (h.measured hp hc).2.2.unique (ha c (Snapshots.first_of_earliest hc))
    constructor
    · intro p hp
      have ⟨hl, ho, _⟩ := h.measured hp hc
      have ⟨v, ha⟩ := hiff.mpr ⟨hl, ho⟩
      rwa [value hp ha]
    · intro v ha
      have ⟨hl, ho⟩ := hiff.mp ⟨v, ha⟩
      have ⟨p, hp⟩ := h.exists_ready hv hl ho
      exact ⟨p, hp, value hp ha⟩

section Samples

def digitsOf (body : String) : Value := .text (String.ofList (body.toList.filter (·.isDigit)))

-- Bodies are read as the digits that they contain.
def digitReaders : Readers where
  digest body      := body.length
  digestText       := lettersOf
  acceptsType _ _  := true
  readGeneral _ c  := .ok (digitsOf c.body, none)
  jsonRecord _ _   := .error (.other 0)
  usgsGenerated _ _ := .error (.other 0)
  blsSentence _ _  := .error (.other 0)
  fedStatement _ _ := .error (.other 0)
  archivedId _     := "id"
  localeLe a b     := a ≤ b
  digestText_inj   := lettersOf_injective

def thresholdRule : Rule := { sampleRule with decision := ⟨.number, .gte, .text "7"⟩ }

def captureOf (url : Url) (fetchedAt : ℕ) (body : String) : Capture where
  requestedUrl := url
  finalUrl     := url
  fetchedAt    := fetchedAt
  status       := 200
  contentType  := none
  complete     := true
  bytes        := body.utf8ByteSize
  body         := body
  sha256       := body.length

def disagreeing : List Capture := [captureOf "a" 10 "5", captureOf "b" 11 "10"]

def reencoded : List Capture := [captureOf "a" 10 "5", captureOf "b" 10 "5 "]

theorem thresholdRule_valid : thresholdRule.Valid where
  urls_pos    := by decide
  urls_le     := by decide
  urls_nodup  := by decide
  decision    := ⟨nofun, fun _ => ⟨"7", rfl, by decide⟩, nofun⟩
  timing      := ⟨by decide, by decide, rfl, by decide, by decide, by decide, by decide⟩
  corrections := fun _ => rfl
  snapshot    := fun _ => .inr rfl
  general     := fun _ => by decide
  chain       := nofun
  usgs        := nofun

theorem identifier_admitted {url : Url} {t : ℕ} {body : String} (hl : body.length ≤ 400) :
    identifier digitReaders thresholdRule (captureOf url t body) ≠ "" ∧
      (identifier digitReaders thresholdRule (captureOf url t body)).length ≤ 500 := by
  have hlen : (identifier digitReaders thresholdRule (captureOf url t body)).length = 12 + body.length := by
    rw [identifier, String.length_append]
    exact congrArg (12 + ·) (length_lettersOf _)
  refine ⟨fun he => ?_, by omega⟩
  rw [he] at hlen
  have : "".length = 0 := rfl
  omega

theorem reads_captureOf {url : Url} {t : ℕ} {body : String} (hu : url ∈ thresholdRule.source.urls) (ht : t ≤ 20)
    (hsize : body.utf8ByteSize ≠ 0 ∧ body.utf8ByteSize ≤ 2000000) (hl : body.length ≤ 400)
    (hv : validValue .number (digitsOf body) = true) :
    Reads digitReaders thresholdRule (captureOf url t body) (digitsOf body) := by
  have ht' : validTime t := by simp only [validTime]; omega
  have hid := @identifier_admitted url t body hl
  have hc : checkCapture digitReaders thresholdRule (captureOf url t body) = .ok () := by
    simp [checkCapture, captureOf, digitReaders, ensure, hu, hsize]
  have hk : checkRecord thresholdRule (captureOf url t body)
      (.initialOf thresholdRule (identifier digitReaders thresholdRule (captureOf url t body)) (digitsOf body) t) = .ok () := by
    simp only [checkRecord, bind_eq_ok, ensure_eq_ok]
    refine ⟨(), rfl, (), ⟨hid.1, hid.2, ht', le_rfl⟩, (), fun h => ?_, fun _ => hv⟩
    rcases h with h | h <;> cases h
  exact ⟨⟨_, url, url, t, body.length, body.utf8ByteSize⟩, ⟨ht', hc, rfl, hk, rfl⟩, rfl⟩

theorem snapshots_of_reads {l : List Capture}
    (hp : ∀ c ∈ l, c.fetchedAt ≤ 20 ∧ ∃ v, Reads digitReaders thresholdRule c v)
    (hc : ∀ url ∈ thresholdRule.source.urls, ∃ c ∈ l, c.requestedUrl = url ∧ 10 ≤ c.fetchedAt ∧ c.fetchedAt ≤ 20) :
    Snapshots digitReaders thresholdRule l 20 where
  general  := rfl
  snapshot := rfl
  started  := le_rfl
  running  := by decide
  parsed c hm := by
    obtain ⟨hle, _, s, hs, _⟩ := hp c hm
    exact ⟨hle, s, hs⟩
  covered  := hc

theorem reads_disagreeing : Reads digitReaders thresholdRule (captureOf "a" 10 "5") (digitsOf "5") ∧
    Reads digitReaders thresholdRule (captureOf "b" 11 "10") (digitsOf "10") :=
  ⟨reads_captureOf (by decide) (by decide) (by decide) (by decide) (by decide +kernel),
    reads_captureOf (by decide) (by decide) (by decide) (by decide) (by decide +kernel)⟩

theorem reads_reencoded : Reads digitReaders thresholdRule (captureOf "a" 10 "5") (digitsOf "5") ∧
    Reads digitReaders thresholdRule (captureOf "b" 10 "5 ") (digitsOf "5 ") :=
  ⟨reads_disagreeing.1, reads_captureOf (by decide) (by decide) (by decide) (by decide) (by decide +kernel)⟩

theorem disagreeing_snapshots : Snapshots digitReaders thresholdRule disagreeing 20 := by
  refine snapshots_of_reads ?_ (by decide)
  simp only [disagreeing, List.forall_mem_cons]
  exact ⟨⟨by decide, _, reads_disagreeing.1⟩, ⟨by decide, _, reads_disagreeing.2⟩, by simp⟩

theorem reencoded_snapshots : Snapshots digitReaders thresholdRule reencoded 20 := by
  refine snapshots_of_reads ?_ (by decide)
  simp only [reencoded, List.forall_mem_cons]
  exact ⟨⟨by decide, _, reads_reencoded.1⟩, ⟨by decide, _, reads_reencoded.2⟩, by simp⟩

-- Sources that disagree are settled by the one that was fetched first, and sources that agree conflict if
-- their bytes differ.
theorem snapshot_decided_by_second :
    (Snapshots digitReaders thresholdRule disagreeing 20 ∧ ¬ Decided digitReaders thresholdRule disagreeing 20) ∧
    Snapshots digitReaders thresholdRule reencoded 20 ∧ ¬ Decided digitReaders thresholdRule reencoded 20 := by
  refine ⟨⟨disagreeing_snapshots, fun h => ?_⟩, reencoded_snapshots, fun h => ?_⟩
  · have hearliest : ∀ c, Earliest thresholdRule disagreeing c → c = captureOf "a" 10 "5" := by
      intro c ⟨hc, _, hmin⟩
      have hle := hmin (captureOf "a" 10 "5") (by decide) ⟨by decide, by decide⟩
      rcases List.mem_pair.mp hc with rfl | rfl
      · rfl
      · exact absurd hle (by decide)
    have hone : OneRecord digitReaders thresholdRule disagreeing := by
      intro c c' hc hc'
      rw [hearliest c hc, hearliest c' hc']
      exact ⟨rfl, fun _ hv => hv⟩
    obtain ⟨p, hp⟩ := disagreeing_snapshots.exists_ready thresholdRule_valid (by decide) hone
    have hfirst : First thresholdRule disagreeing (captureOf "a" 10 "5") :=
      ⟨by decide, ⟨by decide, by decide⟩, by decide⟩
    have hother : First thresholdRule disagreeing (captureOf "b" 11 "10") :=
      ⟨by decide, ⟨by decide, by decide⟩, by decide⟩
    have he := (h.1 p hp _ hfirst).unique reads_disagreeing.1
    rw [(h.1 p hp _ hother).unique reads_disagreeing.2] at he
    exact absurd he (by decide)
  · have hread : ∀ c ∈ reencoded, Reads digitReaders thresholdRule c (digitsOf "5") := by
      simp only [reencoded, List.forall_mem_cons]
      exact ⟨reads_reencoded.1, reads_reencoded.2, by simp⟩
    obtain ⟨p, hp, _⟩ := h.2 (digitsOf "5") fun c hc => hread c hc.1
    have hfirst : Earliest thresholdRule reencoded (captureOf "a" 10 "5") :=
      ⟨by decide, ⟨by decide, by decide⟩, by decide⟩
    have hother : Earliest thresholdRule reencoded (captureOf "b" 10 "5 ") :=
      ⟨by decide, ⟨by decide, by decide⟩, by decide⟩
    have he := ((reencoded_snapshots.measured hp hfirst).2.1 _ _ hfirst hother).1
    exact absurd he (by decide)

theorem snapshot_decided_iff_disagreeing : Decided digitReaders thresholdRule disagreeing 20 ↔
    ((∃ v, Agree digitReaders thresholdRule disagreeing v) ↔
      disagreeing.length ≤ 100 ∧ OneRecord digitReaders thresholdRule disagreeing) :=
  snapshot_decided_iff thresholdRule_valid disagreeing_snapshots

end Samples

end Settlement
