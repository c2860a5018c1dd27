import Flurbo.Server.CaptureStore

-- What any number of calls make of the captures of a rule.

open Except

namespace Settlement.CaptureStore

variable {T : Texts} {raw raw' : Option Stored} {s s' : State} {e item incoming : Entry} {c : Capture} {a : Attempt}
variable {op : Operation} {r n now t : ℕ} {l : List Capture} {call : Call} {w w' : World}

section Reading

structure Valid (T : Texts) (s : State) : Prop where
  length  : s.entries.length ≤ maxCaptures
  entries : ∀ e ∈ s.entries, validEntry T e
  ids     : (s.entries.map (·.id)).Nodup
  attempt : ∀ a ∈ s.attempt, validAttempt a

-- Every time is printed with all of its digits.
structure Short (s : State) : Prop where
  entries : ∀ e ∈ s.entries, e.last < 10 ^ 14
  attempt : ∀ a ∈ s.attempt, a.at_ < 10 ^ 14

-- The attempt that is kept lists an issue.
def Listed (s : State) : Prop := ∀ a ∈ s.attempt, a.issues ≠ []

theorem valid_empty (T : Texts) : Valid T ⟨[], none⟩ := ⟨by simp, by simp, .nil, by simp⟩

theorem printed_of_lt (h : n < 10 ^ 14) : printed n = n := if_pos h

theorem items_table {α : Type} (l : List α) : (table l).items = l := by
  cases l <;> rfl

theorem readAttempt_eq_ok {stored : Option StoredAttempt} {attempt : Option Attempt} :
    readAttempt stored = .ok attempt ↔ (∀ a ∈ attempt, validAttempt a) ∧
      stored = attempt.map fun a => ⟨a.at_, a.ok, .array a.issues⟩ := by
  rcases stored with _ | ⟨at_, good, issues | _⟩
  case none =>
    cases attempt
    case none => simp [readAttempt]
    case some => exact iff_of_false (fun h => nomatch h) fun h => nomatch h.2
  case some.array =>
    rw [readAttempt]
    cases attempt
    case none =>
      refine iff_of_false (fun h => ?_) fun h => nomatch h.2
      split at h <;> cases h
    case some a =>
      split
      case isTrue h =>
        rw [ok.injEq]
        constructor
        · intro he
          cases he
          exact ⟨by simpa using h, rfl⟩
        · intro ⟨_, he⟩
          cases he
          rfl
      case isFalse h =>
        refine iff_of_false (fun h => nomatch h) fun ⟨hv, he⟩ => h ?_
        cases he
        exact hv a rfl
  case some.object =>
    refine iff_of_false (fun h => nomatch h) fun ⟨_, he⟩ => ?_
    cases attempt <;> cases he

theorem history_some {stored : Stored} : history T (some stored) = .ok s ↔ Valid T s ∧
    T.size stored ≤ maxPacketBytes ∧ stored.entries.items = s.entries ∧
    stored.attempt = s.attempt.map fun a => ⟨a.at_, a.ok, .array a.issues⟩ := by
  rw [history]
  split
  case isTrue h =>
    refine iff_of_false (fun h => nomatch h) fun ⟨hv, hs, he, _⟩ => ?_
    have := hv.length
    rw [he] at h
    exact h.elim (not_lt.mpr hs) (not_lt.mpr this)
  case isFalse h =>
    rw [not_or, not_lt, not_lt] at h
    split
    case isTrue hn =>
      refine iff_of_false (fun h => nomatch h) fun ⟨hv, _, he, _⟩ => hn ?_
      rw [he]
      exact ⟨hv.entries, hv.ids⟩
    case isFalse hn =>
      have ⟨hall, hids⟩ := not_not.mp hn
      rw [bind_eq_ok]
      constructor
      · intro ⟨attempt, ha, hs⟩
        cases hs
        have ⟨hv, he⟩ := readAttempt_eq_ok.mp ha
        exact ⟨⟨h.2, hall, hids, hv⟩, h.1, rfl, he⟩
      · intro ⟨hv, _, he, ha⟩
        refine ⟨s.attempt, readAttempt_eq_ok.mpr ⟨hv.attempt, ha⟩, ?_⟩
        rw [he]
        rfl

-- What servers accept is what the script works on.
theorem decode_of_history (h : history T raw = .ok s) : raw.elim ⟨[], none⟩ decode = s ∧ Valid T s := by
  cases raw
  case none =>
    cases h
    exact ⟨rfl, valid_empty T⟩
  case some stored =>
    have ⟨hv, _, he, ha⟩ := history_some.mp h
    refine ⟨?_, hv⟩
    rw [Option.elim_some, decode, he, ha]
    cases s
    case mk attempt => cases attempt <;> rfl

theorem printed_entry (he : validEntry T e) (hl : e.last < 10 ^ 14) : e.printed = e := by
  obtain ⟨-, -, hle, h0, ⟨-, -, hstatus, -, -, -, hmax, hbytes, -⟩, -⟩ := he
  have hb : e.capture.bytes < 10 ^ 14 := by
    rw [hbytes]
    omega
  have hc : printedCapture e.capture = e.capture := by
    rw [printedCapture, printed_of_lt (by omega), printed_of_lt (by omega), printed_of_lt hb]
  rw [Entry.printed, printed_of_lt hl, printed_of_lt (hle.trans_lt hl), hc]

-- A state that is written is read as it is, unless its attempt lists no issue.
theorem history_encode (hv : Valid T s) (hs : Short s) (hsize : T.size (encode s) ≤ maxPacketBytes) :
    (Listed s → history T (some (encode s)) = .ok s) ∧
    ((history T (some (encode s))).isOk = true → Listed s) := by
  have hentries : (encode s).entries.items = s.entries := by
    rw [encode, items_table]
    exact (List.map_congr_left fun e he => printed_entry (hv.entries e he) (hs.entries e he)).trans (List.map_id _)
  constructor
  · intro hl
    refine history_some.mpr ⟨hv, hsize, hentries, ?_⟩
    rw [encode]
    cases ha : s.attempt
    case none   => rfl
    case some a =>
      obtain ⟨i, issues, hi⟩ := List.exists_cons_of_ne_nil (hl a ha)
      rw [Option.map_some, Option.map_some, printed_of_lt (hs.attempt a ha), hi]
      rfl
  · intro h a ha hn
    obtain ⟨s', h⟩ := exists_ok h
    have ⟨_, _, _, he⟩ := history_some.mp h
    rw [encode, ha, Option.map_some, hn] at he
    cases hs' : s'.attempt
    case none => rw [hs'] at he; cases he
    case some =>
      rw [hs'] at he
      have := congrArg StoredAttempt.issues (Option.some.inj he)
      cases this

end Reading

section Script

-- What an operation does to the state that it is applied to.
def State.apply (s : State) : Operation → State
  | .attempt a        => if s.attempt.any (a.at_ < ·.at_) then s else { s with attempt := some a }
  | .capture incoming =>
    match Records.find (·.id) incoming.id s.entries with
    | some _ => { s with entries := Records.change (·.id) incoming.id (·.merge incoming) s.entries }
    | none   => { s with entries := s.entries ++ [incoming] }

-- An operation that a call makes.
def Operation.Valid (T : Texts) : Operation → Prop
  | .attempt a => validAttempt a
  | .capture e => validEntry T e

def Operation.Short : Operation → Prop
  | .attempt a => a.at_ < 10 ^ 14
  | .capture e => e.last < 10 ^ 14

def Operation.Listed : Operation → Prop
  | .attempt a => a.issues ≠ []
  | .capture _ => True

-- There are too many contents, or their text is too long.
def Full (T : Texts) (s : State) (op : Operation) : Prop :=
  (∃ e, op = .capture e ∧ (∀ item ∈ s.entries, item.id ≠ e.id) ∧ maxCaptures ≤ s.entries.length) ∨
    maxPacketBytes < T.size (encode (s.apply op))

theorem write_eq (T : Texts) (s : State) :
    (T.size (encode s) ≤ maxPacketBytes ∧ write T s = .ok (some (encode s), 1)) ∨
    (maxPacketBytes < T.size (encode s) ∧ write T s = .error .capacityReached) := by
  rw [write]
  split
  case isTrue h  => exact .inr ⟨h, rfl⟩
  case isFalse h => exact .inl ⟨not_lt.mp h, rfl⟩

theorem find_none : Records.find (·.id) incoming.id s.entries = none ↔ ∀ item ∈ s.entries, item.id ≠ incoming.id := by
  rw [Records.find, List.find?_eq_none]
  simp

-- All that the script does to a state that servers accept.
theorem script_cases (h : history T raw = .ok s) (op : Operation) :
    (∃ a, op = .attempt a ∧ s.apply op = s ∧ captureHistoryScript T raw op = .ok (raw, 0)) ∨
    (¬ Full T s op ∧ captureHistoryScript T raw op = .ok (some (encode (s.apply op)), 1)) ∨
    (Full T s op ∧ captureHistoryScript T raw op = .error .capacityReached) := by
  obtain ⟨hd, _⟩ := decode_of_history h
  rw [captureHistoryScript.eq_def]
  simp only [hd]
  cases op
  case attempt a =>
    have hfull : Full T s (.attempt a) ↔ maxPacketBytes < T.size (encode (s.apply (.attempt a))) :=
      or_iff_right fun h => by cases h.choose_spec.1
    simp only []
    split
    case isTrue ha  => exact .inl ⟨a, rfl, by rw [State.apply, if_pos ha], rfl⟩
    case isFalse ha =>
      rw [hfull, State.apply, if_neg ha, not_lt]
      exact .inr (write_eq T _)
  case capture incoming =>
    simp only []
    split
    case h_1 hf =>
      have hfull : Full T s (.capture incoming) ↔ maxPacketBytes < T.size (encode (s.apply (.capture incoming))) := by
        refine or_iff_right ?_
        rintro ⟨_, he, hn, -⟩
        cases he
        rw [find_none.mpr hn] at hf
        cases hf
      rw [hfull, State.apply, hf, not_lt]
      exact .inr (write_eq T _)
    case h_2 hf =>
      split
      case isTrue hl  => exact .inr (.inr ⟨.inl ⟨_, rfl, find_none.mp hf, hl⟩, rfl⟩)
      case isFalse hl =>
        have hfull : Full T s (.capture incoming) ↔
            maxPacketBytes < T.size (encode (s.apply (.capture incoming))) :=
          or_iff_right fun h => hl h.choose_spec.2.2
        rw [hfull, State.apply, hf, not_lt]
        exact .inr (write_eq T _)

theorem Entry.merge_valid (h : validEntry T item) (h' : validEntry T incoming) : validEntry T (item.merge incoming) := by
  obtain ⟨hf, hl, hle, hc⟩ := h
  obtain ⟨hf', hl', -⟩ := h'
  refine ⟨(min_le_left _ _).trans_lt hf, max_lt hl hl', ?_, hc⟩
  exact (min_le_left _ _).trans (hle.trans (le_max_left _ _))

theorem mem_apply_capture (hv : Valid T s) : e ∈ (s.apply (.capture incoming)).entries ↔
    (∃ item ∈ s.entries, item.id = incoming.id ∧ e = item.merge incoming) ∨
    (e ∈ s.entries ∧ e.id ≠ incoming.id) ∨
    ((∀ item ∈ s.entries, item.id ≠ incoming.id) ∧ e = incoming) := by
  rw [State.apply]
  cases hf : Records.find (·.id) incoming.id s.entries
  case none =>
    have hn := find_none.mp hf
    simp only [List.mem_append, List.mem_singleton]
    constructor
    · rintro (he | rfl)
      · exact .inr (.inl ⟨he, hn e he⟩)
      · exact .inr (.inr ⟨hn, rfl⟩)
    · rintro (⟨item, hi, h, -⟩ | ⟨he, -⟩ | ⟨-, rfl⟩)
      · exact absurd h (hn item hi)
      · exact .inl he
      · exact .inr rfl
  case some x =>
    have hx := Records.find_mem hf
    have hk : x.id = incoming.id := Records.find_key hf
    simp only []
    rw [Records.mem_change_iff hv.ids hf]
    constructor
    · rintro (rfl | h)
      · exact .inl ⟨x, hx, hk, rfl⟩
      · exact .inr (.inl h)
    · rintro (⟨item, hi, h, rfl⟩ | h | ⟨hn, -⟩)
      · refine .inl (congrArg (fun item : Entry => item.merge incoming) ?_)
        have := Records.find_of_mem hv.ids hi
        rw [h, hf] at this
        exact (Option.some.inj this).symm
      · exact .inr h
      · exact absurd hk (hn x hx)

theorem Valid.apply (hv : Valid T s) (ho : op.Valid T) (hf : ¬ Full T s op) : Valid T (s.apply op) := by
  cases op
  case attempt a =>
    rw [State.apply]
    split
    case isTrue  => exact hv
    case isFalse => exact ⟨hv.length, hv.entries, hv.ids, fun a' ha => by cases ha; exact ho⟩
  case capture incoming =>
    have hall : ∀ e ∈ (s.apply (.capture incoming)).entries, validEntry T e := by
      intro e he
      rcases (mem_apply_capture hv).mp he with ⟨item, hi, -, rfl⟩ | ⟨he, -⟩ | ⟨-, rfl⟩
      · exact Entry.merge_valid (hv.entries item hi) ho
      · exact hv.entries e he
      · exact ho
    rw [State.apply] at hall ⊢
    cases hx : Records.find (·.id) incoming.id s.entries
    case some x =>
      simp only [hx] at hall ⊢
      have hk : x.id = incoming.id := Records.find_key hx
      have hids := Records.map_change (f := fun e : Entry => e.merge incoming) hx hk
      have hlen := congrArg List.length hids
      rw [List.length_map, List.length_map] at hlen
      exact ⟨hlen ▸ hv.length, hall, hids ▸ hv.ids, hv.attempt⟩
    case none =>
      simp only [hx] at hall ⊢
      have hn := find_none.mp hx
      refine ⟨?_, hall, ?_, hv.attempt⟩
      · have : s.entries.length < maxCaptures := not_le.mp fun h => hf (.inl ⟨_, rfl, hn, h⟩)
        rwa [List.length_append]
      · rw [List.map_append, List.nodup_append]
        refine ⟨hv.ids, by simp, fun i hi j hj he => ?_⟩
        obtain ⟨item, hm, rfl⟩ := List.mem_map.mp hi
        rw [List.map_singleton, List.mem_singleton] at hj
        exact hn item hm (he.trans hj)

theorem Short.apply (hv : Valid T s) (hs : Short s) (ho : op.Short) : Short (s.apply op) := by
  cases op
  case attempt a =>
    rw [State.apply]
    split
    case isTrue  => exact hs
    case isFalse => exact ⟨hs.entries, fun a' ha => by cases ha; exact ho⟩
  case capture incoming =>
    refine ⟨fun e he => ?_, fun a ha => hs.attempt a ?_⟩
    · rcases (mem_apply_capture hv).mp he with ⟨item, hi, -, rfl⟩ | ⟨he, -⟩ | ⟨-, rfl⟩
      · exact max_lt (hs.entries item hi) ho
      · exact hs.entries e he
      · exact ho
    · rw [State.apply] at ha
      split at ha <;> exact ha

theorem Listed.apply (hs : Listed s) (ho : op.Listed) : Listed (s.apply op) := by
  cases op
  case attempt a =>
    rw [State.apply]
    split
    case isTrue  => exact hs
    case isFalse =>
      intro a' ha
      cases ha
      exact ho
  case capture incoming =>
    rw [State.apply]
    split <;> exact hs

-- What the script writes is accepted again if and only if its attempt lists an issue.
theorem script_accepted (h : history T raw = .ok s) (hs : Short s) (hv : op.Valid T) (ho : op.Short)
    (hw : captureHistoryScript T raw op = .ok (raw', 1)) :
    (history T raw').isOk = true ↔ Listed (s.apply op) := by
  have ⟨_, hvalid⟩ := decode_of_history h
  rcases script_cases h op with ⟨_, _, _, he⟩ | ⟨hf, he⟩ | ⟨_, he⟩
  · rw [he] at hw
    cases hw
  · rw [he] at hw
    cases hw
    have hsize : T.size (encode (s.apply op)) ≤ maxPacketBytes := not_lt.mp fun h => hf (.inr h)
    have ⟨h₁, h₂⟩ := history_encode (hvalid.apply hv hf) (.apply hvalid hs ho) hsize
    refine ⟨h₂, fun hl => ?_⟩
    rw [h₁ hl]
    rfl
  · rw [he] at hw
    cases hw

end Script

section Merging

variable {P : Set Capture}

-- The times at which a content was captured.
def times (T : Texts) (P : Set Capture) (id : Digest) : Set ℕ :=
  {t | ∃ c ∈ P, T.contentId c.content = id ∧ c.fetchedAt = t}

theorem times_insert_self (c : Capture) (P : Set Capture) :
    times T (insert c P) (itemOf T c).id = insert c.fetchedAt (times T P (itemOf T c).id) := by
  ext t
  simp only [times, Set.mem_ofPred_eq, Set.mem_insert_iff, or_and_right, exists_or, exists_eq_left]
  exact or_congr_left ((and_iff_right rfl).trans eq_comm)

theorem times_insert_ne {id : Digest} (h : id ≠ (itemOf T c).id) : times T (insert c P) id = times T P id := by
  ext t
  simp only [times, Set.mem_ofPred_eq, Set.mem_insert_iff, or_and_right, exists_or, exists_eq_left]
  exact or_iff_right fun hc => h hc.1.symm

-- The entries are the distinct contents of the captures, each with its first and its last time.
structure Merged (T : Texts) (P : Set Capture) (s : State) : Prop where
  ids   : ∀ id, (∃ e ∈ s.entries, e.id = id) ↔ ∃ c ∈ P, T.contentId c.content = id
  first : ∀ e ∈ s.entries, IsLeast (times T P e.id) e.first
  last  : ∀ e ∈ s.entries, IsGreatest (times T P e.id) e.last

theorem merged_empty (T : Texts) : Merged T ∅ ⟨[], none⟩ := ⟨by simp, by simp, by simp⟩

theorem Merged.covers (h : Merged T P s) (he : e ∈ s.entries) (hc : c ∈ P) (hid : T.contentId c.content = e.id) :
    e.first ≤ c.fetchedAt ∧ c.fetchedAt ≤ e.last :=
  ⟨(h.first e he).2 ⟨c, hc, hid, rfl⟩, (h.last e he).2 ⟨c, hc, hid, rfl⟩⟩

theorem Merged.attempt (h : Merged T P s) (a : Attempt) : Merged T P (s.apply (.attempt a)) := by
  rw [State.apply]
  split
  · exact h
  · exact ⟨h.ids, h.first, h.last⟩

-- A capture is merged with what there is of its content, in whatever order they come.
theorem Merged.capture (hv : Valid T s) (h : Merged T P s) (c : Capture) :
    Merged T (insert c P) (s.apply (.capture (itemOf T c))) := by
  have hmem (e : Entry) := @mem_apply_capture T _ e (itemOf T c) hv
  have hnew (hn : ∀ item ∈ s.entries, item.id ≠ (itemOf T c).id) : times T P (itemOf T c).id = ∅ := by
    refine Set.eq_empty_iff_forall_notMem.mpr fun t ⟨c', hc', hid, _⟩ => ?_
    obtain ⟨item, hi, he⟩ := (h.ids _).mpr ⟨c', hc', hid⟩
    exact hn item hi he
  refine ⟨fun id => ?_, fun e he => ?_, fun e he => ?_⟩
  · simp only [Set.mem_insert_iff, or_and_right, exists_or, exists_eq_left, ← h.ids]
    constructor
    · rintro ⟨e, he, rfl⟩
      rcases (hmem e).mp he with ⟨item, -, hi, rfl⟩ | ⟨he, -⟩ | ⟨-, rfl⟩
      · exact .inl hi.symm
      · exact .inr ⟨e, he, rfl⟩
      · exact .inl rfl
    · rintro (hid | ⟨e, he, rfl⟩)
      · by_cases hn : ∀ item ∈ s.entries, item.id ≠ (itemOf T c).id
        · exact ⟨itemOf T c, (hmem _).mpr (.inr (.inr ⟨hn, rfl⟩)), hid⟩
        · push Not at hn
          obtain ⟨item, hi, hk⟩ := hn
          exact ⟨item.merge (itemOf T c), (hmem _).mpr (.inl ⟨item, hi, hk, rfl⟩), hk.trans hid⟩
      · by_cases hk : e.id = (itemOf T c).id
        · exact ⟨e.merge (itemOf T c), (hmem _).mpr (.inl ⟨e, he, hk, rfl⟩), rfl⟩
        · exact ⟨e, (hmem _).mpr (.inr (.inl ⟨he, hk⟩)), rfl⟩
  · rcases (hmem e).mp he with ⟨item, hi, hk, rfl⟩ | ⟨he, hk⟩ | ⟨hn, rfl⟩
    · have hl := (h.first item hi).insert c.fetchedAt
      rw [hk, ← times_insert_self, min_comm, ← hk] at hl
      exact hl
    · rw [times_insert_ne hk]
      exact h.first e he
    · rw [times_insert_self, hnew hn, insert_empty_eq]
      exact isLeast_singleton
  · rcases (hmem e).mp he with ⟨item, hi, hk, rfl⟩ | ⟨he, hk⟩ | ⟨hn, rfl⟩
    · have hl := (h.last item hi).insert c.fetchedAt
      rw [hk, ← times_insert_self, max_comm, ← hk] at hl
      exact hl
    · rw [times_insert_ne hk]
      exact h.last e he
    · rw [times_insert_self, hnew hn, insert_empty_eq]
      exact isGreatest_singleton

-- What a put reads after its script.
theorem Merged.saved (hv : Valid T s) (h : Merged T P s) (hc : c ∈ P) : checkSaved T c s = .returned := by
  obtain ⟨e, he, hid⟩ := (h.ids _).mpr ⟨c, hc, rfl⟩
  have hcov := h.covers he hc hid.symm
  have hfind := Records.find_of_mem hv.ids he
  rw [checkSaved]
  rw [show (itemOf T c).id = e.id from hid.symm, hfind]
  exact if_neg (not_or.mpr ⟨not_lt.mpr hcov.1, not_lt.mpr hcov.2⟩)

end Merging

end Settlement.CaptureStore
