import Flurbo.Library.Run
import Mathlib.Algebra.Order.Field.Rat
import Mathlib.Data.List.Count
import Mathlib.Data.List.TakeWhile
import Mathlib.Tactic.Linarith

-- The request scheduler of the client. A step is what runs between two points at which the code
-- awaits: a call of `run` or `cooldown`, a timer, an abort, or the continuation of a call whose pause
-- or whose work has settled. Steps come in any order, and every reading of the clock is a part of
-- the step that makes it. Times are exact numbers of milliseconds, the rounding of doubles is left out.

namespace RequestScheduler

structure Config where
  concurrency : ℕ
  queueLimit  : ℕ
  perWindow   : ℕ
  windowMs    : ℚ

-- The value of a `Retry-After` header. Numbers that are not finite are `none`.
inductive RetryAfter
  | absent
  | seconds (n : Option ℚ)
  | date (ms : Option ℚ)

def retryAfterMs (value : RetryAfter) (now : ℚ) : ℚ :=
  match value with
  | .absent           => 0
  | .seconds (some n) => max 0 (n * 1000)
  | .date (some ms)   => max 0 (ms - now)
  | _                 => 0

-- Where a call stands. A pause is settled by its timer or by an abort, and the call goes on later.
inductive Phase
  | refused
  | paused (ms : Option ℚ)
  | woken
  | rejected
  | thrown
  | working
  | finished
  deriving DecidableEq

namespace Phase

def waits : Phase → Bool
  | paused _ | woken | rejected => true
  | _                           => false

def works : Phase → Bool
  | working => true
  | _       => false

-- The call has waited and waits no more.
def hasLeft : Phase → Bool
  | thrown | working | finished => true
  | _                           => false

def hasFinished : Phase → Bool
  | finished => true
  | _        => false

end Phase

structure Call where
  signal : Option ℕ
  phase  : Phase

-- What happened: a work starts, either `finally` block runs, or a cooldown is set.
inductive Event
  | started (call : ℕ) (time : ℚ)
  | left (call : ℕ)
  | finished (call : ℕ)
  | cooldown (ends : ℚ)
  deriving DecidableEq

-- The variables of the scheduler, followed by the clock as last read, the signals that are aborted,
-- the calls in the order in which they were made and the record of what happened.
structure State where
  active       : ℤ
  waiting      : ℤ
  blockedUntil : ℚ
  starts       : List ℚ
  clock        : ℚ
  aborted      : List ℕ
  calls        : List Call
  journal      : List Event

def initial (clock : ℚ) : State :=
  ⟨0, 0, 0, [], clock, [], [], []⟩

namespace State

def isAborted (s : State) (signal : Option ℕ) : Bool :=
  signal.any (· ∈ s.aborted)

def setPhase (s : State) (i : ℕ) (phase : Phase) : State :=
  { s with calls := s.calls.modify i ({ · with phase }) }

-- `finally { waiting--; }`
def leave (s : State) (i : ℕ) (phase : Phase) : State :=
  { s.setPhase i phase with waiting := s.waiting - 1, journal := s.journal ++ [.left i] }

-- `finally { active--; }`
def finish (s : State) (i : ℕ) : State :=
  { s.setPhase i .finished with active := s.active - 1, journal := s.journal ++ [.finished i] }

def start (s : State) (i : ℕ) (t : ℚ) : State :=
  { s with active := s.active + 1, starts := s.starts ++ [t], journal := s.journal ++ [.started i t] }

def pause (s : State) (i : ℕ) (ms : Option ℚ) (signal : Option ℕ) : State :=
  s.setPhase i (if s.isAborted signal then .rejected else .paused ms)

end State

section Steps

variable (cfg : Config)

-- There is no first start to wait for when nothing may start at all, and the length is no number then.
def pauseMs (s : State) (t : ℚ) : Option ℚ :=
  if cfg.perWindow ≤ s.starts.length then
    s.starts.head?.map fun first => min 1000 (max 10 (max (s.blockedUntil - t) (first + cfg.windowMs - t)))
  else
    some (min 1000 (max 10 (max (s.blockedUntil - t) 10)))

def shift (s : State) (t : ℚ) : State :=
  { s with starts := s.starts.dropWhile (· ≤ t - cfg.windowMs), clock := t }

-- The body of the loop after it has read the clock.
def attempt (s : State) (i : ℕ) (signal : Option ℕ) (t : ℚ) : State :=
  let s := shift cfg s t
  if s.active < cfg.concurrency ∧ s.starts.length < cfg.perWindow ∧ s.blockedUntil ≤ t then
    (s.start i t).leave i .working
  else
    s.pause i (pauseMs cfg s t) signal

-- One round of the loop. Reading the clock may fail, and it never runs backwards.
def round (s : State) (i : ℕ) (signal : Option ℕ) (now : Option ℚ) : Except Unit State :=
  if s.isAborted signal then
    .ok (s.leave i .thrown)
  else
    match now with
    | none   => .ok (s.leave i .thrown)
    | some t => if t < s.clock then .error () else .ok (attempt cfg s i signal t)

-- A paused call is told of the abort, and no other.
def Call.abort (signal : ℕ) (c : Call) : Call :=
  match c.phase with
  | .paused _ => if c.signal = some signal then { c with phase := .rejected } else c
  | _         => c

inductive Action
  | run (signal : Option ℕ) (now : Option ℚ)
  | fire (call : ℕ)
  | abort (signal : ℕ)
  | resume (call : ℕ) (now : Option ℚ)
  | finish (call : ℕ)
  | cooldown (value : RetryAfter) (now later : ℚ)

-- An action that cannot happen in a state is an error.
def step (s : State) : Action → Except Unit State
  | .run signal now =>
    if s.waiting ≥ cfg.queueLimit then
      .ok { s with calls := s.calls ++ [⟨signal, .refused⟩] }
    else
      round cfg { s with waiting := s.waiting + 1, calls := s.calls ++ [⟨signal, .woken⟩] }
        s.calls.length signal now
  | .fire i =>
    match s.calls[i]? with
    | some ⟨_, .paused _⟩ => .ok (s.setPhase i .woken)
    | _                   => .error ()
  | .abort signal =>
    .ok { s with aborted := signal :: s.aborted, calls := s.calls.map (Call.abort signal) }
  | .resume i now =>
    match s.calls[i]? with
    | some ⟨signal, .woken⟩ => round cfg s i signal now
    | some ⟨_, .rejected⟩   => .ok (s.leave i .thrown)
    | _                     => .error ()
  | .finish i =>
    match s.calls[i]? with
    | some ⟨_, .working⟩ => .ok (s.finish i)
    | _                  => .error ()
  | .cooldown value now later =>
    if now < s.clock ∨ later < now then
      .error ()
    else
      let ms := retryAfterMs value later
      let ends := now + if ms = 0 then 1000 else ms
      .ok { s with blockedUntil := max s.blockedUntil ends, clock := later,
                   journal := s.journal ++ [.cooldown ends] }

end Steps

section Moves

variable {cfg : Config} {s s' : State} {a : Action} {c : Call} {i j : ℕ} {t : ℚ}

-- What a step does, one change at a time.
inductive Move (cfg : Config) (s : State) : State → Prop
  | refuse (signal : Option ℕ) : Move cfg s { s with calls := s.calls ++ [⟨signal, .refused⟩] }
  | enqueue (signal : Option ℕ) (h : s.waiting < cfg.queueLimit) :
    Move cfg s { s with waiting := s.waiting + 1, calls := s.calls ++ [⟨signal, .woken⟩] }
  | settle {i : ℕ} {c : Call} {phase : Phase} (hc : s.calls[i]? = some c) (hw : c.phase.waits)
    (hp : phase.waits) : Move cfg s (s.setPhase i phase)
  | throws {i : ℕ} {c : Call} (hc : s.calls[i]? = some c) (hw : c.phase.waits) :
    Move cfg s (s.leave i .thrown)
  | shift {t : ℚ} (h : s.clock ≤ t) : Move cfg s (shift cfg s t)
  | start {i : ℕ} {c : Call} (hc : s.calls[i]? = some c) (hw : c.phase.waits)
    (ha : s.active < cfg.concurrency) (hl : s.starts.length < cfg.perWindow)
    (hb : s.blockedUntil ≤ s.clock) : Move cfg s ((s.start i s.clock).leave i .working)
  | abort (signal : ℕ) :
    Move cfg s { s with aborted := signal :: s.aborted, calls := s.calls.map (Call.abort signal) }
  | finish {i : ℕ} {c : Call} (hc : s.calls[i]? = some c) (hw : c.phase = .working) :
    Move cfg s (s.finish i)
  | cooldown (ends : ℚ) {t : ℚ} (h : s.clock ≤ t) :
    Move cfg s { s with blockedUntil := max s.blockedUntil ends, clock := t,
                        journal := s.journal ++ [.cooldown ends] }

theorem attempt_moves (hc : s.calls[i]? = some c) (hw : c.phase.waits) (h : s.clock ≤ t) :
    Relation.ReflTransGen (Move cfg) s (attempt cfg s i c.signal t) := by
  have hshift : Relation.ReflTransGen (Move cfg) s (shift cfg s t) := .single (.shift h)
  simp only [attempt]
  split
  case isTrue hg  => exact hshift.tail (.start hc hw hg.left hg.right.left hg.right.right)
  case isFalse    =>
    refine hshift.tail (.settle hc hw ?_)
    split <;> rfl

theorem round_moves {now : Option ℚ} (hc : s.calls[i]? = some c) (hw : c.phase.waits)
    (h : round cfg s i c.signal now = .ok s') : Relation.ReflTransGen (Move cfg) s s' := by
  unfold round at h
  split at h
  case isTrue  => cases h; exact .single (.throws hc hw)
  case isFalse =>
    cases now
    case none   => cases h; exact .single (.throws hc hw)
    case some t =>
      rcases lt_or_ge t s.clock with ht | ht
      · simp [ht] at h
      · simp only [not_lt.mpr ht, if_false] at h
        cases h
        exact attempt_moves hc hw ht

theorem step_moves (h : step cfg s a = .ok s') : Relation.ReflTransGen (Move cfg) s s' := by
  cases a
  case run signal now =>
    simp only [step] at h
    split at h
    case isTrue     => cases h; exact .single (.refuse signal)
    case isFalse hq =>
      refine .head (.enqueue signal (not_le.mp hq)) ?_
      exact round_moves (c := ⟨signal, .woken⟩) (by simp) rfl h
  case fire i =>
    simp only [step] at h
    split at h
    case h_1 hc => cases h; exact .single (.settle hc rfl rfl)
    case h_2    => cases h
  case abort signal => cases h; exact .single (.abort signal)
  case resume i now =>
    simp only [step] at h
    split at h
    case h_1 signal hc => exact round_moves hc rfl h
    case h_2 hc        => cases h; exact .single (.throws hc rfl)
    case h_3           => cases h
  case finish i =>
    simp only [step] at h
    split at h
    case h_1 hc => cases h; exact .single (.finish hc rfl)
    case h_2    => cases h
  case cooldown value now later =>
    simp only [step] at h
    split at h
    case isTrue     => cases h
    case isFalse hn =>
      rw [not_or, not_lt, not_lt] at hn
      cases h
      exact .single (.cooldown _ (hn.left.trans hn.right))

-- What every change preserves holds after every run.
theorem run_of_moves {I : State → Prop} (h₀ : I s) (hm : ∀ s s', I s → Move cfg s s' → I s')
    (as : List Action) : I (Run.run (step cfg) s as) := by
  refine Run.run_invariant h₀ fun s s' a _ hs h => ?_
  have hmoves := step_moves h
  clear h
  induction hmoves
  case refl            => exact hs
  case tail _ hlast hi => exact hm _ _ hi hlast

end Moves

section Invariants

variable {cfg : Config} {s s' : State} {c : Call} {i j : ℕ} {phase : Phase} {p : Phase → Bool}

theorem getElem?_setPhase : (s.setPhase i phase).calls[j]? =
    if i = j then s.calls[j]?.map ({ · with phase }) else s.calls[j]? := by
  rw [State.setPhase, List.getElem?_modify]
  split <;> simp

theorem countP_setPhase (hc : s.calls[i]? = some c) :
    (s.setPhase i phase).calls.countP (p ·.phase) + (if p c.phase then 1 else 0) =
      s.calls.countP (p ·.phase) + if p phase then 1 else 0 := by
  have ⟨hi, he⟩ := List.getElem?_eq_some_iff.mp hc
  have hcount := List.getElem_mem hi
  have hset : (s.setPhase i phase).calls = s.calls.set i { c with phase } := by
    rw [State.setPhase, List.modify_eq_set_getElem? , hc]
    rfl
  rw [hset, List.countP_set hi, he]
  have hpos : p c.phase → 0 < s.calls.countP (p ·.phase) := fun h =>
    List.countP_pos_iff.mpr ⟨c, he ▸ hcount, h⟩
  split_ifs with h₁ h₂ h₂
  all_goals try have := hpos h₁
  all_goals omega

-- Whether the call `i` stands at a phase of a kind.
def State.stands (s : State) (p : Phase → Bool) (i : ℕ) : Bool :=
  s.calls[i]?.any (p ·.phase)

theorem stands_setPhase (hc : s.calls[i]? = some c) (hcalls : s'.calls = (s.setPhase i phase).calls) :
    s'.stands p j = if i = j then p phase else s.stands p j := by
  rw [State.stands, hcalls, getElem?_setPhase]
  split
  case isTrue h  => subst h; simp [hc]
  case isFalse   => rfl

theorem stands_append (hcalls : s'.calls = s.calls ++ [c]) (hp : p c.phase = false) :
    s'.stands p j = s.stands p j := by
  rw [State.stands, State.stands, hcalls]
  rcases lt_or_ge j s.calls.length with h | h
  · rw [List.getElem?_append_left h]
  · rw [List.getElem?_append_right h, List.getElem?_eq_none h]
    cases j - s.calls.length <;> simp [hp]

-- A counter is the number of the calls at a phase of a kind.
def Counts (s : State) (n : ℤ) (p : Phase → Bool) : Prop :=
  n = s.calls.countP (p ·.phase)

theorem Counts.append {n n' : ℤ} (h : Counts s n p) (hcalls : s'.calls = s.calls ++ [c])
    (hn : n' = n + if p c.phase then 1 else 0) : Counts s' n' p := by
  unfold Counts at *
  rw [hn, h, hcalls, List.countP_append, List.countP_singleton]
  split_ifs <;> simp

theorem Counts.move {n n' : ℤ} (h : Counts s n p) (hc : s.calls[i]? = some c)
    (hcalls : s'.calls = (s.setPhase i phase).calls)
    (hn : n' + (if p c.phase then 1 else 0) = n + if p phase then 1 else 0) : Counts s' n' p := by
  have hcount : (s.setPhase i phase).calls.countP (p ·.phase) + _ = _ + _ := countP_setPhase hc
  unfold Counts at *
  rw [hcalls]
  split_ifs at hn hcount <;> omega

-- The calls at a phase of a kind are those with an event, which none has twice.
def Once (s : State) (event : ℕ → Event) (p : Phase → Bool) : Prop :=
  ∀ i, s.journal.count (event i) = if s.stands p i then 1 else 0

theorem Once.append {event : ℕ → Event} (h : Once s event p) (hcalls : s'.calls = s.calls ++ [c])
    (hp : p c.phase = false) (hj : s'.journal = s.journal) : Once s' event p := by
  intro i
  rw [hj, stands_append hcalls hp]
  exact h i

theorem Once.move {event : ℕ → Event} (h : Once s event p) (hc : s.calls[i]? = some c)
    (hcalls : s'.calls = (s.setPhase i phase).calls)
    (hj : ∀ j, s'.journal.count (event j) + (if i = j ∧ p c.phase then 1 else 0) =
      s.journal.count (event j) + if i = j ∧ p phase then 1 else 0) : Once s' event p := by
  intro j
  have hj := hj j
  have hs : s.stands p i = p c.phase := by simp [State.stands, hc]
  rw [h j] at hj
  rw [stands_setPhase hc hcalls]
  by_cases he : i = j
  · subst he
    simp only [hs, true_and, if_true] at hj ⊢
    omega
  · simpa [he] using hj

-- The two counters are the numbers of waiting and of active calls, and every call has released what
-- it holds no more, once.
structure Tracked (cfg : Config) (s : State) : Prop where
  waiting    : Counts s s.waiting Phase.waits
  active     : Counts s s.active Phase.works
  waiting_le : s.waiting ≤ cfg.queueLimit
  active_le  : s.active ≤ cfg.concurrency
  left       : Once s .left Phase.hasLeft
  finished   : Once s .finished Phase.hasFinished

-- An abort moves a paused call to another phase at which it waits.
theorem abort_phase {signal : ℕ} (h : ∀ ms, p (.paused ms) = p .rejected) :
    p (Call.abort signal c).phase = p c.phase := by
  unfold Call.abort
  split
  case h_1 ms hc => split <;> simp [hc, h]
  case h_2       => rfl

theorem Counts.abort {n : ℤ} {signal : ℕ} (h : Counts s n p)
    (hcalls : s'.calls = s.calls.map (Call.abort signal))
    (hp : ∀ ms, p (.paused ms) = p .rejected) : Counts s' n p := by
  unfold Counts at *
  rw [h, hcalls, List.countP_map]
  simp only [Function.comp_def, abort_phase hp]

theorem Once.abort {event : ℕ → Event} {signal : ℕ} (h : Once s event p)
    (hcalls : s'.calls = s.calls.map (Call.abort signal)) (hj : s'.journal = s.journal)
    (hp : ∀ ms, p (.paused ms) = p .rejected) : Once s' event p := by
  intro i
  rw [hj, h i, State.stands, State.stands, hcalls, List.getElem?_map, Option.any_map]
  simp only [abort_phase hp]

@[simp]
theorem Phase.thrown_kinds : (thrown.waits = false ∧ thrown.works = false) ∧
    thrown.hasLeft = true ∧ thrown.hasFinished = false := by decide

@[simp]
theorem Phase.working_kinds : (working.waits = false ∧ working.works = true) ∧
    working.hasLeft = true ∧ working.hasFinished = false := by decide

@[simp]
theorem Phase.finished_kinds : (finished.waits = false ∧ finished.works = false) ∧
    finished.hasLeft = true ∧ finished.hasFinished = true := by decide

theorem Phase.of_waits {phase : Phase} (h : phase.waits) :
    phase.works = false ∧ phase.hasLeft = false ∧ phase.hasFinished = false := by
  cases phase <;> first | exact ⟨rfl, rfl, rfl⟩ | cases h

theorem Tracked.step (h : Tracked cfg s) (hm : Move cfg s s') : Tracked cfg s' := by
  cases hm
  case refuse signal =>
    exact ⟨h.waiting.append rfl (by simp [Phase.waits]), h.active.append rfl (by simp [Phase.works]),
      h.waiting_le, h.active_le, h.left.append rfl rfl rfl, h.finished.append rfl rfl rfl⟩
  case enqueue signal hq =>
    exact ⟨h.waiting.append rfl (by simp [Phase.waits]), h.active.append rfl (by simp [Phase.works]),
      hq, h.active_le, h.left.append rfl rfl rfl, h.finished.append rfl rfl rfl⟩
  case settle hc hw hp =>
    have hw' := Phase.of_waits hw
    have hp' := Phase.of_waits hp
    exact ⟨h.waiting.move hc rfl (by simp [hw, hp, State.setPhase]),
      h.active.move hc rfl (by simp [hw', hp', State.setPhase]), h.waiting_le, h.active_le,
      h.left.move hc rfl (by simp [hw', hp', State.setPhase]),
      h.finished.move hc rfl (by simp [hw', hp', State.setPhase])⟩
  case throws hc hw =>
    have hw' := Phase.of_waits hw
    refine ⟨h.waiting.move hc rfl ?_, h.active.move hc rfl ?_, ?_, h.active_le, h.left.move hc rfl ?_,
      h.finished.move hc rfl ?_⟩
    · simp [hw, State.leave]
    · simp [hw', State.leave, State.setPhase]
    · have := h.waiting_le
      simp only [State.leave]
      omega
    · simp [hw', State.leave, List.count_singleton]
    · simp [hw', State.leave]
  case shift ht =>
    exact ⟨h.waiting, h.active, h.waiting_le, h.active_le, h.left, h.finished⟩
  case start i c hc hw ha hl hb =>
    have hw' := Phase.of_waits hw
    refine ⟨h.waiting.move hc rfl ?_, h.active.move hc rfl ?_, ?_, ?_, h.left.move hc rfl ?_,
      h.finished.move hc rfl ?_⟩
    · simp [hw, State.leave, State.start]
    · simp [hw', State.leave, State.setPhase, State.start]
    · have := h.waiting_le
      simp only [State.leave, State.start]
      omega
    · simp only [State.leave, State.setPhase, State.start]
      omega
    · simp [hw', State.leave, State.start, List.count_singleton]
    · simp [hw', State.leave, State.start]
  case abort signal =>
    exact ⟨h.waiting.abort rfl fun _ => rfl, h.active.abort rfl fun _ => rfl, h.waiting_le, h.active_le,
      h.left.abort rfl rfl fun _ => rfl, h.finished.abort rfl rfl fun _ => rfl⟩
  case finish i c hc hw =>
    refine ⟨h.waiting.move hc rfl ?_, h.active.move hc rfl ?_, h.waiting_le, ?_, h.left.move hc rfl ?_,
      h.finished.move hc rfl ?_⟩
    · simp [hw, State.finish, State.setPhase]
    · simp [hw, State.finish]
    · have := h.active_le
      simp only [State.finish]
      omega
    · simp [hw, State.finish]
    · simp [hw, State.finish, List.count_singleton]
  case cooldown ends t ht =>
    refine ⟨h.waiting, h.active, h.waiting_le, h.active_le, fun i => ?_, fun i => ?_⟩
    · rw [List.count_append, List.count_singleton, if_neg (by simp), h.left i]
      rfl
    · rw [List.count_append, List.count_singleton, if_neg (by simp), h.finished i]
      rfl

end Invariants

section Times

variable {cfg : Config} {s s' : State}

def Event.startTime? : Event → Option ℚ
  | started _ t => some t
  | _           => none

def State.startTimes (s : State) : List ℚ :=
  s.journal.filterMap Event.startTime?

-- The number of works that start in `(t - windowMs, t]`.
def State.startsWithin (cfg : Config) (s : State) (t : ℚ) : ℕ :=
  s.startTimes.countP fun u => t - cfg.windowMs < u ∧ u ≤ t

-- A start that comes after a cooldown is set comes after the cooldown ends.
def Cooled (earlier later : Event) : Prop :=
  ∀ ends i t, earlier = .cooldown ends → later = .started i t → ends ≤ t

-- The log of starts lacks only those that have left the window.
structure Timed (cfg : Config) (s : State) : Prop where
  logged  : ∃ past, s.startTimes = past ++ s.starts ∧ ∀ u ∈ past, u ≤ s.clock - cfg.windowMs
  within  : ∀ t, s.startsWithin cfg t ≤ cfg.perWindow
  blocked : ∀ ends, .cooldown ends ∈ s.journal → ends ≤ s.blockedUntil
  cooled  : s.journal.Pairwise Cooled

theorem Timed.of_eq (h : Timed cfg s) (hj : s'.journal = s.journal) (hs : s'.starts = s.starts)
    (hc : s'.clock = s.clock) (hb : s'.blockedUntil = s.blockedUntil) : Timed cfg s' := by
  cases s
  cases s'
  cases hj
  cases hs
  cases hc
  cases hb
  exact ⟨h.logged, h.within, h.blocked, h.cooled⟩

-- The record of a call that is over says nothing about starts and cooldowns.
theorem Timed.record {event : Event} (h : Timed cfg s) (hj : s'.journal = s.journal ++ [event])
    (he : event.startTime? = none) (hn : ∀ ends, event ≠ .cooldown ends) (hs : s'.starts = s.starts)
    (hc : s'.clock = s.clock) (hb : s'.blockedUntil = s.blockedUntil) : Timed cfg s' := by
  have htimes : s'.startTimes = s.startTimes := by simp [State.startTimes, hj, he]
  refine ⟨?_, fun t => ?_, fun ends hm => ?_, ?_⟩
  · rw [htimes, hs, hc]
    exact h.logged
  · rw [State.startsWithin, htimes]
    exact h.within t
  · rw [hj, List.mem_append, List.mem_singleton] at hm
    rw [hb]
    exact h.blocked ends (hm.resolve_right fun hm => hn ends hm.symm)
  · rw [hj, List.pairwise_append]
    refine ⟨h.cooled, List.pairwise_singleton .., fun earlier _ later hl ends i t _ hlater => ?_⟩
    rw [List.mem_singleton.mp hl] at hlater
    rw [hlater] at he
    cases he

theorem Timed.shift {t : ℚ} (h : Timed cfg s) (ht : s.clock ≤ t) : Timed cfg (shift cfg s t) := by
  have ⟨past, htimes, hpast⟩ := h.logged
  refine ⟨⟨past ++ s.starts.takeWhile (· ≤ t - cfg.windowMs), ?_, fun u hu => ?_⟩, h.within, h.blocked,
    h.cooled⟩
  · change s.startTimes = _
    rw [htimes, List.append_assoc, RequestScheduler.shift, List.takeWhile_append_dropWhile]
  · change u ≤ t - cfg.windowMs
    rcases List.mem_append.mp hu with hu | hu
    · exact (hpast u hu).trans (sub_le_sub_right ht _)
    · simpa using List.mem_takeWhile_imp hu

theorem Timed.start {i : ℕ} (h : Timed cfg s) (hl : s.starts.length < cfg.perWindow)
    (hb : s.blockedUntil ≤ s.clock) : Timed cfg (s.start i s.clock) := by
  have ⟨past, htimes, hpast⟩ := h.logged
  have htimes' : (s.start i s.clock).startTimes = s.startTimes ++ [s.clock] := by
    simp [State.start, State.startTimes, Event.startTime?]
  refine ⟨⟨past, ?_, hpast⟩, fun t => ?_, fun ends hm => ?_, ?_⟩
  · rw [htimes', htimes, List.append_assoc]
    rfl
  · rw [State.startsWithin, htimes', List.countP_append, List.countP_singleton]
    split
    case isFalse    => exact h.within t
    case isTrue hin =>
      -- The window of this start lies within the log, which has room for one more.
      rw [htimes, List.countP_append, List.countP_eq_zero.mpr fun u hu => ?_, zero_add]
      · exact (Nat.add_le_add_right List.countP_le_length 1).trans hl
      · simp only [decide_eq_true_eq] at hin ⊢
        have := hpast u hu
        exact fun hu => absurd hu.left (not_lt.mpr (this.trans (sub_le_sub_right hin.right _)))
  · simp only [State.start, List.mem_append, List.mem_singleton, reduceCtorEq, or_false] at hm
    exact h.blocked ends hm
  · rw [State.start, List.pairwise_append]
    refine ⟨h.cooled, List.pairwise_singleton .., fun earlier he later hl ends i t hearlier hlater => ?_⟩
    cases (List.mem_singleton.mp hl).symm.trans hlater
    exact (h.blocked ends (hearlier ▸ he)).trans hb

theorem Timed.cooldown {ends t : ℚ} (h : Timed cfg s) (ht : s.clock ≤ t) :
    Timed cfg { s with blockedUntil := max s.blockedUntil ends, clock := t,
                       journal := s.journal ++ [.cooldown ends] } := by
  have ⟨past, htimes, hpast⟩ := h.logged
  have htimes' : (s.journal ++ [Event.cooldown ends]).filterMap Event.startTime? = s.startTimes := by
    simp [State.startTimes, Event.startTime?]
  refine ⟨⟨past, htimes'.trans htimes, fun u hu => ?_⟩, fun t => ?_, fun e hm => ?_, ?_⟩
  · exact (hpast u hu).trans (sub_le_sub_right ht _)
  · rw [State.startsWithin, State.startTimes, htimes']
    exact h.within t
  · simp only [List.mem_append, List.mem_singleton, Event.cooldown.injEq] at hm
    exact hm.elim (fun hm => (h.blocked e hm).trans (le_max_left _ _)) fun he => he ▸ le_max_right _ _
  · rw [List.pairwise_append]
    refine ⟨h.cooled, List.pairwise_singleton .., fun earlier _ later hl _ _ _ _ hlater => ?_⟩
    cases (List.mem_singleton.mp hl).symm.trans hlater

theorem Timed.step (h : Timed cfg s) (hm : Move cfg s s') : Timed cfg s' := by
  cases hm
  case refuse signal         => exact h.of_eq rfl rfl rfl rfl
  case enqueue signal _      => exact h.of_eq rfl rfl rfl rfl
  case settle _ _ _          => exact h.of_eq rfl rfl rfl rfl
  case abort signal          => exact h.of_eq rfl rfl rfl rfl
  case shift ht              => exact h.shift ht
  case start hl hb           => exact (h.start hl hb).record rfl rfl nofun rfl rfl rfl
  case throws _ _            => exact h.record rfl rfl nofun rfl rfl rfl
  case finish _ _            => exact h.record rfl rfl nofun rfl rfl rfl
  case cooldown ends t ht    => exact h.cooldown ht

end Times

section Runs

variable {cfg : Config} {clock : ℚ}

theorem tracked_run (as : List Action) : Tracked cfg (Run.run (step cfg) (initial clock) as) := by
  refine run_of_moves ?_ (fun _ _ => Tracked.step) as
  exact ⟨rfl, rfl, Nat.cast_nonneg _, Nat.cast_nonneg _, fun _ => rfl, fun _ => rfl⟩

theorem timed_run (as : List Action) : Timed cfg (Run.run (step cfg) (initial clock) as) := by
  refine run_of_moves ?_ (fun _ _ => Timed.step) as
  exact ⟨⟨[], rfl, nofun⟩, fun _ => Nat.zero_le _, nofun, .nil⟩

-- After every run, the counters are the numbers of waiting and of active calls and are within their
-- limits, no window has more starts than it may, no start comes before the end of a cooldown that
-- was set before it, and every slot that a call no longer holds was released once.
theorem budgets_kept (cfg : Config) (clock : ℚ) (as : List Action) :
    let s := Run.run (step cfg) (initial clock) as
    (s.waiting = s.calls.countP (·.phase.waits) ∧ s.active = s.calls.countP (·.phase.works)) ∧
    (s.calls.countP (·.phase.waits) ≤ cfg.queueLimit ∧
      s.calls.countP (·.phase.works) ≤ cfg.concurrency) ∧
    (∀ t, s.startsWithin cfg t ≤ cfg.perWindow) ∧
    (∀ earlier i t later, s.journal = earlier ++ .started i t :: later →
      ∀ ends, .cooldown ends ∈ earlier → ends ≤ t) ∧
    (∀ i, s.journal.count (.left i) = if s.stands Phase.hasLeft i then 1 else 0) ∧
    ∀ i, s.journal.count (.finished i) = if s.stands Phase.hasFinished i then 1 else 0 := by
  intro s
  have htracked : Tracked cfg s := tracked_run as
  have htimed : Timed cfg s := timed_run as
  have hwaiting := htracked.waiting
  have hactive := htracked.active
  have hwaiting_le := htracked.waiting_le
  have hactive_le := htracked.active_le
  unfold Counts at hwaiting hactive
  refine ⟨⟨hwaiting, hactive⟩, ⟨by omega, by omega⟩, htimed.within, ?_, htracked.left, htracked.finished⟩
  intro earlier i t later hj ends he
  have hcooled := htimed.cooled
  rw [hj, List.pairwise_append] at hcooled
  exact hcooled.right.right _ he _ List.mem_cons_self ends i t rfl rfl

-- One work at a time and one in a window of 100 ms: the second call waits and is aborted, the third
-- finds the queue full, and the fourth has to wait for a cooldown.
theorem budgets_kept_rehearsal :
    let s := Run.run (step ⟨1, 1, 1, 100⟩) (initial 1000)
      [.run none (some 1000), .run (some 7) (some 1001), .run none none, .abort 7, .resume 1 (some 1002),
        .finish 0, .cooldown (.seconds (some 60)) 1003 1003, .run none (some 1200), .fire 3,
        .resume 3 (some 61003)]
    s.active = 1 ∧ s.waiting = 0 ∧ s.journal = [.started 0 1000, .left 0, .left 1, .finished 0,
      .cooldown 61003, .started 3 61003, .left 3] ∧ (61003 : ℚ) ≤ 61003 := by
  intro s
  have hj : s.journal = [.started 0 1000, .left 0, .left 1, .finished 0] ++
      [.cooldown 61003] ++ .started 3 61003 :: [.left 3] := by decide +kernel
  have ⟨_, _, _, hcooled, _⟩ := budgets_kept ⟨1, 1, 1, 100⟩ 1000
    [.run none (some 1000), .run (some 7) (some 1001), .run none none, .abort 7, .resume 1 (some 1002),
      .finish 0, .cooldown (.seconds (some 60)) 1003 1003, .run none (some 1200), .fire 3,
      .resume 3 (some 61003)]
  exact ⟨by decide +kernel, by decide +kernel, hj, hcooled _ _ _ _ hj _ (by simp)⟩

end Runs

end RequestScheduler
