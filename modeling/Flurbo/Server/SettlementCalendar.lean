import Mathlib.Data.List.Basic
import Mathlib.Order.Bounds.Basic
import Flurbo.Library.Fallible

-- The three schedules of the actions that the worker may take on a resolver without a person: what it plans to
-- do next, the calendar of what it could ever do, and the times at which its monitor expects something.
-- Addresses and hashes are numbers.

namespace Resolution

inductive Phase
  | pending | asserted | disputed | finalized
  deriving DecidableEq, Repr

structure Case where
  phase             : Phase
  proposal          : ℕ
  counter           : ℕ
  result            : ℕ
  asserter          : ℕ
  evidenceHash      : ℕ
  challengeUntil    : ℕ
  voteUntil         : ℕ
  assertionDeadline : ℕ

structure Publication where
  mode            : String
  observationEnds : List ℕ

-- What is read from a resolver and its pool at one block.
structure State where
  publication        : Publication
  timestamp          : ℕ
  delivered          : Bool
  cases              : List Case
  poolCash           : ℕ
  requiredCollateral : ℕ

-- An assertion that the worker has written down as its own.
structure Owned where
  evidenceHash : ℕ
  outcome      : ℕ

abbrev Journal := ℕ → Option Owned

def journaled (owned : Journal) (event : ℕ) (c : Case) : Bool :=
  (owned event).any fun o => o.evidenceHash == c.evidenceHash && o.outcome == c.proposal

-- The cases with their ends of observation and their events.
def State.rows (s : State) : List ((Case × ℕ) × ℕ) := (s.cases.zip s.publication.observationEnds).zipIdx

-- The published rehearsal leaves its second and third event for exercises in dispute and in silence.
def rehearsed (mode : String) (event : ℕ) : Bool := mode == "rehearsal" && event ∉ [0, 3]

section Planner

inductive Action
  | complete | wait | deliver
  | finalize (event : ℕ)
  | evidence (event : ℕ)
  deriving DecidableEq, Repr

inductive Failure
  | collateralCoverage
  deriving DecidableEq, Repr

variable (owner : ℕ) (owned : Journal) (deferred : ℕ → Option ℕ) (evidence : Bool)

def caseAction (mode : String) (now : ℕ) : (Case × ℕ) × ℕ → Option Action
  | ((c, ends), event) =>
    if c.phase = .finalized then none
    else if c.phase = .pending ∧ now ≥ c.assertionDeadline ∨ c.phase = .disputed ∧ now ≥ c.voteUntil then
      some (.finalize event)
    else if c.phase = .asserted ∧ now ≥ c.challengeUntil ∧ c.asserter = owner ∧ journaled owned event c then
      some (.finalize event)
    else if evidence ∧ c.phase = .pending ∧ now ≥ ends ∧ ¬ (deferred event).any (· > now) then
      if rehearsed mode event then none else some (.evidence event)
    else
      none

def nextResolutionAction (s : State) : Except Failure Action :=
  if s.delivered then .ok .complete
  else if s.poolCash < s.requiredCollateral then .error .collateralCoverage
  else if s.cases.all (·.phase = .finalized) then .ok .deliver
  else .ok ((s.rows.findSome? (caseAction owner owned deferred evidence s.publication.mode s.timestamp)).getD .wait)

end Planner

section Calendar

inductive EntryAction
  | deliver | finalize | evidence
  deriving DecidableEq, Repr

structure CalendarEntry where
  action   : EntryAction
  event    : Option ℕ
  readyAt  : ℕ
  deadline : Option ℕ
  deriving DecidableEq, Repr

inductive WatchReason
  | ownAssertion | foreignAssertion | dispute | assertionTimeout | assertionWindow | deliveryPending
  deriving DecidableEq, Repr

structure Watch where
  event  : Option ℕ
  reason : WatchReason
  expiry : Option ℕ
  deriving DecidableEq, Repr

structure Calendar where
  timestamp : ℕ
  complete  : Bool
  entries   : List CalendarEntry
  watch     : List Watch
  deriving DecidableEq, Repr

def maxSafeInteger : ℕ := 2 ^ 53 - 1

def time (n : ℕ) : Option ℕ := if n ≤ maxSafeInteger then some n else none

-- `owned` is absent for the alarm, which cannot read the journal.
variable (owner : Option ℕ) (owned : Option Journal) (evidence : Bool)

-- A phase that a person may need to act on.
def caseWatch (timestamp : ℕ) : (Case × ℕ) × ℕ → Option (List Watch)
  | ((c, ends), event) =>
    match c.phase with
    | .asserted  => do
      let expiry ← time c.challengeUntil
      return [⟨event, if owner = some c.asserter then .ownAssertion else .foreignAssertion, expiry⟩]
    | .disputed  => do
      let expiry ← time c.voteUntil
      return [⟨event, .dispute, expiry⟩]
    | .pending   => do
      if timestamp ≥ (← time ends) then
        let deadline ← time c.assertionDeadline
        return [⟨event, if timestamp ≥ deadline then .assertionTimeout else .assertionWindow, deadline⟩]
      else
        return []
    | .finalized => return []

def caseEntries (mode : String) : (Case × ℕ) × ℕ → Option (List CalendarEntry)
  | ((c, ends), event) =>
    match c.phase with
    | .finalized => return []
    | .pending   => do
      let deadline ← time c.assertionDeadline
      let proposal ← if evidence && !rehearsed mode event then do
          let readyAt ← time ends
          pure [⟨.evidence, some event, readyAt, some deadline⟩]
        else
          pure []
      return proposal ++ [⟨.finalize, some event, deadline, none⟩]
    | .asserted  =>
      -- Only the worker's own assertion. Others need supervision.
      if owner = some c.asserter ∧ owned.all (journaled · event c) then do
        let readyAt ← time c.challengeUntil
        return [⟨.finalize, some event, readyAt, none⟩]
      else
        return []
    | .disputed  => do
      let readyAt ← time c.voteUntil
      return [⟨.finalize, some event, readyAt, none⟩]

def settlementCalendar (s : State) : Option Calendar := do
  if s.cases.length ≠ s.publication.observationEnds.length then
    none
  else
    let timestamp ← time s.timestamp
    if s.delivered then
      return ⟨timestamp, true, [], []⟩
    else
      let final := s.cases.all (·.phase = .finalized)
      let watch ← s.rows.mapM (caseWatch owner timestamp)
      let entries ← s.rows.mapM (caseEntries owner owned evidence s.publication.mode)
      return {
        timestamp := timestamp
        complete  := false
        entries   := (if final then [⟨.deliver, none, 0, none⟩] else []) ++ entries.flatten
        watch     := watch.flatten ++ if final then [⟨none, .deliveryPending, none⟩] else []
      }

-- A proposal of evidence is only useful before its deadline; finishing actions never expire.
def CalendarEntry.due (e : CalendarEntry) (now : ℕ) : Bool :=
  decide (e.readyAt ≤ now) && e.deadline.all (now < ·)

def dueEntries (calendar : Calendar) (now : ℕ) : List CalendarEntry := calendar.entries.filter (·.due now)

def nextWake (calendars : List Calendar) (now : ℕ) : Option ℕ :=
  ((calendars.flatMap fun c => c.entries.map (·.readyAt)).filter (· > now)).min?

end Calendar

section Monitor

structure Timing where
  closesAt        : ℕ
  observationEnds : List ℕ
  assertionPeriod : ℕ

-- The state with what the monitor reads besides.
structure Monitored extends State where
  resolved : Bool
  timing   : Timing

inductive Lifecycle
  | settled | tradingOpen | tradingClosed
  deriving DecidableEq, Repr

structure ReportEvent where
  event    : ℕ
  phase    : Phase
  deadline : Option ℕ

structure Report where
  checkedAt : ℕ
  timestamp : ℕ
  lifecycle : Lifecycle
  timing    : Timing
  events    : List ReportEvent

def reportEvent (timing : Timing) (chainTime : ℕ) : (Case × ℕ) × ℕ → Option ReportEvent
  | ((c, ends), event) => do
    let observationEnd ← time ends
    let assertionDeadline ← time c.assertionDeadline
    let challengeUntil ← time c.challengeUntil
    let voteUntil ← time c.voteUntil
    if observationEnd ≤ timing.closesAt ∨ assertionDeadline ≠ observationEnd + timing.assertionPeriod ∨
        c.phase = .asserted ∧ (c.proposal = 0 ∨ challengeUntil = 0) ∨
        c.phase = .disputed ∧ (c.proposal = 0 ∨ c.counter = 0 ∨ voteUntil = 0) ∨
        c.phase = .finalized ∧ c.result = 0 then
      none
    else
      let deadline := match c.phase with
        | .finalized => none
        | .pending   => some (if chainTime ≥ observationEnd then assertionDeadline else observationEnd)
        | .asserted  => some challengeUntil
        | .disputed  => some voteUntil
      return ⟨event, c.phase, deadline⟩

def settlementReport (s : Monitored) (now : ℕ) : Option Report := do
  let checkedAt ← time now
  let chainTime ← time s.timestamp
  if (checkedAt : ℤ) - chainTime > 180 ∨ (chainTime : ℤ) - checkedAt > 15 then none
  else if s.cases.length ≠ s.publication.observationEnds.length ∨
      s.timing.observationEnds.length ≠ s.cases.length ∨ s.delivered ≠ s.resolved then
    none
  else
    let closesAt ← time s.timing.closesAt
    let events ← (s.cases.zip s.timing.observationEnds).zipIdx.mapM (reportEvent s.timing chainTime)
    if s.delivered ∧ s.cases.any (·.phase ≠ .finalized) then
      none
    else
      let lifecycle := if s.delivered then .settled else if chainTime < closesAt then .tradingOpen else .tradingClosed
      return ⟨checkedAt, chainTime, lifecycle, s.timing, events⟩

inductive Due
  | none
  | time (seconds : ℕ)
  deriving DecidableEq, Repr

-- When the worker next needs to act: now if an answer can be asserted or all of them be delivered, and else at
-- the next end of an observation, of a challenge or of a vote.
def nextDueAt (report : Report) : Due :=
  if report.lifecycle = .settled then .none
  else
    let times := (report.events.filter (·.phase ≠ .finalized)).map fun e =>
      if e.phase = .pending then max report.timestamp (report.timing.observationEnds.getD e.event 0)
      else max report.timestamp (e.deadline.getD 0)
    .time (times.min?.getD report.timestamp)

-- What is remembered of the last check of a pool.
structure Seen where
  checkedAt : ℕ
  nextDueAt : Option Due

def poolRecheckSeconds : ℤ := 480

def dueSoonSeconds : ℤ := 900

def skipCheck (seen : Seen) (now : ℕ) : Bool :=
  match seen.nextDueAt with
  | some .none     => true
  | some (.time t) => (t : ℤ) - now > dueSoonSeconds && (now : ℤ) - seen.checkedAt < poolRecheckSeconds &&
      now ≥ seen.checkedAt
  | none           => false

def isIdle (seen : Seen) (now : ℕ) : Bool :=
  if (now : ℤ) - seen.checkedAt > 600 || seen.checkedAt > now then
    false
  else
    match seen.nextDueAt with
    | some .none     => true
    | some (.time t) => (t : ℤ) - now > 300
    | none           => false

-- The pools that the worker need not read.
def idlePools (schedule : List (ℕ × Seen)) (now : ℕ) : List ℕ :=
  (schedule.filter fun row => isIdle row.2 now).map Prod.fst

end Monitor

end Resolution
