import Flurbo.Library.Run
import Flurbo.Server.CaptureHistory

-- The collection of the sources of one rule, by any number of runs at once. The sources of a run are
-- retrieved concurrently, and each is stored on its own.

open Except

namespace Settlement

inductive Status
  | waitingForSnapshotWindow | snapshotRetained | captured
  | unresolved (issues : List Issue)
  deriving DecidableEq, Repr

-- The retrieval of one source.
inductive Task
  | fetching
  | storing (c : Capture)
  | ended (issue : Option Issue)
  deriving DecidableEq, Repr

inductive Phase
  | listing (at_ : ℕ)
  | attempting (tasks : Url → Task)
  | recording (attempt : Attempt) (status : Status)

-- A run of a worker, which may belong to a process that remembers what is retained.
structure Collecting where
  process : Option ℕ
  phase   : Phase

structure Collection where
  clock   : ℕ
  history : History
  cache   : ℕ → Bool
  runs    : ℕ → Option Collecting
  reports : List Status

inductive Fate
  | done | failed | lost
  deriving DecidableEq, Repr

-- What a source answers: a complete response, or an issue.
structure Response where
  contentType : Option String
  body        : String
  deriving DecidableEq, Repr

inductive Action
  | tick (d : ℕ)
  | start (n : ℕ) (process : Option ℕ) (delivered : Bool) (phase : ℕ)
  | list (n : ℕ) (fate : Fate)
  | fetch (n : ℕ) (url : Url) (response : Except Issue Response)
  | store (n : ℕ) (url : Url) (fate : Fate)
  | settle (n : ℕ)
  | record (n : ℕ) (fate : Fate)
  | crash (n : ℕ)
  | restart (process : ℕ)

def Collection.initial (clock : ℕ) : Collection :=
  ⟨clock, .empty, fun _ => false, fun _ => none, []⟩

section Step

variable (R : Readers) (rule : Rule)

-- What `collect` accepts as the snapshot of a rule.
def usable (at_ : ℕ) (c : Capture) : Bool :=
  match parseSettlementCapture R rule c at_ with
  | .error _ => false
  | .ok s    => inWindow rule s ∧ s.record.publishedAt ≤ rule.timing.publicationCutoff

def retrieved (url : Url) (at_ : ℕ) (r : Response) : Capture where
  requestedUrl := url
  finalUrl     := url
  fetchedAt    := at_
  status       := 200
  contentType  := r.contentType
  complete     := true
  bytes        := r.body.utf8ByteSize
  body         := r.body
  sha256       := R.digest r.body

-- A source that was retrieved is parsed before it is stored.
def fetched (url : Url) (now : ℕ) : Except Issue Response → Task
  | .error e => .ended (some e)
  | .ok r    =>
    match parseSettlementCapture R rule (retrieved R url now r) now with
    | .error e => .ended (some e)
    | .ok _    => .storing (retrieved R url now r)

def Task.issue : Task → Option Issue
  | .ended issue => issue
  | _            => none

def Task.isEnded : Task → Bool
  | .ended _ => true
  | _        => false

variable (w : Collection)

def Collection.proceed (n : ℕ) (run : Collecting) (phase : Phase) : Collection :=
  { w with runs := Function.update w.runs n (some { run with phase }) }

def Collection.leave (n : ℕ) : Collection :=
  { w with runs := Function.update w.runs n none }

def Collection.report (n : ℕ) (status : Status) : Collection :=
  { w.leave n with reports := status :: w.reports }

def retainedAttempt (at_ : ℕ) : Attempt := ⟨at_, true, []⟩

def started (n : ℕ) (process : Option ℕ) (delivered : Bool) (phase : ℕ) : Collection :=
  let at_ := w.clock
  if delivered ∨ phase ≠ 0 ∨ at_ ≥ rule.timing.observationEndsAt + rule.timing.assertionPeriod then w
  else if rule.vintage = .firstObservedSnapshot then
    if at_ < rule.timing.scheduledAt then w.report n .waitingForSnapshotWindow
    else if process.any w.cache then
      w.proceed n ⟨process, .listing at_⟩ (.recording (retainedAttempt at_) .snapshotRetained)
    else w.proceed n ⟨process, .listing at_⟩ (.listing at_)
  else w.proceed n ⟨process, .listing at_⟩ (.attempting fun _ => .fetching)

def Collection.remember (process : Option ℕ) : Collection :=
  match process with
  | none   => w
  | some p => { w with cache := Function.update w.cache p true }

-- One usable capture of any source is enough.
def listed (n : ℕ) (run : Collecting) (at_ : ℕ) : Collection :=
  if w.history.list.any (usable R rule at_) then
    (w.remember run.process).proceed n run (.recording (retainedAttempt at_) .snapshotRetained)
  else if at_ > rule.timing.publicationCutoff then
    w.proceed n run (.recording ⟨at_, false, [.snapshotWindowMissed]⟩ (.unresolved [.snapshotWindowMissed]))
  else w.proceed n run (.attempting fun _ => .fetching)

-- A capture that may have been stored although its worker saw a failure.
def stored (n : ℕ) (run : Collecting) (tasks : Url → Task) (url : Url) (c : Capture) (fate : Fate) :
    Collection :=
  let failed := Phase.attempting (Function.update tasks url (.ended (some .sourceCaptureFailed)))
  match fate, w.history.put c with
  | .failed, _           => w.proceed n run failed
  | _, none              => w.proceed n run failed
  | .lost, some history => { w with history }.proceed n run failed
  | .done, some history =>
    { w with history }.proceed n run (.attempting (Function.update tasks url (.ended none)))

def settled (n : ℕ) (run : Collecting) (tasks : Url → Task) : Collection :=
  let issues := (rule.source.urls.filterMap fun url => (tasks url).issue).dedup
  w.proceed n run <| .recording ⟨w.clock, issues = [], issues⟩
    (if issues = [] then .captured else .unresolved issues)

def recorded (n : ℕ) (attempt : Attempt) (status : Status) (fate : Fate) : Collection :=
  let w' := { w with history := w.history.recordAttempt attempt }
  match fate with
  | .failed => w.leave n
  | .lost   => w'.leave n
  | .done   => w'.report n status

def Collection.restart (process : ℕ) : Collection where
  clock   := w.clock
  history := w.history
  cache   := Function.update w.cache process false
  runs n  := (w.runs n).filter (·.process ≠ some process)
  reports := w.reports

def collect : Action → Except Unit Collection
  | .tick d => .ok { w with clock := w.clock + d }
  | .start n process delivered phase =>
    match w.runs n with
    | none   => .ok (started rule w n process delivered phase)
    | some _ => .error ()
  | .list n fate =>
    match w.runs n with
    | some run@⟨_, .listing at_⟩ =>
      .ok (if fate = .done then listed R rule w n run at_ else w.leave n)
    | _ => .error ()
  | .fetch n url response =>
    match w.runs n with
    | some run@⟨_, .attempting tasks⟩ =>
      if url ∈ rule.source.urls ∧ tasks url = .fetching then
        .ok (w.proceed n run
          (.attempting (Function.update tasks url (fetched R rule url w.clock response))))
      else .error ()
    | _ => .error ()
  | .store n url fate =>
    match w.runs n with
    | some run@⟨_, .attempting tasks⟩ =>
      match tasks url with
      | .storing c => .ok (stored w n run tasks url c fate)
      | _          => .error ()
    | _ => .error ()
  | .settle n =>
    match w.runs n with
    | some run@⟨_, .attempting tasks⟩ =>
      if rule.source.urls.all fun url => (tasks url).isEnded then .ok (settled rule w n run tasks)
      else .error ()
    | _ => .error ()
  | .record n fate =>
    match w.runs n with
    | some ⟨_, .recording attempt status⟩ => .ok (recorded w n attempt status fate)
    | _ => .error ()
  | .crash n => .ok (w.leave n)
  | .restart process => .ok (w.restart process)

end Step

end Settlement
