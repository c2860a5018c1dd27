import Flurbo.Library.Run
import Flurbo.Server.CaptureHistory

-- The key that holds the captures of a rule: a script inside of Redis writes it, servers read it.

open Except

namespace Settlement.CaptureStore

-- A list in the text of a state. The library `cjson` writes an empty one as an object.
inductive Table (α : Type)
  | array (items : List α)
  | object
  deriving DecidableEq, Repr

-- `id` is the hash of the content, whose own time is 0.
structure Entry where
  id      : Digest
  first   : ℕ
  last    : ℕ
  capture : Capture
  deriving DecidableEq, Repr

structure StoredAttempt where
  at_    : ℕ
  ok     : Bool
  issues : Table Issue
  deriving DecidableEq, Repr

structure Stored where
  entries : Table Entry
  attempt : Option StoredAttempt
  deriving DecidableEq, Repr

structure State where
  entries : List Entry
  attempt : Option Attempt
  deriving DecidableEq, Repr

-- SHA-256 of a body and of the canonical text of a content, and the length of a state's text.
structure Texts where
  digest    : String → Digest
  contentId : Capture → Digest
  size      : Stored → ℕ

inductive Failure
  | invalidCapture | invalidAttempt | future | invalidHistory | integrityFailed | capacityReached
  | persistenceFailed | crashed
  deriving DecidableEq, Repr

def maxPacketBytes : ℕ := 16000000

def maxCaptures : ℕ := 50

section Cjson

-- Numbers are printed with 14 significant digits, a half is rounded to even.
def printed (n : ℕ) : ℕ :=
  if n < 10 ^ 14 then n
  else
    let unit := 10 ^ (Nat.log 10 n - 13)
    let up := unit < 2 * (n % unit) ∨ unit = 2 * (n % unit) ∧ n / unit % 2 = 1
    (if up then n / unit + 1 else n / unit) * unit

def printedCapture (c : Capture) : Capture :=
  { c with fetchedAt := printed c.fetchedAt, status := printed c.status, bytes := printed c.bytes }

def Entry.printed (e : Entry) : Entry where
  id      := e.id
  first   := CaptureStore.printed e.first
  last    := CaptureStore.printed e.last
  capture := printedCapture e.capture

def table {α : Type} : List α → Table α
  | [] => .object
  | l  => .array l

def Table.items {α : Type} : Table α → List α
  | .array items => items
  | .object      => []

def encode (s : State) : Stored where
  entries := table (s.entries.map (·.printed))
  attempt := s.attempt.map fun a => ⟨printed a.at_, a.ok, table a.issues⟩

def decode (s : Stored) : State where
  entries := s.entries.items
  attempt := s.attempt.map fun a => ⟨a.at_, a.ok, a.issues.items⟩

end Cjson

section Script

variable (T : Texts)

inductive Operation
  | attempt (a : Attempt)
  | capture (e : Entry)

def Entry.merge (item incoming : Entry) : Entry :=
  { item with first := min item.first incoming.first, last := max item.last incoming.last }

def write (s : State) : Except Failure (Option Stored × ℕ) :=
  if maxPacketBytes < T.size (encode s) then .error .capacityReached else .ok (some (encode s), 1)

-- What the script leaves under the key, and its reply.
def captureHistoryScript (raw : Option Stored) (op : Operation) : Except Failure (Option Stored × ℕ) :=
  let state := raw.elim ⟨[], none⟩ decode
  match op with
  | .attempt a        =>
    if state.attempt.any (a.at_ < ·.at_) then .ok (raw, 0) else write T { state with attempt := some a }
  | .capture incoming =>
    match Records.find (·.id) incoming.id state.entries with
    | some _ =>
      write T { state with entries := Records.change (·.id) incoming.id (·.merge incoming) state.entries }
    | none   =>
      if state.entries.length ≥ maxCaptures then .error .capacityReached
      else write T { state with entries := state.entries ++ [incoming] }

end Script

section Reading

variable (T : Texts)

def validCapture (c : Capture) : Prop :=
  validTime c.fetchedAt ∧ c.complete = true ∧ c.status = 200 ∧ c.finalUrl = c.requestedUrl ∧
    c.contentType.isSome ∧ c.body ≠ "" ∧ c.body.utf8ByteSize ≤ 2000000 ∧ c.bytes = c.body.utf8ByteSize ∧
    T.digest c.body = c.sha256

instance decidableValidCapture (c : Capture) : Decidable (validCapture T c) :=
  inferInstanceAs (Decidable (_ ∧ _ ∧ _ ∧ _ ∧ _ ∧ _ ∧ _ ∧ _ ∧ _))

def validAttempt (a : Attempt) : Prop :=
  validTime a.at_ ∧ a.issues.length ≤ 32 ∧ (a.ok = true → a.issues = [])

instance decidableValidAttempt (a : Attempt) : Decidable (validAttempt a) :=
  inferInstanceAs (Decidable (_ ∧ _ ∧ (_ → _)))

def validEntry (e : Entry) : Prop :=
  validTime e.first ∧ validTime e.last ∧ e.first ≤ e.last ∧ e.capture.fetchedAt = 0 ∧
    validCapture T e.capture ∧ T.contentId e.capture.content = e.id

instance decidableValidEntry (e : Entry) : Decidable (validEntry T e) :=
  inferInstanceAs (Decidable (_ ∧ _ ∧ _ ∧ _ ∧ _ ∧ _))

def readAttempt : Option StoredAttempt → Except Failure (Option Attempt)
  | none                         => .ok none
  | some ⟨_, _, .object⟩         => .error .invalidAttempt
  | some ⟨at_, good, .array issues⟩ =>
    if validAttempt ⟨at_, good, issues⟩ then .ok (some ⟨at_, good, issues⟩) else .error .invalidAttempt

def history : Option Stored → Except Failure State
  | none       => .ok ⟨[], none⟩
  | some state =>
    -- Redis cjson encodes an empty Lua table as an object.
    let entries := state.entries.items
    if maxPacketBytes < T.size state ∨ entries.length > maxCaptures then .error .invalidHistory
    else if ¬ ((∀ e ∈ entries, validEntry T e) ∧ (entries.map (·.id)).Nodup) then .error .integrityFailed
    else do
      let attempt ← readAttempt state.attempt
      return ⟨entries, attempt⟩

end Reading

section Calls

variable (T : Texts)

inductive Call
  | put (c : Capture)
  | recordAttempt (a : Attempt)

inductive Phase
  | reading | writing | checking | returned
  | failed (f : Failure)
  deriving DecidableEq, Repr

def itemOf (c : Capture) : Entry := ⟨T.contentId c.content, c.fetchedAt, c.fetchedAt, c.content⟩

-- What a call checks before its first command.
def accept (now : ℕ) : Call → Phase
  | .put c           =>
    if ¬ validCapture T c then .failed .invalidCapture
    else if c.fetchedAt > now then .failed .future
    else .reading
  | .recordAttempt a =>
    if ¬ validAttempt a then .failed .invalidAttempt
    else if a.at_ > now then .failed .future
    else .reading

def Call.operation : Call → Operation
  | .put c           => .capture (itemOf T c)
  | .recordAttempt a => .attempt a

-- `merged` are the captures whose script has run.
structure World where
  raw    : Option Stored
  calls  : ℕ → Option (Call × Phase)
  merged : List Capture

def World.initial : World := ⟨none, fun _ => none, []⟩

inductive Event
  | start (n : ℕ) (call : Call) (now : ℕ)
  | proceed (n : ℕ)
  | crash (n : ℕ)

def World.setPhase (w : World) (n : ℕ) (call : Call) (p : Phase) : World :=
  { w with calls := Function.update w.calls n (some (call, p)) }

-- What a put looks for in what it has written.
def checkSaved (c : Capture) (s : State) : Phase :=
  match Records.find (·.id) (itemOf T c).id s.entries with
  | none       => .failed .persistenceFailed
  | some saved => if saved.first > c.fetchedAt ∨ saved.last < c.fetchedAt then .failed .persistenceFailed else .returned

-- One command of a call, and what the call does with its reply.
def proceed (w : World) (n : ℕ) (call : Call) : Phase → Except Unit World
  | .reading  =>
    match history T w.raw with
    | .error e => .ok (w.setPhase n call (.failed e))
    | .ok _    => .ok (w.setPhase n call .writing)
  | .writing  =>
    match captureHistoryScript T w.raw (call.operation T) with
    | .error e     => .ok (w.setPhase n call (.failed e))
    | .ok (raw, _) =>
      match call with
      | .put c           => .ok { w.setPhase n call .checking with raw := raw, merged := c :: w.merged }
      | .recordAttempt _ => .ok { w.setPhase n call .returned with raw := raw }
  | .checking =>
    match call, history T w.raw with
    | _, .error e            => .ok (w.setPhase n call (.failed e))
    | .put c, .ok s          => .ok (w.setPhase n call (checkSaved T c s))
    | .recordAttempt _, .ok _ => .error ()
  | _         => .error ()

def step (w : World) : Event → Except Unit World
  | .start n call now =>
    if (w.calls n).isSome then .error () else .ok (w.setPhase n call (accept T now call))
  | .proceed n        =>
    match w.calls n with
    | some (call, phase) => proceed T w n call phase
    | none               => .error ()
  | .crash n          =>
    match w.calls n with
    | some (call, .reading) | some (call, .writing) | some (call, .checking) =>
      .ok (w.setPhase n call (.failed .crashed))
    | _                                                                      => .error ()

end Calls

end Settlement.CaptureStore
