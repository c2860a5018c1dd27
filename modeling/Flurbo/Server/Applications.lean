import Flurbo.Library.Run

-- Applications for access: the database function that every action on them is one transaction of.
-- A missing value makes a comparison neither true nor false, and what is not true is not taken.
-- Times are in microseconds.

open Except

namespace Applications

abbrev Uuid := ℕ

inductive State
  | unverified | pending | approved | declined | revoked | withdrawn
  deriving DecidableEq, Repr

inductive Decision
  | approved | declined | revoked
  deriving DecidableEq, Repr

def Decision.state : Decision → State
  | approved => .approved
  | declined => .declined
  | revoked  => .revoked

def Decision.text : Decision → String
  | approved => "approved"
  | declined => "declined"
  | revoked  => "revoked"

def Decision.ofText (s : String) : Option Decision :=
  [approved, declined, revoked].find? (·.text = s)

-- A row of `flurbo_applications`. Rows come from submissions, which set `sent_at` and `send_day`.
structure Row where
  email          : Option String
  state          : State
  decision       : Option Decision
  verifiedAt     : Option ℕ
  createdAt      : ℕ
  revision       : ℕ
  codeHash       : Option String
  codeExpires    : Option ℕ
  attempts       : ℕ
  sentAt         : ℕ
  sendDay        : ℕ
  sends          : ℕ
  notificationId : Option Uuid
  notificationAt : Option ℕ
  notified       : Bool
  deriving DecidableEq, Repr

inductive Notice
  | none | sent | needsReview | pending
  deriving DecidableEq, Repr

structure View where
  email        : Option String
  state        : State
  verified     : Bool
  createdAt    : ℕ
  revision     : ℕ
  notification : Notice
  deriving DecidableEq, Repr

def second : ℕ := 10 ^ 6
def minute : ℕ := 60 * second
def hour : ℕ := 60 * minute

def currentDate (now : ℕ) : ℕ := now / (24 * hour)

def Row.expired (a : Row) (now : ℕ) : Bool :=
  a.notificationAt.any (· + 23 * hour < now)

def Row.view (a : Row) (now : ℕ) : View where
  email        := a.email
  state        := a.state
  verified     := a.verifiedAt.isSome
  createdAt    := a.createdAt
  revision     := a.revision
  notification :=
    if a.notificationId = none then .none else if a.notified then .sent
    else if a.expired now then .needsReview else .pending

-- What an action is given: the fields of `p_data`.
structure Data where
  email    : Option String := none
  codeHash : Option String := none
  decision : Option String := none
  operator : Option String := none
  revision : Option ℕ      := none
  id       : Option String := none

inductive Action
  | submit | verify | withdraw | decide | notification | notified
  deriving DecidableEq, Repr

inductive Reply
  | submitted (application : View) (send : Bool)
  | application (application : View)
  | notification (id : Uuid) (email : Option String) (expired : Bool)
  | nothing
  | refused (status : ℕ) (error : String)
  deriving DecidableEq, Repr

-- What undoes a transaction.
inductive Failure
  | invalidSubmission | invalidDecision | invalidId | outOfRange | missing
  deriving DecidableEq, Repr

def lowerHex (c : Char) : Bool := c.isDigit || ('a' ≤ c && c ≤ 'f')

def isDigest (s : String) : Bool := s.length = 64 && s.toList.all lowerHex

def isAccount (s : String) : Bool :=
  s.length = 42 && s.toList.take 2 = ['0', 'x'] && (s.toList.drop 2).all lowerHex

def same {α : Type} [DecidableEq α] : Option α → Option α → Bool
  | some a, some b => a = b
  | _, _           => false

def differ {α : Type} [DecidableEq α] : Option α → Option α → Bool
  | some a, some b => a ≠ b
  | _, _           => false

-- An integer column, one higher.
def increment (n : ℕ) : Except Failure ℕ :=
  if n + 1 < 2 ^ 31 then .ok (n + 1) else .error .outOfRange

def hexDigit (c : Char) : Option ℕ :=
  if c.isDigit then some (c.toNat - '0'.toNat)
  else if 'a' ≤ c && c ≤ 'f' then some (c.toNat - 'a'.toNat + 10)
  else if 'A' ≤ c && c ≤ 'F' then some (c.toNat - 'A'.toNat + 10)
  else none

-- Groups of four digits, with or without hyphens between them.
def uuidGroups : ℕ → Uuid → List Char → Option Uuid
  | 0, value, rest                          => if rest = [] then some value else none
  | n + 1, value, c₁ :: c₂ :: c₃ :: c₄ :: rest => do
    let group ← [c₁, c₂, c₃, c₄].foldlM (fun v c => (hexDigit c).map (v * 16 + ·)) 0
    uuidGroups n (value * 16 ^ 4 + group) (if n ≠ 0 ∧ rest.head? = some '-' then rest.tail else rest)
  | _, _, _                                 => none

def castUuid (s : String) : Option Uuid :=
  match s.toList with
  | '\x7b' :: rest => if rest.getLast? = some '\x7d' then uuidGroups 8 0 rest.dropLast else none
  | text           => uuidGroups 8 0 text

abbrev Result := Except Failure (Option Row × Reply)

section Actions

variable (now : ℕ) (data : Data)

def invalidSubmission : Bool :=
  data.email.any (·.length > 254) || data.codeHash.any (!isDigest ·)

def Data.row : Row where
  email          := data.email
  state          := .unverified
  decision       := none
  verifiedAt     := none
  createdAt      := now
  revision       := 0
  codeHash       := data.codeHash
  codeExpires    := some (now + 10 * minute)
  attempts       := 0
  sentAt         := now
  sendDay        := currentDate now
  sends          := 1
  notificationId := none
  notificationAt := none
  notified       := false

def Row.resubmitted (a : Row) (revision : ℕ) : Row :=
  { a with
    email       := data.email
    state       := .unverified
    verifiedAt  := none
    codeHash    := data.codeHash
    codeExpires := some (now + 10 * minute)
    attempts    := 0
    sentAt      := now
    sendDay     := currentDate now
    sends       := if a.sendDay = currentDate now then a.sends + 1 else 1
    revision    := revision }

def submit : Option Row → Result
  | none   =>
    if invalidSubmission data then .error .invalidSubmission
    else
      let a := data.row now
      .ok (some a, .submitted (a.view now) true)
  | some a =>
    if a.state ∈ [.approved, .declined, .revoked] then
      .ok (some a, .refused 409 "This application already has a decision. Contact the team if it needs review.")
    else if a.state = .pending ∧ same a.email data.email then
      .ok (some a, .submitted (a.view now) false)
    else if a.sentAt + minute > now then
      .ok (some a, .refused 429 "Wait one minute before requesting another code.")
    else if a.sendDay = currentDate now ∧ a.sends ≥ 5 then
      .ok (some a, .refused 429 "Daily email limit reached. Try again tomorrow.")
    else if invalidSubmission data then .error .invalidSubmission
    else do
      let revision ← increment a.revision
      let a := a.resubmitted now data revision
      .ok (some a, .submitted (a.view now) true)

def mismatch : Reply := .refused 400 "The code did not match. Check your email and try again."

def Row.verified (a : Row) (revision : ℕ) : Row :=
  { a with
    state       := .pending
    verifiedAt  := some now
    codeHash    := none
    codeExpires := none
    revision    := revision }

def verify (a : Row) : Result :=
  if a.state ≠ .unverified ∨ a.codeHash = none ∨ a.codeExpires.any (· ≤ now) ∨ a.attempts ≥ 5 then
    .ok (some a, .refused 400 "This code is no longer available. Request a new code.")
  else
    let counted := { a with attempts := a.attempts + 1 }
    if differ a.codeHash data.codeHash then .ok (some counted, mismatch)
    else do
      let revision ← increment a.revision
      let a := counted.verified now revision
      .ok (some a, .application (a.view now))

def Row.withdrawn (a : Row) (revision : ℕ) : Row :=
  { a with
    state          := .withdrawn
    email          := none
    verifiedAt     := none
    codeHash       := none
    codeExpires    := none
    notificationId := none
    notificationAt := none
    revision       := revision }

def withdraw (a : Row) : Result :=
  if a.decision = some .approved then
    .ok (some a, .refused 409
      "Approved accounts cannot withdraw an application. Contact the team for account deletion.")
  else do
    let revision ← increment a.revision
    let a := a.withdrawn revision
    .ok (some a, .application (a.view now))

def Row.decided (a : Row) (fresh : Uuid) (d : Decision) (revision : ℕ) : Row :=
  { a with
    decision       := some d
    state          := d.state
    codeHash       := none
    codeExpires    := none
    notificationId := if d = .approved then some fresh else none
    notificationAt := if d = .approved then some now else none
    notified       := false
    revision       := revision }

def decide (fresh : Uuid) (a : Row) : Result :=
  if data.revision.any (· ≥ 2 ^ 31) then .error .outOfRange
  else if differ (some a.revision) data.revision then
    .ok (some a, .refused 409 "This application changed. Refresh before deciding.")
  else if data.decision.any (Decision.ofText · = none) || data.operator.any (!isAccount ·) then
    .error .invalidDecision
  else if data.decision = some "approved" ∧ (a.verifiedAt = none ∨ a.state = .withdrawn) then
    .ok (some a, .refused 409 "Verify the email before approving.")
  else if same (a.decision.map (·.text)) data.decision then .ok (some a, .application (a.view now))
  else do
    let revision ← increment a.revision
    -- The columns of the decision, and of the operator in the audit, admit no missing value.
    match data.decision.bind Decision.ofText, data.operator with
    | some d, some _ =>
      let a := a.decided now fresh d revision
      .ok (some a, .application (a.view now))
    | _, _           => .error .missing

def notification (a : Row) : Result :=
  match a.notificationId with
  | some id =>
    if a.decision.any (· ≠ .approved) ∨ a.notified then .ok (some a, .nothing)
    else .ok (some a, .notification id a.email (a.expired now))
  | none    => .ok (some a, .nothing)

def notified (a : Row) : Result :=
  match data.id with
  | none      => .ok (some a, .nothing)
  | some text =>
    match castUuid text with
    | none    => .error .invalidId
    | some id =>
      .ok (some (if a.notificationId = some id then { a with notified := true } else a), .nothing)

def flurboApplication (fresh : Uuid) (row : Option Row) : Action → Result
  | .submit => submit now data row
  | action  =>
    match row with
    | none   => .ok (none, .refused 404 "Application not found.")
    | some a =>
      match action with
      | .submit       => submit now data row
      | .verify       => verify now data a
      | .withdraw     => withdraw now a
      | .decide       => decide now data fresh a
      | .notification => notification now a
      | .notified     => notified data a

end Actions

-- The transactions that the service asks for on one account. It never leaves out a field.
inductive Call
  | submit (email codeHash : String)
  | verify (codeHash : String)
  | withdraw
  | decide (decision operator : String) (revision : ℕ)
  | notification
  | notified (id : String)
  deriving DecidableEq, Repr

def Call.action : Call → Action
  | submit ..    => .submit
  | verify _     => .verify
  | withdraw     => .withdraw
  | decide ..    => .decide
  | notification => .notification
  | notified _   => .notified

def Call.data : Call → Data
  | submit email codeHash      => { email := some email, codeHash := some codeHash }
  | verify codeHash            => { codeHash := some codeHash }
  | decide d operator revision => { decision := some d, operator := some operator, revision := some revision }
  | notified id                => { id := some id }
  | _                          => {}

-- A transaction that was not undone.
structure Entry where
  at_    : ℕ
  call   : Call
  before : Option Row
  reply  : Reply
  after  : Option Row
  deriving DecidableEq, Repr

-- `past` is what happened, the latest first.
structure World where
  clock : ℕ
  row   : Option Row
  past  : List Entry
  deriving DecidableEq, Repr

def World.initial (clock : ℕ) : World := ⟨clock, none, []⟩

-- A call, the time since the one before, and the random id that it may draw.
structure Event where
  elapsed : ℕ
  call    : Call
  fresh   : Uuid
  deriving DecidableEq, Repr

def step (w : World) (e : Event) : Except Failure World := do
  let now := w.clock + e.elapsed
  let (row, reply) ← flurboApplication now e.call.data e.fresh w.row e.call.action
  .ok ⟨now, row, ⟨now, e.call, w.row, reply, row⟩ :: w.past⟩

end Applications
