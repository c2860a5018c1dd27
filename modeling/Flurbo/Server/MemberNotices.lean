import Flurbo.Library.Program

-- Notices to members about their own positions. Any number of ticks run at once, on any number of
-- servers; every Redis command, answer and message is one step. What the chain, the trade index, the
-- contacts and the preferences answer is arbitrary at each of them. Texts of messages are left out.

namespace MemberNotices

abbrev Account := ℕ

def hour : ℕ := 3600
def day : ℕ := 24 * hour
def sentTtl : ℕ := 90 * day
def reminderAfter : ℕ := 72 * hour
def closingBefore : ℕ := 2 * hour

-- The identifiers of notices.
inductive Stage
  | closing (pool : ℕ)
  | challenge (pool event challengeUntil : ℕ)
  | payout (pool : ℕ)
  | reminder (pool : ℕ)
  deriving DecidableEq, Repr

structure Preferences where
  payouts    : Bool := true
  challenges : Bool := true
  closing    : Bool := false
  deriving DecidableEq, Repr

-- What a member saved, over the defaults.
structure Saved where
  payouts    : Option Bool
  challenges : Option Bool
  closing    : Option Bool
  deriving DecidableEq, Repr

def Preferences.ofSaved : Option Saved → Preferences
  | none   => {}
  | some s => ⟨s.payouts.getD true, s.challenges.getD true, s.closing.getD false⟩

-- The consent that a notice needs.
def Preferences.allows (p : Preferences) : Stage → Bool
  | .closing _              => p.closing
  | .challenge ..           => p.challenges
  | .payout _ | .reminder _ => p.payouts

structure Case where
  phase          : ℕ
  challengeUntil : ℕ

structure Status where
  resolved  : Bool
  delivered : Bool
  cases     : List Case

-- A claim that a member holds.
structure Row where
  scope       : ℕ
  payoutAtoms : Option ℕ

structure Pool where
  id       : ℕ
  closesAt : ℕ

abbrev Held := List (Account × List Row)

-- Why nothing more is due to an account for a stage.
inductive Reason
  | emailed
  | optedOut (prefs : Preferences)
  | noEmail (contacts : List Account)
  deriving DecidableEq, Repr

structure Handled where
  stage   : Stage
  account : Account
  reason  : Reason
  deriving DecidableEq, Repr

-- `existsSent` and `send` carry the number of their tick, and `setDone` whom it was due to and what became
-- of them. Nothing reads these.
inductive Command
  | now
  | status (pool : ℕ)
  | getDone (stage : Stage)
  | holdings (pool : ℕ)
  | contacts (accounts : List Account)
  | preferences (account : Account)
  | existsSent (n : ℕ) (stage : Stage) (account : Account)
  | incr (day : ℕ)
  | expire (day : ℕ)
  | send (n : ℕ) (account : Account) (items : List Stage)
  | setSent (stage : Stage) (account : Account)
  | setDone (stage : Stage) (t : ℕ) (accounts : List Account) (handled : List Handled)

@[reducible]
def Command.Reply : Command → Type
  | now           => ℕ
  | status _      => Status
  | getDone _     => Option ℕ
  | holdings _    => Option Held
  | contacts _    => List Account
  | preferences _ => Option Saved
  | .existsSent ..    => Bool
  | incr _        => ℕ
  | _             => Unit

abbrev Tick (α : Type) := Program Command.Reply Unit α

def issue (c : Command) : Tick c.Reply := Program.call c

section Stages

def closingStages (pool : Pool) (status : Status) (t : ℕ) : List Stage :=
  if !status.resolved ∧ pool.closesAt ≤ t + closingBefore ∧ t + 300 < pool.closesAt then
    [.closing pool.id]
  else []

def challengeStages (pool : Pool) (status : Status) (t : ℕ) : List Stage :=
  status.cases.zipIdx.filterMap fun (c, event) =>
    if c.phase = 1 ∧ c.challengeUntil > t + 600 then some (.challenge pool.id event c.challengeUntil)
    else none

-- A reminder is due if the payout notices are long done. A time of zero does not count.
def reminderStages (pool : Pool) (first : Option ℕ) (t : ℕ) : List Stage :=
  if first.any fun first => first ≠ 0 ∧ first + reminderAfter ≤ t then [.reminder pool.id] else []

def payoutStages (pool : Pool) (status : Status) (t : ℕ) : Tick (List Stage) :=
  if status.delivered ∧ status.resolved then do
    let first ← issue (.getDone (.payout pool.id))
    pure (.payout pool.id :: reminderStages pool first t)
  else pure []

def openStages : List Stage → Tick (List Stage)
  | []            => pure []
  | stage :: rest => do
    let done ← issue (.getDone stage)
    let others ← openStages rest
    pure (if done = none then stage :: others else others)

def dueStages (pool : Pool) (t : ℕ) : Tick (List Stage) := do
  let status ← issue (.status pool.id)
  let payouts ← payoutStages pool status t
  openStages (closingStages pool status t ++ challengeStages pool status t ++ payouts)

def relevant (stage : Stage) (rows : List Row) : Bool :=
  match stage with
  | .payout _ | .reminder _ => (rows.map (·.payoutAtoms.getD 0)).sum > 0
  | .challenge _ event _    => rows.any (·.scope.testBit (event % 32))
  | .closing _              => !rows.isEmpty

end Stages

-- What is due to whom, and whom each stage concerns.
structure Batch where
  pending       : List (Account × List Stage)
  stageAccounts : List (Stage × List Account)

namespace Batch

variable (b : Batch)

def add (stage : Stage) (account : Account) : Batch :=
  { b with pending :=
      if b.pending.any (·.1 = account) then
        b.pending.map fun p => if p.1 = account then (p.1, p.2 ++ [stage]) else p
      else b.pending ++ [(account, [stage])] }

def concern (stage : Stage) (accounts : List Account) : Batch :=
  { b with stageAccounts :=
      if b.stageAccounts.any (·.1 = stage) then
        b.stageAccounts.map fun p => if p.1 = stage then (stage, accounts) else p
      else b.stageAccounts ++ [(stage, accounts)] }

def collect (stages : List Stage) (held : Held) : Batch :=
  stages.foldl (fun b stage =>
    let accounts := (held.filter fun h => relevant stage h.2).map (·.1)
    (accounts.foldl (fun b account => b.add stage account) b).concern stage accounts) b

end Batch

section Ticks

def readPool (pool : Pool) (t : ℕ) : Tick (Option (List Stage × Held)) := do
  let stages ← dueStages pool t
  if stages = [] then pure none
  else do
    let held ← issue (.holdings pool.id)
    pure (held.map fun held => (stages, held))

-- A pool that cannot be read is left out.
def gather (t : ℕ) : List Pool → Batch → Tick Batch
  | [], b           => pure b
  | pool :: rest, b => do
    let found ← (readPool pool t).recover fun _ => pure none
    gather t rest (found.elim b fun (stages, held) => b.collect stages held)

def screen (n : ℕ) (account : Account) (prefs : Preferences) :
    List Stage → Tick (List Stage × List Handled)
  | []            => pure ([], [])
  | stage :: rest =>
    if prefs.allows stage then do
      let sent ← issue (.existsSent n stage account)
      let (items, handled) ← screen n account prefs rest
      pure (if sent then (items, ⟨stage, account, .emailed⟩ :: handled) else (stage :: items, handled))
    else do
      let (items, handled) ← screen n account prefs rest
      pure (items, ⟨stage, account, .optedOut prefs⟩ :: handled)

def record (account : Account) : List Stage → Tick (List Handled)
  | []            => pure []
  | stage :: rest => do
    let _ ← issue (.setSent stage account)
    let handled ← record account rest
    pure (⟨stage, account, .emailed⟩ :: handled)

-- Whether the provider took the message.
def deliver (n : ℕ) (account : Account) (items : List Stage) : Tick Bool :=
  (do
    let _ ← issue (.send n account items)
    pure true : Tick Bool).recover fun _ => pure false

def mail (n : ℕ) (account : Account) (items : List Stage) : Tick (List Handled) := do
  let accepted ← deliver n account items
  if accepted then record account items else pure []

-- What was handled for one account, and whether the daily limit was reached.
def notify (n t dailyLimit : ℕ) (contacts : List Account) (account : Account) (all : List Stage) :
    Tick (List Handled × Bool) := do
  let saved ← issue (.preferences account)
  let (items, handled) ← screen n account (.ofSaved saved) all
  if items = [] then pure (handled, false)
  else if account ∉ contacts then
    pure (handled ++ items.map (⟨·, account, .noEmail contacts⟩), false)
  else do
    let count ← issue (.incr (t / day))
    let _ ← issue (.expire (t / day))
    if count > dailyLimit then pure (handled, true)
    else do
      let recorded ← mail n account items
      pure (handled ++ recorded, false)

def notifyAll (n t dailyLimit : ℕ) (contacts : List Account) :
    List (Account × List Stage) → List Handled → Tick (List Handled)
  | [], handled                     => pure handled
  | (account, all) :: rest, handled => do
    let (more, capped) ← notify n t dailyLimit contacts account all
    if capped then pure (handled ++ more) else notifyAll n t dailyLimit contacts rest (handled ++ more)

def handles (handled : List Handled) (stage : Stage) (account : Account) : Bool :=
  handled.any fun h => h.stage = stage ∧ h.account = account

-- A stage is finished once every account it concerns was emailed, opted out or has no verified email.
def finish (t : ℕ) (handled : List Handled) : List (Stage × List Account) → Tick Unit
  | []                        => pure ()
  | (stage, accounts) :: rest =>
    if accounts.all (handles handled stage) then do
      let _ ← issue (.setDone stage t accounts handled)
      finish t handled rest
    else finish t handled rest

def readContacts (pending : List (Account × List Stage)) : Tick (List Account) :=
  if pending = [] then pure [] else issue (.contacts (pending.map (·.1)))

def tick (n dailyLimit : ℕ) (pools : List Pool) : Tick Unit := do
  let t ← issue .now
  let b ← gather t pools ⟨[], []⟩
  if b.stageAccounts = [] then pure ()
  else do
    let contacts ← readContacts b.pending
    let handled ← notifyAll n t dailyLimit contacts b.pending []
    finish t handled b.stageAccounts

end Ticks

-- A message that reached its account.
structure Email where
  account : Account
  items   : List Stage
  at_     : ℕ
  deriving DecidableEq, Repr

structure Mark where
  stage    : Stage
  accounts : List Account
  handled  : List Handled
  deriving DecidableEq, Repr

-- Records are kept with the time they were last written, and live for `sentTtl` from then. `looked` is
-- what a tick found instead of a living record, when it last did: the time of a dead one, if any.
structure Store where
  clock  : ℕ
  sent   : Stage → Account → Option ℕ
  done   : Stage → Option (ℕ × ℕ)
  emails : List Email
  looked : ℕ → Stage → Account → Option (Option ℕ)
  marks  : List Mark

def Store.initial (clock : ℕ) : Store :=
  ⟨clock, fun _ _ => none, fun _ => none, [], fun _ _ _ => none, []⟩

namespace Store

variable (s : Store)

def alive (written : ℕ) : Bool := s.clock < written + sentTtl

-- The provider drops a message whose idempotency key it has accepted in the last day. Keys are hashes
-- of the account and the notices in order, and stand for them.
def repeats (account : Account) (items : List Stage) (e : Email) : Bool :=
  e.account = account ∧ e.items.isPerm items ∧ s.clock < e.at_ + day

def look (n : ℕ) (stage : Stage) (account : Account) : Store :=
  { s with looked := fun m i a =>
      if m = n ∧ i = stage ∧ a = account then some (s.sent stage account) else s.looked m i a }

def deliver (account : Account) (items : List Stage) : Store :=
  { s with emails := ⟨account, items, s.clock⟩ :: s.emails }

def setSent (stage : Stage) (account : Account) : Store :=
  { s with sent := fun i a => if i = stage ∧ a = account then some s.clock else s.sent i a }

def setDone (stage : Stage) (t : ℕ) (accounts : List Account) (handled : List Handled) : Store :=
  { s with
    done  := fun i =>
      if i = stage ∧ !(s.done stage).any (s.alive ·.2) then some (t, s.clock) else s.done i
    marks := ⟨stage, accounts, handled⟩ :: s.marks }

end Store

def perform (s : Store) : (c : Command) → c.Reply → Store × c.Reply
  | .now, _                         => (s, s.clock)
  | .status _, r                    => (s, r)
  | .getDone stage, _               =>
    (s, (s.done stage).bind fun (t, written) => if s.alive written then some t else none)
  | .holdings _, r                  => (s, r)
  | .contacts _, r                  => (s, r)
  | .preferences _, r               => (s, r)
  | .existsSent n stage account, _  =>
    if (s.sent stage account).any s.alive then (s, true) else (s.look n stage account, false)
  | .incr _, r                      => (s, r)
  | .expire _, _                    => (s, ())
  | .send _ account items, _        =>
    if s.emails.any (s.repeats account items) then (s, ()) else (s.deliver account items, ())
  | .setSent stage account, _       => (s.setSent stage account, ())
  | .setDone stage t accounts handled, _ => (s.setDone stage t accounts handled, ())

structure Query where
  dailyLimit : ℕ
  pools      : List Pool

-- Nothing happens by itself but that time passes.
def service : Program.Service Store Command.Reply Unit Query ℕ where
  perform   := perform
  broken    := ()
  code n q  := tick n q.dailyLimit q.pools
  drift s d := { s with clock := s.clock + d }

end MemberNotices
