import Flurbo.Library.Records
import Flurbo.Library.Run
import Flurbo.Sdk.Recovery

-- Live execution by any number of runtimes that share one journal. Every change of the journal is one
-- step; what the chain and the server answer between them is part of the events.

open Evm Except

namespace Sdk

structure Owner where
  pid  : ℕ
  host : String
  deriving DecidableEq, Repr

structure ReceiptRecord where
  blockNumber       : ℕ
  gasUsed           : ℕ
  effectiveGasPrice : Option ℕ
  deriving DecidableEq, Repr

structure JournalEntry extends PolicyEntry, TransactionRequest where
  id                   : String
  pool                 : Address
  deadline             : Option ℤ
  decisionId           : String
  gas                  : ℕ
  maxFeePerGas         : ℕ
  maxPriorityFeePerGas : ℕ
  nonce                : Option ℕ
  rawTransaction       : Option SignedTransaction
  signedAt             : Option ℤ
  broadcastAt          : Option ℤ
  finalAt              : Option ℤ
  receipt              : Option ReceiptRecord
  note                 : Option String
  owner                : Owner
  deriving DecidableEq, Repr

abbrev Journal := List JournalEntry

def policyEntries (j : Journal) : List PolicyEntry := j.map (·.toPolicyEntry)

def JournalEntry.isFinal (e : JournalEntry) : Bool := e.status ∉ JournalStatus.unfinished

-- The wallet of the journal, and the policy that all its runtimes follow.
structure Options where
  wallet : Address
  policy : PolicyConfig

section Plan

structure Fees where
  maxFeePerGas         : ℕ
  maxPriorityFeePerGas : ℕ
  deriving DecidableEq, Repr

-- The fees of a transaction by the answers to `eth_gasPrice` and `eth_maxPriorityFeePerGas`. The second may fail.
def fees (price : ℕ) (priority : Option ℕ) : Fees :=
  let maxFeePerGas := price * 120 / 100
  ⟨maxFeePerGas, min (priority.getD 0) maxFeePerGas⟩

-- What the chain answers before the journal is locked. `snapshot` is the journal at that time.
structure PlanView where
  simulated   : Bool
  estimateGas : Option ℕ
  fees        : Fees
  native      : ℕ
  head        : Block
  resolved    : Bool
  snapshot    : Journal
  holdings    : Claim → ℕ

-- The readings of the clock under the lock.
structure PlanTimes where
  evaluatedAt : ℤ
  quotedAt    : ℤ
  plannedAt   : ℤ

structure Plan where
  deployment  : Deployment
  intent      : Intent
  decisionId  : String
  quoteBlock  : Option Block
  slippageBps : ℕ

def maxGas : ℕ := 15_000_000

-- The gas that is planned with. Its estimate may fail.
def planGas (view : PlanView) : Except Refusal ℕ :=
  match view.estimateGas with
  | none          => .error .simulationFailed
  | some estimate =>
    let gas := estimate * 120 / 100
    if gas = 0 ∨ gas > maxGas then .error .simulationFailed else .ok gas

variable (o : Options) (p : Plan) (view : PlanView) (times : PlanTimes) (gas : ℕ) (j : Journal)

def Plan.holdings : List (Claim × ℕ) :=
  let seen := view.snapshot.filter (·.nameSpace = p.deployment.nameSpace)
  ((seen.filterMap (·.claim) ++ p.intent.claim?.toList).dedup).map fun c => (c, view.holdings c)

def Plan.market : Market where
  nameSpace  := p.deployment.nameSpace
  eventCount := p.deployment.eventCount
  closesAt   := p.deployment.closesAt
  isOpen     := ¬ view.resolved ∧ view.head.timestamp < p.deployment.closesAt
  resolved   := view.resolved

def approvalViolations (amountAtoms : ℕ) : List Violation :=
  let fee := gas * view.fees.maxFeePerGas
  let checks : List (Violation × Bool) :=
    [(.serviceLimit, amountAtoms < 1 ∨ amountAtoms > 100_000_000),
      (.marketNotAllowed, p.deployment.nameSpace ∉ o.policy.markets),
      (.gasFeeLimit, fee > o.policy.maxFeeWei),
      (.gasReserve, (view.native : ℤ) - fee < o.policy.reserveWei),
      (.pendingLimit, pendingCount (policyEntries j) ≥ o.policy.maxPending)]
  (checks.filter (·.2)).map (·.1)

def Plan.input (claim : Claim) : PolicyInput where
  policy           := o.policy
  now              := times.evaluatedAt
  market           := p.market view
  nativeBalanceWei := view.native
  holdings         := p.holdings view
  journal          := policyEntries j
  candidate        :=
    { action              := p.intent.action
      nameSpace           := p.deployment.nameSpace
      claim               := claim
      quantityAtoms       := p.intent.quantityAtoms
      limitAtoms          := p.intent.limitAtoms
      slippageBps         := p.slippageBps
      quoteBlockTimestamp := (p.quoteBlock.map (·.timestamp)).getD times.quotedAt
      gasLimit            := gas
      maxFeePerGas        := view.fees.maxFeePerGas }

def Plan.violations : List Violation :=
  match p.intent.claim? with
  | none       => approvalViolations o p view gas j p.intent.limitAtoms
  | some claim => evaluatePolicy (p.input o view times gas j claim)

def Plan.entry (tx : TransactionRequest) (id : String) (owner : Owner) : JournalEntry where
  toTransactionRequest := tx
  id                   := id
  action               := p.intent.action
  nameSpace            := p.deployment.nameSpace
  pool                 := p.deployment.pool
  claim                := p.intent.claim?
  quantityAtoms        := p.intent.quantityAtoms
  limitAtoms           := p.intent.limitAtoms
  deadline             := p.intent.deadline?
  status               := .planned
  plannedAt            := times.plannedAt
  decisionId           := p.decisionId
  gas                  := gas
  maxFeePerGas         := view.fees.maxFeePerGas
  maxPriorityFeePerGas := view.fees.maxPriorityFeePerGas
  nonce                := none
  rawTransaction       := none
  signedAt             := none
  broadcastAt          := none
  finalAt              := none
  costAtoms            := none
  receipt              := none
  note                 := none
  owner                := owner

def plan (id : String) (owner : Owner) : Except Refusal Journal := do
  let tx ← buildTransaction p.intent p.deployment
  refuseIf (¬ view.simulated) .simulationFailed
  let gas ← planGas view
  let violations := p.violations o view times gas j
  refuseIf (violations ≠ []) (.rejectedByPolicy violations)
  return j ++ [p.entry view times gas tx id owner]

end Plan

abbrev findEntry (id : String) (j : Journal) : Option JournalEntry :=
  Records.find (·.id) id j

abbrev onEntry (id : String) (f : JournalEntry → JournalEntry) (j : Journal) : Journal :=
  Records.change (·.id) id f j

section Sign

-- The intent of an entry, which its action requires to be complete.
def intentOf (e : JournalEntry) : Except Refusal Intent :=
  match e.action, e.claim, e.deadline with
  | .approve, _, _                      => return .approve e.limitAtoms
  | .redeem, some claim, _              => return .redeem claim e.quantityAtoms
  | .buy, some claim, some deadline     => return .buy claim e.quantityAtoms e.limitAtoms deadline
  | .sell, some claim, some deadline    => return .sell claim e.quantityAtoms e.limitAtoms deadline
  | _, _, _                             => .error .invalidInput

-- The highest nonce among entries that are not final, or −1.
def highest (j : Journal) : ℤ :=
  ((j.filter (!·.isFinal)).filterMap (·.nonce)).foldl (fun (m : ℤ) (n : ℕ) => max m n) (-1)

def nextNonce (pending : ℕ) (j : Journal) : ℕ :=
  (max (pending : ℤ) (highest j + 1)).toNat

def JournalEntry.signWith (e : JournalEntry) (nonce : ℕ) : SignedTransaction where
  toTransactionRequest := e.toTransactionRequest
  nonce                := nonce
  gas                  := e.gas
  maxFeePerGas         := e.maxFeePerGas
  maxPriorityFeePerGas := e.maxPriorityFeePerGas

-- `blocked` is the reason why live execution is not allowed, and `semantic` that of the semantic
-- check of a purchase.
structure SignView where
  blocked  : Option String
  semantic : Option String
  pending  : ℕ
  now      : ℤ

def JournalEntry.abandon (e : JournalEntry) (now : ℤ) (note : String) : JournalEntry :=
  { e with status := .abandoned, finalAt := some now, note := some note }

def JournalEntry.sign (e : JournalEntry) (nonce : ℕ) (now : ℤ) : JournalEntry :=
  { e with status := .signed, nonce := some nonce, rawTransaction := some (e.signWith nonce),
           signedAt := some now }

-- The journal after signing, with the signed entry if there is one.
def sign (view : SignView) (id : String) (d : Deployment) (j : Journal) :
    Except Refusal (Journal × Option JournalEntry) :=
  match findEntry id j with
  | none   => return (j, none)
  | some e =>
    if e.status ≠ .planned then return (j, none)
    else match view.blocked, (if e.action = .buy then view.semantic else none) with
      | some reason, _    => return (onEntry id (·.abandon view.now reason) j, none)
      | none, some reason => return (onEntry id (·.abandon view.now reason) j, none)
      | none, none        => do
        validateTransaction e.toTransactionRequest (← intentOf e) d
        let nonce := nextNonce view.pending j
        return (onEntry id (·.sign nonce view.now) j, some (e.sign nonce view.now))

end Sign

def JournalEntry.markSent (now : ℤ) (e : JournalEntry) : JournalEntry :=
  if e.status = .signed then { e with status := .broadcast, broadcastAt := some now } else e

section Reconcile

-- What `reconcileEntry` has decided to change.
inductive Update
  | verified (status : JournalStatus) (finalAt : ℤ) (costAtoms : Option ℕ) (receipt : ReceiptRecord)
  | released (status : JournalStatus) (finalAt : ℤ) (receipt : Option ReceiptRecord)
  | seen (broadcastAt : ℤ)
  deriving DecidableEq, Repr

def Update.apply (e : JournalEntry) : Update → JournalEntry
  | verified status finalAt costAtoms receipt =>
    { e with status, finalAt := some finalAt, costAtoms, receipt := some receipt }
  | released status finalAt receipt           =>
    { e with status, finalAt := some finalAt, receipt := receipt <|> e.receipt }
  | seen broadcastAt                          =>
    { e with status := .broadcast, broadcastAt := some broadcastAt }

-- A call of the runtime that is under way, by what it does next. The entries are copies.
inductive Task
  | broadcast (e : JournalEntry)
  | mark (e : JournalEntry)
  | block (e : JournalEntry)
  | receipt (e : JournalEntry) (head : Block)
  | transaction (e : JournalEntry) (head : Block)
  | nonce (e : JournalEntry) (head : Block) (receipt : Option Receipt) (txFound : Bool)
  | rebroadcast (e : JournalEntry)
  | settle (e : JournalEntry) (update : Update)
  deriving DecidableEq, Repr

def Receipt.record (r : Receipt) : ReceiptRecord := ⟨r.blockNumber, r.gasUsed, r.effectiveGasPrice⟩

def JournalEntry.executionIntent (wallet : Address) (e : JournalEntry) : ExecutionIntent where
  action        := e.action
  wallet        := wallet
  pool          := e.pool
  claim         := e.claim
  quantityAtoms := e.quantityAtoms
  limitAtoms    := if e.action = .redeem then 0 else e.limitAtoms

-- The allowance is read for approvals only.
def verifyReceipt (wallet : Address) (e : JournalEntry) (r : Receipt) (allowance : ℕ) (now : ℤ) :
    Update :=
  match verifyEffect (e.executionIntent wallet) r
    (if e.action = .approve then some allowance else none) with
  | .confirmed cost => .verified .confirmed now cost r.record
  | .mismatch       => .verified .mismatch now none r.record

-- What is left to be done once all reads have been answered. A receipt counts once one more block is
-- built on it.
def reconcile (wallet : Address) (e : JournalEntry) (head : Block) (receipt : Option Receipt)
    (txFound : Bool) (nonceLatest allowance : ℕ) (now : ℤ) : Option Task :=
  let settled := receipt.filter (head.number ≥ ·.blockNumber + 1)
  let step := recoveryStep e.status e.nonce e.deadline
    ⟨txFound, settled.map (·.success), nonceLatest⟩ head.timestamp
  match step.2, receipt with
  | .verify, some r    => some (.settle e (verifyReceipt wallet e r allowance now))
  | .release, _        => some (.settle e (.released step.1 now (receipt.map (·.record))))
  | .rebroadcast, _    => some (.rebroadcast e)
  | .poll, _           => if e.status = .signed then some (.settle e (.seen now)) else none
  | _, _               => none

-- A fresh plan of another process is left alone.
def reconcilable (now : ℤ) (pid : ℕ) (e : JournalEntry) : Bool :=
  !e.isFinal && !(e.status = .planned && now - e.plannedAt < 60 && e.owner.pid ≠ pid)

end Reconcile

section Step

structure System where
  journal : Journal
  tasks   : ℕ → Option Task
  clock   : ℤ

def System.initial (clock : ℤ) : System := ⟨[], fun _ => none, clock⟩

-- The number of a task identifies a call under way.
inductive Event
  | plan (p : Plan) (view : PlanView) (times : PlanTimes) (id : String) (owner : Owner)
  | sign (task : ℕ) (view : SignView) (id : String) (d : Deployment)
  | send (task : ℕ) (accepted : Bool)
  | mark (task : ℕ) (now : ℤ)
  | read (task : ℕ) (id : String) (now : ℤ) (pid : ℕ)
  | block (task : ℕ) (head : Block)
  | receipt (task : ℕ) (receipt : Option Receipt)
  | transaction (task : ℕ) (found : Bool)
  | nonce (task : ℕ) (latest allowance : ℕ) (now : ℤ)
  | settle (task : ℕ)
  | crash (task : ℕ)

namespace System

variable (s : System)

-- The clock never goes back.
def advance (now : ℤ) : Except Refusal System := do
  refuseIf (now < s.clock) .outOfTurn
  return { s with clock := now }

def set (n : ℕ) (task : Option Task) : System :=
  { s with tasks := Function.update s.tasks n task }

def start (n : ℕ) (task : Option Task) : Except Refusal System := do
  refuseIf ((s.tasks n).isSome) .outOfTurn
  return s.set n task

end System

variable (o : Options)

-- Without a hash nothing is looked up, and with a receipt the transaction is not.
def lookUp (e : JournalEntry) (head : Block) (receipt : Option Receipt) : Task :=
  match e.rawTransaction, receipt with
  | none, _        => .nonce e head none false
  | some _, some r => .nonce e head (some r) true
  | some _, none   => .transaction e head

-- The compare-and-set of `reconcileEntry`.
def settleEntry (e : JournalEntry) (update : Update) (x : JournalEntry) : JournalEntry :=
  if x.status = e.status then update.apply x else x

-- What a task does when it is answered. Other events are out of turn.
def Task.next (s : System) (n : ℕ) : Task → Event → Except Refusal System
  | .broadcast e, .send _ accepted            =>
    return s.set n (if accepted then some (.mark e) else none)
  | .mark e, .mark _ now                      => do
    let s ← s.advance now
    return { s.set n none with journal := onEntry e.id (·.markSent now) s.journal }
  | .block e, .block _ head                   => return s.set n (some (.receipt e head))
  | .receipt e head, .receipt _ r             => return s.set n (some (lookUp e head r))
  | .transaction e head, .transaction _ found => return s.set n (some (.nonce e head none found))
  | .nonce e head r found, .nonce _ latest allowance now => do
    let s ← s.advance now
    return s.set n (reconcile o.wallet e head r found latest allowance now)
  | .rebroadcast _, .send _ _                 => return s.set n none
  | .settle e update, .settle _               =>
    return { s.set n none with journal := onEntry e.id (settleEntry e update) s.journal }
  | _, _                                      => .error .outOfTurn

def Event.task : Event → ℕ
  | plan ..         => 0
  | sign n ..       => n
  | send n _        => n
  | mark n _        => n
  | read n ..       => n
  | block n _       => n
  | receipt n _     => n
  | transaction n _ => n
  | nonce n ..      => n
  | settle n        => n
  | crash n         => n

def step (s : System) (event : Event) : Except Refusal System :=
  match event with
  | .plan p view times id owner => do
    let s ← s.advance times.evaluatedAt
    let s ← s.advance times.quotedAt
    let s ← s.advance times.plannedAt
    return { s with journal := ← plan o p view times s.journal id owner }
  | .sign n view id d           => do
    let s ← s.advance view.now
    let (journal, signed) ← sign view id d s.journal
    let s ← s.start n (signed.map .broadcast)
    return { s with journal }
  | .read n id now pid          => do
    let s ← s.advance now
    s.start n (((findEntry id s.journal).filter (reconcilable now pid)).map .block)
  | .crash n                    => return s.set n none
  | event                       =>
    match s.tasks event.task with
    | none      => .error .outOfTurn
    | some task => task.next o s event.task event

end Step

section Lemmas

variable {o : Options} {s s' : System} {event : Event} {n : ℕ} {task : Task} {now : ℤ}
  {j j' : Journal} {view : SignView} {id : String} {d : Deployment} {signed : Option JournalEntry}

@[simp]
theorem System.advance_eq_ok :
    s.advance now = .ok s' ↔ s.clock ≤ now ∧ { s with clock := now } = s' := by
  simp [advance]

@[simp]
theorem System.start_eq_ok {t : Option Task} :
    s.start n t = .ok s' ↔ s.tasks n = none ∧ s.set n t = s' := by
  simp [start]

-- What a successful step did: one case for each event, and for each task that it answers.
inductive Stepped (o : Options) (s : System) : Event → System → Prop
  | plan (p view times id owner journal)
    (hc : s.clock ≤ times.evaluatedAt)
    (ht : times.evaluatedAt ≤ times.quotedAt ∧ times.quotedAt ≤ times.plannedAt)
    (hp : plan o p view times s.journal id owner = .ok journal) :
    Stepped o s (.plan p view times id owner) { s with journal, clock := times.plannedAt }
  | sign (n view id d journal signed)
    (hc : s.clock ≤ view.now) (hn : s.tasks n = none)
    (hs : sign view id d s.journal = .ok (journal, signed)) :
    Stepped o s (.sign n view id d)
      { s.set n (signed.map .broadcast) with journal, clock := view.now }
  | send (n e accepted) (hn : s.tasks n = some (.broadcast e)) :
    Stepped o s (.send n accepted) (s.set n (if accepted then some (.mark e) else none))
  | resend (n e accepted) (hn : s.tasks n = some (.rebroadcast e)) :
    Stepped o s (.send n accepted) (s.set n none)
  | mark (n e now) (hc : s.clock ≤ now) (hn : s.tasks n = some (.mark e)) :
    Stepped o s (.mark n now)
      { s.set n none with journal := onEntry e.id (·.markSent now) s.journal, clock := now }
  | read (n id now pid) (hc : s.clock ≤ now) (hn : s.tasks n = none) :
    Stepped o s (.read n id now pid)
      { s.set n (((findEntry id s.journal).filter (reconcilable now pid)).map .block) with
        clock := now }
  | block (n e head) (hn : s.tasks n = some (.block e)) :
    Stepped o s (.block n head) (s.set n (some (.receipt e head)))
  | receipt (n e head r) (hn : s.tasks n = some (.receipt e head)) :
    Stepped o s (.receipt n r) (s.set n (some (lookUp e head r)))
  | transaction (n e head found) (hn : s.tasks n = some (.transaction e head)) :
    Stepped o s (.transaction n found) (s.set n (some (.nonce e head none found)))
  | nonce (n e head r found latest allowance now) (hc : s.clock ≤ now)
    (hn : s.tasks n = some (.nonce e head r found)) :
    Stepped o s (.nonce n latest allowance now)
      { s.set n (reconcile o.wallet e head r found latest allowance now) with clock := now }
  | settle (n e update) (hn : s.tasks n = some (.settle e update)) :
    Stepped o s (.settle n)
      { s.set n none with journal := onEntry e.id (settleEntry e update) s.journal }
  | crash (n : ℕ) : Stepped o s (.crash n) (s.set n none)

theorem next_eq_ok (ht : s.tasks event.task = some task)
    (h : task.next o s event.task event = .ok s') : Stepped o s event s' := by
  unfold Task.next at h
  split at h
  case h_1 e n accepted                             => cases h; exact .send _ _ _ ht
  case h_2 e n now                                  =>
    simp only [bind_eq_ok, System.advance_eq_ok, pure_eq_ok, ok.injEq] at h
    obtain ⟨_, ⟨hc, rfl⟩, rfl⟩ := h
    exact .mark _ _ _ hc ht
  case h_3 e n head                                 => cases h; exact .block _ _ _ ht
  case h_4 e head n r                               => cases h; exact .receipt _ _ _ _ ht
  case h_5 e head n found                           => cases h; exact .transaction _ _ _ _ ht
  case h_6 e head r found n latest allowance now    =>
    simp only [bind_eq_ok, System.advance_eq_ok, pure_eq_ok, ok.injEq] at h
    obtain ⟨_, ⟨hc, rfl⟩, rfl⟩ := h
    exact .nonce _ _ _ _ _ _ _ _ hc ht
  case h_7 e n accepted                             => cases h; exact .resend _ _ _ ht
  case h_8 e update n                               => cases h; exact .settle _ _ _ ht
  case h_9                                          => cases h

theorem step_eq_ok (h : step o s event = .ok s') : Stepped o s event s' := by
  unfold step at h
  split at h
  case h_1 p view times id owner =>
    simp only [bind_eq_ok, System.advance_eq_ok, pure_eq_ok, ok.injEq] at h
    obtain ⟨_, ⟨hc, rfl⟩, _, ⟨hq, rfl⟩, _, ⟨hp, rfl⟩, journal, hj, rfl⟩ := h
    exact .plan _ _ _ _ _ _ hc ⟨hq, hp⟩ hj
  case h_2 n view id d           =>
    simp only [bind_eq_ok, System.advance_eq_ok, System.start_eq_ok, pure_eq_ok, ok.injEq] at h
    obtain ⟨_, ⟨hc, rfl⟩, ⟨journal, signed⟩, hs, _, ⟨hn, rfl⟩, rfl⟩ := h
    exact .sign _ _ _ _ _ _ hc hn hs
  case h_3 n id now pid          =>
    simp only [bind_eq_ok, System.advance_eq_ok, System.start_eq_ok] at h
    obtain ⟨_, ⟨hc, rfl⟩, hn, rfl⟩ := h
    exact .read _ _ _ _ hc hn
  case h_4 n                     => cases h; exact .crash _
  case h_5                       =>
    split at h
    case h_1 => cases h
    case h_2 ht => exact next_eq_ok ht h

theorem findEntry_onEntry {id' : String} {f : JournalEntry → JournalEntry} (hf : ∀ e, (f e).id = e.id) :
    findEntry id' (onEntry id f j) = if id' = id then (findEntry id j).map f else findEntry id' j :=
  Records.find_change hf

-- What signing does: nothing, or it abandons a planned entry, or it signs one.
inductive Signed (view : SignView) (id : String) (j : Journal) : Journal → Option JournalEntry → Prop
  | none : Signed view id j j none
  | abandoned (e note) (hf : findEntry id j = some e) (hp : e.status = .planned) :
    Signed view id j (onEntry id (·.abandon view.now note) j) .none
  | signed (e) (hf : findEntry id j = some e) (hp : e.status = .planned) :
    Signed view id j (onEntry id (·.sign (nextNonce view.pending j) view.now) j)
      (some (e.sign (nextNonce view.pending j) view.now))

theorem sign_eq_ok (h : sign view id d j = .ok (j', signed)) : Signed view id j j' signed := by
  unfold sign at h
  split at h
  case h_1      => cases h; exact .none
  case h_2 e hf =>
    split at h
    case isTrue     => cases h; exact .none
    case isFalse hp =>
      have hp := not_not.mp hp
      split at h
      case h_1 => cases h; exact .abandoned e _ hf hp
      case h_2 => cases h; exact .abandoned e _ hf hp
      case h_3 =>
        simp only [bind_eq_ok, pure_eq_ok, ok.injEq, Prod.mk.injEq] at h
        obtain ⟨_, _, _, _, rfl, rfl⟩ := h
        exact .signed e hf hp

end Lemmas

end Sdk
