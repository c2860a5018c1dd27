import Flurbo.Library.Program
import Flurbo.Server.AgentChanges

-- The requests about the proposals of one agent. They read the agent, do slow work, and then change
-- it in one step that may refuse.

namespace Agents

inductive AgentStatus
  | active | paused | archived
  deriving DecidableEq, Repr

-- `approval` is the agent's mode. `drawn` counts the ids that were drawn.
structure Store where
  clock    : ℤ
  status   : AgentStatus
  approval : Bool
  state    : State
  owners   : Hash → Option Ownership
  drawn    : ℕ

def Store.initial (clock : ℤ) : Store :=
  ⟨clock, .active, true, .empty, fun _ => none, 0⟩

-- Whether a wallet is linked, reviews that are prepared, receipts and decisions come from elsewhere.
inductive Command
  | now
  | profile
  | load
  | linkedOwner
  | prepare
  | receipt (tx : Transaction)
  | decide
  | archive
  | mutate (change : Change)

@[reducible]
def Reply : Command → Type
  | .now         => ℤ
  | .profile     => AgentStatus × Bool
  | .load        => State
  | .linkedOwner => Bool
  | .prepare     => Option Review
  | .receipt _   => Receipt × Option ℕ
  | .decide      => Option ℤ
  | .archive     => Bool
  | .mutate _    => Except Refusal (Option Proposal)

section Perform

variable (agent : AgentId) (s : Store)

def Store.context : Context := ⟨s.clock, s.status = .archived, s.drawn⟩

def Store.own : Own := ⟨agent, [], s.owners⟩

def Store.mutate (change : Change) : Store × Except Refusal (Option Proposal) :=
  match attempt s.context s.state (s.own agent) change with
  | .error e             => (s, .error e)
  | .ok (state, own, p)  => ({ s with state, owners := own.read, drawn := s.drawn + 1 }, .ok p)

def perform : (c : Command) → Reply c → Store × Reply c
  | .now, _             => (s, s.clock)
  | .profile, _         => (s, (s.status, s.approval))
  | .load, _            => (s, s.state)
  | .linkedOwner, reply => (s, reply)
  | .prepare, reply     => (s, reply)
  | .receipt _, reply   => (s, reply)
  | .decide, reply      => (s, reply)
  | .archive, _         =>
    if s.status = .archived then (s, false) else ({ s with status := .archived }, true)
  | .mutate change, _   => s.mutate agent change

-- Time passes, the agent is updated, and other agents own transactions.
inductive Drift
  | tick (d : ℕ)
  | update (active approval : Bool)
  | owned (hash : Hash) (o : Ownership)
  deriving DecidableEq, Repr

def drift : Drift → Store
  | .tick d                => { s with clock := s.clock + d }
  | .update active approval =>
    if s.status = .archived then s
    else { s with status := if active then .active else .paused, approval }
  | .owned hash o          =>
    if (s.owners hash).isSome ∨ o.agent = agent then s
    else { s with owners := Function.update s.owners hash (some o) }

end Perform

abbrev Action := Program Reply Refusal

def send (c : Command) : Action (Reply c) := Program.call c

def mutate (change : Change) : Action (Option Proposal) := do
  match ← send (.mutate change) with
  | .ok p    => return p
  | .error e => .fail e

def evaluate : Action Unit := do
  let (status, _) ← send .profile
  if status = .archived then .fail .archived
  else if status ≠ .active then .fail .notActive
  else do
    let quoteExpiresAt ← send .decide
    let _ ← mutate (.evaluate quoteExpiresAt)

-- The decision is reserved, its transaction is prepared, and the reservation is activated.
def propose (decisionId : ℕ) : Action Unit := do
  let (status, approval) ← send .profile
  if status = .archived then .fail .archived
  else if status ≠ .active then .fail .notActive
  else if !approval then .fail .notApproval
  else if !(← send .linkedOwner) then .fail .notLinked
  else match ← mutate (.reserve decisionId) with
  | none             => return
  | some reservation => do
    let review ← (send .prepare).recover fun _ => return none
    if (← mutate (.activate reservation review)).isNone then .fail .proposalChanged

inductive TrackAction
  | refresh
  | submitted (hash : Hash) (digest : Digest)
  | check
  | rejected
  deriving DecidableEq, Repr

def track (proposalId : ℕ) (action : TrackAction) : Action Unit := do
  let (status, _) ← send .profile
  let state ← send .load
  match state.find proposalId with
  | none         => .fail .notFound
  | some current =>
    match action with
    | .refresh               =>
      if status = .archived then .fail .archived
      else if current.hasSubmitted then .fail .submittedPending
      else if current.status ∉ [.awaitingApproval, .approvalConfirmed] then .fail .notWaiting
      else if !(← send .linkedOwner) then .fail .notLinked
      else
        let decision := state.decisions.find? (·.id = current.decisionId)
        match current.quoteExpiresAt.or (decision.bind (·.quoteExpiresAt)) with
        | none         => .fail .noDecision
        | some expires =>
          if (← send .now) ≥ expires + 300 then .fail .tooOld
          else match ← send .prepare with
          | none        => .fail .prepareFailed
          | some review => let _ ← mutate (.refresh current review)
    | .submitted hash digest => let _ ← mutate (.submitted proposalId hash digest)
    | .rejected              => let _ ← mutate (.rejected proposalId)
    | .check                 =>
      match current.transactions.find? (·.status = .submitted) with
      | none         => return
      | some pending => do
        let (receipt, paidAtoms) ← send (.receipt pending)
        if receipt.status.isNone then return
        else let _ ← mutate (.check proposalId pending.hash receipt paidAtoms)

def delete : Action Unit := do
  if ← send .archive then let _ ← mutate .clear

inductive Request
  | evaluate
  | propose (decisionId : ℕ)
  | track (proposalId : ℕ) (action : TrackAction)
  | delete
  deriving DecidableEq, Repr

def handle : Request → Action Unit
  | .evaluate                => Agents.evaluate
  | .propose decisionId      => Agents.propose decisionId
  | .track proposalId action => Agents.track proposalId action
  | .delete                  => Agents.delete

def service (agent : AgentId) : Program.Service Store Reply Refusal Request Drift where
  perform  := perform agent
  broken   := .unavailable
  code _ q := handle q
  drift    := drift agent

end Agents
