import Flurbo.Server.AgentState

-- The changes that requests make to the state of an agent, each computed from one read of it.

namespace Agents

inductive Refusal
  | unavailable | notFound | archived | notActive | notApproval | notLinked | abstained | proposalExists
  | tooOld | reviewLimit | proposalChanged | reservationExpired | prepareFailed | hashConflict
  | submittedPending | reviewMismatch | notWaiting | noDecision | invalidInput | tooManyPending
  deriving DecidableEq, Repr

-- What a change knows besides the state.
structure Context where
  now      : ℤ
  archived : Bool
  freshId  : ℕ

inductive Change
  | evaluate (quoteExpiresAt : Option ℤ)
  | reserve (decisionId : ℕ)
  | activate (reservation : Proposal) (review : Option Review)
  | refresh (current : Proposal) (review : Review)
  | submitted (proposalId : ℕ) (hash : Hash) (digest : Digest)
  | rejected (proposalId : ℕ)
  | check (proposalId : ℕ) (hash : Hash) (receipt : Receipt) (paidAtoms : Option ℕ)
  | clear
  | report (hash : Hash) (intent : Intent)
  | checkExecution (hash : Hash) (receipt : Receipt) (collateral : ℕ) (digest : Digest)
  deriving DecidableEq, Repr

-- A change yields a state, claims of ownership, and the proposal that it is about.
abbrev Result := State × Own × Option Proposal

namespace State

variable (s : State)

def find (id : ℕ) : Option Proposal := Records.find (·.id) id s.proposals

def put (p : Proposal) : State :=
  { s with proposals := Records.change (·.id) p.id (fun _ => p) s.proposals }

def reviewCount : ℕ := (s.proposals.map (·.reviews.length)).sum

end State

def reviewsPerAgent : ℕ := 200

section Propose

def lapse (now : ℤ) (p : Proposal) : Proposal :=
  if p.status = .preparing ∧ !p.reserving now then
    { p with status := .preparationExpired, version := p.version + 1, reservedUntil := none }
  else p

-- Lapsed reservations give way. Then one proposal for a decision blocks another.
def reserve (cx : Context) (s : State) (own : Own) (decisionId : ℕ) : Except Refusal Result :=
  match s.decisions.find? (·.id = decisionId) with
  | none       => .error .notFound
  | some found =>
    match found.quoteExpiresAt with
    | none         => .error .abstained
    | some expires =>
      let s := { s with proposals := s.proposals.map (lapse cx.now) }
      if s.proposals.any fun p => p.decisionId = found.id ∧ p.blocksDecision cx.now then
        .error .proposalExists
      else if cx.now ≥ expires + 300 then .error .tooOld
      else if s.reviewCount ≥ reviewsPerAgent then .error .reviewLimit
      else
        let record := ⟨cx.freshId, 1, found.id, some expires, .preparing, some (cx.now + 60), none, [], []⟩
        .ok ({ s with proposals := record :: s.proposals }, own, some record)

-- Preparation may have failed, or the agent may have been archived meanwhile.
def activate (cx : Context) (s : State) (own : Own) (reservation : Proposal) (review : Option Review) :
    Except Refusal Result :=
  match s.find reservation.id with
  | none   => .ok (s, own, none)
  | some r =>
    if r.status ≠ .preparing ∨ r.version ≠ reservation.version then .ok (s, own, none)
    else
      let r := { r with reservedUntil := none, version := r.version + 1 }
      match review with
      | none        => .ok (s.put { r with status := .preparationFailed }, own, none)
      | some review =>
        if cx.archived ∨ s.reviewCount ≥ reviewsPerAgent then
          .ok (s.put { r with status := .preparationFailed }, own, none)
        else if reservation.reservedUntil.all (cx.now ≥ ·) then
          .ok (s.put { r with status := .preparationExpired }, own, none)
        else
          let r := { r with status := .awaitingApproval, review := some review, reviews := [review] }
          .ok (s.put r, own, some r)

end Propose

section Track

def hasReview (p : Proposal) (review : Review) : Bool :=
  p.reviews.any (·.transaction = review.transaction)

def refresh (cx : Context) (s : State) (own : Own) (current : Proposal) (review : Review) :
    Except Refusal Result :=
  match s.find current.id with
  | none   => .error .notFound
  | some r =>
    if cx.archived then .error .archived
    else if r.version ≠ current.version then .error .proposalChanged
    else if !hasReview r review ∧ s.reviewCount ≥ reviewsPerAgent then .error .reviewLimit
    else
      let reviews := if hasReview r review then r.reviews else r.reviews ++ [review]
      let r := { r with reviews, status := .awaitingApproval, review := some review, version := r.version + 1 }
      .ok (s.put r, own, some r)

-- A hash for any review of the proposal, whatever became of the proposal since.
def submitted (s : State) (own : Own) (proposalId : ℕ) (hash : Hash) (digest : Digest) :
    Except Refusal Result :=
  match s.find proposalId with
  | none   => .error .notFound
  | some r =>
    if own.taken hash (.proposal r.id) digest then .error .hashConflict
    else match r.transactions.find? (·.hash = hash) with
    | some known =>
      if known.review.transaction = digest then .ok (s, own, some r) else .error .hashConflict
    | none       =>
      if r.hasSubmitted then .error .hashConflict
      else match r.reviews.find? (·.transaction = digest) with
      | none        => .error .reviewMismatch
      | some review =>
        let tx := ⟨hash, review.action, .submitted, review, some r.status, none, false, false⟩
        let r  := { r with transactions := r.transactions ++ [tx], status := .submitted, version := r.version + 1 }
        .ok (s.put r, own, some r)

def rejected (cx : Context) (s : State) (own : Own) (proposalId : ℕ) : Except Refusal Result :=
  match s.find proposalId with
  | none   => .error .notFound
  | some r =>
    if cx.archived then .error .archived
    else if r.hasSubmitted ∨ r.status ∉ [.awaitingApproval, .approvalConfirmed] then .error .notWaiting
    else
      let r := { r with status := .rejected, version := r.version + 1 }
      .ok (s.put r, own, some r)

-- The transaction with what its receipt says, counted if it is this proposal's purchase.
def settle (r : Proposal) (live : Live) (own : Own) (tx : Transaction) (status : TransactionStatus)
    (paidAtoms : Option ℕ) : Live × Own × Transaction :=
  let done := { tx with status, paidAtoms }
  if status ∉ [.confirmed, .reverted] then (live, own, done)
  else if own.taken tx.hash (.proposal r.id) tx.review.transaction then
    (live, own, { done with attributedElsewhere := true })
  else
    let own := own.claim tx.hash (.proposal r.id) tx.review.transaction
    if status = .confirmed ∧ tx.action = .buy then
      let (live, done) := addConfirmedPurchase live done
      (live, own, done)
    else (live, own, done)

-- A purchase that the proposal owns keeps it confirmed, whatever later transactions do.
def Proposal.resolve (r : Proposal) (done : Transaction) : Proposal :=
  let r : Proposal := { r with
    transactions := r.transactions.map fun x : Transaction => if x.hash = done.hash then done else x
    version      := r.version + 1 }
  { r with status :=
      if r.ownsPurchase then .confirmed
      else if done.attributedElsewhere then done.statusBefore.getD .attributedElsewhere
      else if done.status = .confirmed then .approvalConfirmed
      else .failed }

def Receipt.status : Receipt → Option TransactionStatus
  | .confirmed => some .confirmed
  | .reverted  => some .reverted
  | .mismatch  => some .mismatch
  | .unknown | .pending | .confirming => none

def check (s : State) (own : Own) (proposalId : ℕ) (hash : Hash) (receipt : Receipt)
    (paidAtoms : Option ℕ) : Except Refusal Result :=
  match s.find proposalId, receipt.status with
  | none, _             => .error .notFound
  | some r, none        => .ok (s, own, some r)
  | some r, some status =>
    match r.transactions.find? (·.hash = hash) with
    | none    => .ok (s, own, some r)
    | some tx =>
      if tx.status ≠ .submitted then .ok (s, own, some r)
      else
        let (live, own, done) := settle r s.live own tx status paidAtoms
        let r := r.resolve done
        .ok ({ s with live }.put r, own, some r)

end Track

section Runtime

def report (s : State) (own : Own) (hash : Hash) (intent : Intent) : Except Refusal Result :=
  match s.executions.find? (·.hash = hash) with
  | some existing => if existing.intent ≠ intent then .error .hashConflict else .ok (s, own, none)
  | none          =>
    -- the record that owns the transaction may be this one, with any digest
    if (own.read hash).any fun o => ⟨own.agent, .execution hash, o.transaction⟩ ≠ o then .error .hashConflict
    else if (s.executions.filter (!·.status.final)).length ≥ 50 then .error .tooManyPending
    else .ok ({ s with executions := ⟨hash, intent, .recorded⟩ :: s.executions }, own, none)

def setExecution (s : State) (hash : Hash) (status : ExecutionStatus) : List Execution :=
  Records.change (·.hash) hash (fun e => { e with status }) s.executions

def checkExecution (s : State) (own : Own) (hash : Hash) (receipt : Receipt) (collateral : ℕ)
    (digest : Digest) : Except Refusal Result :=
  match s.executions.find? (·.hash = hash) with
  | none   => .ok (s, own, none)
  | some r =>
    if r.status.final then .ok (s, own, none)
    else match receipt with
    | .unknown               => .ok ({ s with executions := setExecution s hash .recorded }, own, none)
    | .pending | .confirming => .ok ({ s with executions := setExecution s hash .pending }, own, none)
    | .mismatch              =>
      .ok ({ s with executions := setExecution s hash .mismatch
                    totals     := account s.totals r.intent.action .mismatch 0 }, own, none)
    | .confirmed | .reverted =>
      let taken  := own.taken hash (.execution hash) digest
      let status := if taken then .attributedElsewhere else if receipt = .confirmed then .confirmed else .reverted
      let paid   := if status = .confirmed then collateral else 0
      .ok ({ s with executions := setExecution s hash status
                    totals     := account s.totals r.intent.action status paid },
           if taken then own else own.claim hash (.execution hash) digest, none)

end Runtime

def Change.run (cx : Context) (s : State) (own : Own) : Change → Except Refusal Result
  | .evaluate quoteExpiresAt =>
    .ok ({ s with decisions := ⟨cx.freshId, quoteExpiresAt⟩ :: s.decisions }, own, none)
  | .reserve decisionId             => Agents.reserve cx s own decisionId
  | .activate reservation review    => Agents.activate cx s own reservation review
  | .refresh current review         => Agents.refresh cx s own current review
  | .submitted proposalId hash digest => Agents.submitted s own proposalId hash digest
  | .rejected proposalId            => Agents.rejected cx s own proposalId
  | .check proposalId hash receipt paidAtoms => Agents.check s own proposalId hash receipt paidAtoms
  | .clear                          => .ok ({ s with decisions := [] }, own, none)
  | .report hash intent             => Agents.report s own hash intent
  | .checkExecution hash receipt collateral digest =>
    Agents.checkExecution s own hash receipt collateral digest

-- One attempt at a change: an older state is reconciled first, and what is written is bounded.
def attempt (cx : Context) (s : State) (own : Own) (change : Change) : Except Refusal Result := do
  let (s, own)    := if s.ownership < 2 then reconcile s own else (s, own)
  let (s, own, p) ← change.run cx s own
  return (retain cx.now s, own, p)

end Agents
