import Flurbo.Contracts.Evm
import Flurbo.Library.Records

-- What is stored about an agent: decisions, proposals and executions, with totals of those that were
-- verified. Transactions are their digests. Ids are numbers.

open Evm

namespace Agents

abbrev Hash := ℕ

abbrev Digest := ℕ

inductive ReviewAction
  | buy | approve
  deriving DecidableEq, Repr

structure Review where
  action      : ReviewAction
  transaction : Digest
  expiresAt   : ℤ
  deriving DecidableEq, Repr

-- What the receipt of a transaction says, or that there is none yet.
inductive Receipt
  | unknown | pending | confirming | confirmed | reverted | mismatch
  deriving DecidableEq, Repr

inductive TransactionStatus
  | submitted | confirmed | reverted | mismatch
  deriving DecidableEq, Repr

inductive ProposalStatus
  | preparing | awaitingApproval | preparationFailed | preparationExpired | submitted | confirmed
  | approvalConfirmed | failed | rejected | attributedElsewhere
  deriving DecidableEq, Repr

structure Transaction where
  hash                : Hash
  action              : ReviewAction
  status              : TransactionStatus
  review              : Review
  statusBefore        : Option ProposalStatus
  paidAtoms           : Option ℕ
  accounted           : Bool
  attributedElsewhere : Bool
  deriving DecidableEq, Repr

-- `quoteExpiresAt` is what is kept of the decision.
structure Proposal where
  id             : ℕ
  version        : ℕ
  decisionId     : ℕ
  quoteExpiresAt : Option ℤ
  status         : ProposalStatus
  reservedUntil  : Option ℤ
  review         : Option Review
  reviews        : List Review
  transactions   : List Transaction
  deriving DecidableEq, Repr

-- A decision that abstained has nothing that expires.
structure Decision where
  id             : ℕ
  quoteExpiresAt : Option ℤ
  deriving DecidableEq, Repr

structure Live where
  confirmedPurchases : ℤ
  costAtoms          : ℤ
  unknownCost        : ℤ
  deriving DecidableEq, Repr

inductive ExecutionAction
  | buy | sell | redeem | approve
  deriving DecidableEq, Repr

inductive ExecutionStatus
  | recorded | pending | confirmed | reverted | mismatch | attributedElsewhere
  deriving DecidableEq, Repr

-- What a runtime reports that it meant to do: the action, its market and the rest.
structure Intent where
  action  : ExecutionAction
  market  : ℕ
  details : ℕ
  deriving DecidableEq, Repr

structure Execution where
  hash   : Hash
  intent : Intent
  status : ExecutionStatus
  deriving DecidableEq, Repr

structure Totals where
  buys                : ℕ
  buyCostAtoms        : ℕ
  sells               : ℕ
  sellProceedsAtoms   : ℕ
  redemptions         : ℕ
  redeemedAtoms       : ℕ
  approvals           : ℕ
  reverted            : ℕ
  mismatched          : ℕ
  attributedElsewhere : ℕ
  deriving DecidableEq, Repr

structure State where
  ownership  : ℕ
  decisions  : List Decision
  proposals  : List Proposal
  live       : Live
  executions : List Execution
  totals     : Totals
  deriving DecidableEq, Repr

def State.empty : State where
  ownership  := 2
  decisions  := []
  proposals  := []
  live       := ⟨0, 0, 0⟩
  executions := []
  totals     := ⟨0, 0, 0, 0, 0, 0, 0, 0, 0, 0⟩

-- The record of an agent that a transaction belongs to.
inductive RecordId
  | proposal (id : ℕ)
  | execution (hash : Hash)
  deriving DecidableEq, Repr

structure AgentId where
  owner   : Address
  agentId : ℕ
  deriving DecidableEq, Repr

structure Ownership where
  agent       : AgentId
  record      : RecordId
  transaction : Digest
  deriving DecidableEq, Repr

section Totals

-- A confirmed purchase is counted once, and taken back out once.
def addConfirmedPurchase (live : Live) (tx : Transaction) : Live × Transaction :=
  if tx.accounted then (live, tx)
  else
    let live := { live with confirmedPurchases := live.confirmedPurchases + 1 }
    (match tx.paidAtoms with
      | none      => { live with unknownCost := live.unknownCost + 1 }
      | some paid => { live with costAtoms := live.costAtoms + paid },
     { tx with accounted := true })

def removeConfirmedPurchase (live : Live) (tx : Transaction) : Live × Transaction :=
  if !tx.accounted then (live, tx)
  else
    let live := { live with confirmedPurchases := live.confirmedPurchases - 1 }
    (match tx.paidAtoms with
      | none      => { live with unknownCost := live.unknownCost - 1 }
      | some paid => { live with costAtoms := live.costAtoms - paid },
     { tx with accounted := false })

def account (totals : Totals) (action : ExecutionAction) (status : ExecutionStatus) (collateral : ℕ) :
    Totals :=
  match status, action with
  | .confirmed, .buy     =>
    { totals with buys := totals.buys + 1, buyCostAtoms := totals.buyCostAtoms + collateral }
  | .confirmed, .sell    =>
    { totals with sells := totals.sells + 1, sellProceedsAtoms := totals.sellProceedsAtoms + collateral }
  | .confirmed, .redeem  =>
    { totals with redemptions := totals.redemptions + 1, redeemedAtoms := totals.redeemedAtoms + collateral }
  | .confirmed, .approve => { totals with approvals := totals.approvals + 1 }
  | .reverted, _         => { totals with reverted := totals.reverted + 1 }
  | .mismatch, _         => { totals with mismatched := totals.mismatched + 1 }
  | .attributedElsewhere, _ => { totals with attributedElsewhere := totals.attributedElsewhere + 1 }
  | .recorded, _ | .pending, _ => totals

end Totals

section Proposals

variable (p : Proposal) (now : ℤ)

def Transaction.owned (tx : Transaction) : Bool :=
  tx.action = .buy ∧ tx.status = .confirmed ∧ !tx.attributedElsewhere

-- A proposal is confirmed only by a purchase that it owns.
def Proposal.ownsPurchase : Bool := p.transactions.any (·.owned)

def Proposal.hasSubmitted : Bool := p.transactions.any fun tx => decide (tx.status = .submitted)

def Proposal.reserving : Bool := p.status = .preparing ∧ p.reservedUntil.any (now < ·)

def Proposal.blocksDecision : Bool :=
  p.reserving now ∨ p.status ∈ [.awaitingApproval, .submitted, .approvalConfirmed, .confirmed]

def Proposal.decisionDeadline : ℤ :=
  max (p.quoteExpiresAt.elim 0 (· + 300)) (p.review.elim 0 (·.expiresAt))

def Proposal.unresolved : Bool :=
  p.reserving now ∨ p.hasSubmitted ∨
  p.status ∈ [.awaitingApproval, .approvalConfirmed] ∧ now < p.decisionDeadline + 86400

def Proposal.compact : Proposal := { p with quoteExpiresAt := none }

end Proposals

section Retain

def ExecutionStatus.final : ExecutionStatus → Bool
  | .confirmed | .reverted | .mismatch | .attributedElsewhere => true
  | .recorded | .pending                                      => false

-- Executions that are being verified are never dropped, verified ones if `k` newer ones are kept.
def retainExecutions : ℕ → List Execution → List Execution
  | _, []      => []
  | k, e :: es =>
    if !e.status.final then e :: retainExecutions k es
    else if 0 < k then e :: retainExecutions (k - 1) es
    else retainExecutions 0 es

-- Beyond `k` resolved proposals, those without a review are dropped and the others are compacted.
def retainProposals (now : ℤ) : ℕ → List Proposal → List Proposal
  | _, []      => []
  | k, p :: ps =>
    if p.unresolved now then p :: retainProposals now k ps
    else if 0 < k then p :: retainProposals now (k - 1) ps
    else if p.reviews = [] then retainProposals now 0 ps
    else p.compact :: retainProposals now 0 ps

def retain (now : ℤ) (s : State) : State :=
  { s with decisions  := s.decisions.take 100
           executions := retainExecutions 500 s.executions
           proposals  := retainProposals now 50 s.proposals }

end Retain

section Own

-- Ownership of transactions that a change claims, and what it reads of others.
structure Own where
  agent  : AgentId
  claims : List (Hash × Ownership)
  stored : Hash → Option Ownership

namespace Own

variable (own : Own) (hash : Hash) (record : RecordId) (transaction : Digest)

def read : Option Ownership :=
  ((own.claims.find? (·.1 = hash)).map (·.2)).or (own.stored hash)

-- Claims replace each other.
def claim : Own :=
  { own with claims := (hash, ⟨own.agent, record, transaction⟩) :: own.claims.filter (·.1 ≠ hash) }

-- Whether another record has the transaction.
def taken : Bool := (own.read hash).any (· ≠ ⟨own.agent, record, transaction⟩)

end Own

end Own

section Reconcile

-- What an older state counted of a transaction that another record owns is taken back out.
def reconcileTransaction (id : ℕ) (live : Live) (own : Own) (tx : Transaction) :
    Live × Own × Transaction :=
  if tx.status ∉ [.confirmed, .reverted] ∨ tx.attributedElsewhere then (live, own, tx)
  else if (own.read tx.hash).isNone then
    (live, own.claim tx.hash (.proposal id) tx.review.transaction, tx)
  else if own.taken tx.hash (.proposal id) tx.review.transaction then
    let (live, tx) := removeConfirmedPurchase live tx
    (live, own, { tx with attributedElsewhere := true })
  else (live, own, tx)

def reconcileTransactions (id : ℕ) : Live → Own → List Transaction → Live × Own × List Transaction
  | live, own, []        => (live, own, [])
  | live, own, tx :: txs =>
    let (live, own, tx)  := reconcileTransaction id live own tx
    let (live, own, txs) := reconcileTransactions id live own txs
    (live, own, tx :: txs)

def reconcileProposals : Live → Own → List Proposal → Live × Own × List Proposal
  | live, own, []      => (live, own, [])
  | live, own, p :: ps =>
    let (live, own, txs) := reconcileTransactions p.id live own p.transactions
    let p := { p with transactions := txs }
    let p := if p.status = .confirmed ∧ !p.ownsPurchase then { p with status := .attributedElsewhere } else p
    let (live, own, ps)  := reconcileProposals live own ps
    (live, own, p :: ps)

def reconcile (s : State) (own : Own) : State × Own :=
  let (live, own, ps) := reconcileProposals s.live own s.proposals
  ({ s with live, proposals := ps, ownership := 2 }, own)

end Reconcile

end Agents
