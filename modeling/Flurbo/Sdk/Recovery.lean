import Flurbo.Sdk.Transaction

-- What a mined receipt shows of an intent, and the step that recovers a journal entry from what the
-- chain shows.

open Evm

namespace Sdk

structure Block where
  number    : ℕ
  timestamp : ℤ
  deriving DecidableEq, Repr

-- A pool event, as `decodePoolLog` reads it. Logs of any other shape decode to nothing.
inductive PoolEvent
  | traded (trader : Address) (claim : Claim) (isBuy : Bool) (quantity collateralAmount : ℕ)
  | redeemed (owner : Address) (claim : Claim) (quantity collateralAmount : ℕ)
  deriving DecidableEq, Repr

structure Log where
  address : Address
  event   : Option PoolEvent
  deriving DecidableEq, Repr

structure Receipt where
  success           : Bool
  blockNumber       : ℕ
  gasUsed           : ℕ
  effectiveGasPrice : Option ℕ
  logs              : List Log
  deriving DecidableEq, Repr

structure ExecutionIntent where
  action        : JournalAction
  wallet        : Address
  pool          : Address
  claim         : Option Claim
  quantityAtoms : ℕ
  limitAtoms    : ℕ

inductive EffectResult
  | confirmed (collateralAtoms : Option ℕ)
  | mismatch
  deriving DecidableEq, Repr

-- The amount that a log shows for the intent, if it shows its effect.
def matchLog (intent : ExecutionIntent) (claim : Claim) (log : Log) : Option ℕ :=
  if log.address ≠ intent.pool then none
  else match log.event with
    | some (.traded trader claim' isBuy quantity amount) =>
      if claim' = claim ∧ quantity = intent.quantityAtoms ∧ trader = intent.wallet ∧
          (intent.action = .buy ∧ isBuy ∧ amount ≤ intent.limitAtoms ∨
            intent.action = .sell ∧ ¬ isBuy ∧ amount ≥ intent.limitAtoms) then some amount else none
    | some (.redeemed owner claim' quantity amount)      =>
      if claim' = claim ∧ quantity = intent.quantityAtoms ∧ owner = intent.wallet ∧
          intent.action = .redeem then some amount else none
    | none                                               => none

def verifyEffect (intent : ExecutionIntent) (receipt : Receipt) (allowanceAfterAtoms : Option ℕ) :
    EffectResult :=
  if ¬ receipt.success then .mismatch
  else if intent.action = .approve then
    if allowanceAfterAtoms.any (· ≥ intent.limitAtoms) then .confirmed none else .mismatch
  else match intent.claim with
    | none       => .mismatch
    | some claim =>
      match receipt.logs.findSome? (matchLog intent claim) with
      | some amount => .confirmed (some amount)
      | none        => .mismatch

inductive RecoveryAction
  | none | release | verify | poll | rebroadcast
  deriving DecidableEq, Repr

structure ChainView where
  txFound       : Bool
  receiptStatus : Option Bool
  nonceLatest   : ℕ

def recoveryStep (status : JournalStatus) (nonce : Option ℕ) (deadline : Option ℤ)
    (chain : ChainView) (now : ℤ) : JournalStatus × RecoveryAction :=
  if status ∈ JournalStatus.final then (status, .none)
  else if status = .planned then (.abandoned, .release)
  else if chain.receiptStatus = some true then (.broadcast, .verify)
  else if chain.receiptStatus = some false then (.reverted, .release)
  else if chain.txFound then (.broadcast, .poll)
  else if nonce.any (chain.nonceLatest > ·) then (.replaced, .release)
  else if deadline.any (now > ·) then (.expired, .release)
  else (status, .rebroadcast)

variable {intent : ExecutionIntent} {receipt : Receipt} {allowance : Option ℕ} {claim : Claim}
  {log : Log} {amount : ℕ} {cost : Option ℕ}

theorem matchLog_le (h : matchLog intent claim log = some amount) (ha : intent.action = .buy) :
    amount ≤ intent.limitAtoms := by
  unfold matchLog at h
  grind

-- A purchase is confirmed at no more than its limit.
theorem verifyEffect_le (h : verifyEffect intent receipt allowance = .confirmed cost)
    (ha : intent.action = .buy) : cost.getD 0 ≤ intent.limitAtoms := by
  unfold verifyEffect at h
  split at h
  · cases h
  · rw [if_neg (by simp [ha])] at h
    split at h
    · cases h
    · split at h
      case h_1 hm =>
        cases h
        obtain ⟨_, _, _, _, hl, _⟩ := List.findSome?_eq_some_iff.mp hm
        exact matchLog_le hl ha
      case h_2    => cases h

end Sdk
