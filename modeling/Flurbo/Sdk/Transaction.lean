import Flurbo.Sdk.Policy

-- The only transactions that a runtime signs.

open Evm Except

namespace Sdk

structure Deployment where
  nameSpace  : String
  chainId    : ℕ
  pool       : Address
  closesAt   : ℤ
  eventCount : ℕ
  deriving DecidableEq, Repr

def collateral : Address := 0xa9012a055bd4e0edff8ce09f960291c09d5322dc

def maxQuantityAtoms : ℕ := 100_000_000

def maxLimitAtoms : ℕ := 100_000_000

inductive Intent
  | buy (claim : Claim) (quantityAtoms limitAtoms : ℕ) (deadline : ℤ)
  | sell (claim : Claim) (quantityAtoms limitAtoms : ℕ) (deadline : ℤ)
  | redeem (claim : Claim) (quantityAtoms : ℕ)
  | approve (amountAtoms : ℕ)
  deriving DecidableEq, Repr

namespace Intent

def action : Intent → JournalAction
  | buy ..     => .buy
  | sell ..    => .sell
  | redeem ..  => .redeem
  | approve .. => .approve

def claim? : Intent → Option Claim
  | buy claim ..    => some claim
  | sell claim ..   => some claim
  | redeem claim .. => some claim
  | approve ..      => none

-- The amounts that a journal entry records: "0" where an intent has none.

def quantityAtoms : Intent → ℕ
  | buy _ quantity ..  => quantity
  | sell _ quantity .. => quantity
  | redeem _ quantity  => quantity
  | approve ..         => 0

def limitAtoms : Intent → ℕ
  | buy _ _ limit _  => limit
  | sell _ _ limit _ => limit
  | redeem ..        => 0
  | approve amount   => amount

def deadline? : Intent → Option ℤ
  | buy _ _ _ deadline  => some deadline
  | sell _ _ _ deadline => some deadline
  | redeem ..           => none
  | approve ..          => none

end Intent

-- Calldata, as `decodeCall` reads it.
inductive Call
  | buy (claim : Claim) (quantity limit : ℕ) (deadline : ℤ)
  | sell (claim : Claim) (quantity limit : ℕ) (deadline : ℤ)
  | redeem (claim : Claim) (quantity : ℕ)
  | approve (spender : Address) (amount : ℕ)
  deriving DecidableEq, Repr

-- A trade reverts in blocks after its deadline; other calls have none.
def Call.deadline? : Call → Option ℤ
  | buy _ _ _ deadline  => some deadline
  | sell _ _ _ deadline => some deadline
  | redeem ..           => none
  | approve ..          => none

-- Every argument fits into its word.
def Call.encodes : Call → Bool
  | buy claim quantity limit deadline  =>
    claim.scope < 2 ^ 32 && claim.mask < 2 ^ 256 && quantity < 2 ^ 128 && limit < 2 ^ 128 &&
      0 ≤ deadline && deadline < 2 ^ 256
  | sell claim quantity limit deadline =>
    claim.scope < 2 ^ 32 && claim.mask < 2 ^ 256 && quantity < 2 ^ 128 && limit < 2 ^ 128 &&
      0 ≤ deadline && deadline < 2 ^ 256
  | redeem claim quantity              =>
    claim.scope < 2 ^ 32 && claim.mask < 2 ^ 256 && quantity < 2 ^ 128
  | approve _ amount                   => amount < 2 ^ 256

-- What of a request is not the same for all: they are on chain 10143, from the wallet, of value zero.
structure TransactionRequest where
  target : Address
  data   : Call
  deriving DecidableEq, Repr

-- Signed bytes. Their hash identifies them, and they stand for it here.
structure SignedTransaction extends TransactionRequest where
  nonce                : ℕ
  gas                  : ℕ
  maxFeePerGas         : ℕ
  maxPriorityFeePerGas : ℕ
  deriving DecidableEq, Repr

inductive Refusal
  | invalidInput
  | simulationFailed
  | rejectedByPolicy (violations : List Violation)
  | outOfTurn
  deriving DecidableEq, Repr

def refuseIf (c : Prop) [Decidable c] (e : Refusal) : Except Refusal Unit :=
  if c then .error e else .ok ()

def validClaim (tx : TransactionRequest) (claim : Claim) (quantity : ℕ) (d : Deployment) : Bool :=
  tx.target = d.pool && validateClaim claim d.eventCount && 1 ≤ quantity &&
    quantity ≤ maxQuantityAtoms

-- Whether the call is that of the intent, within the limits of the service.
def TransactionRequest.agrees (tx : TransactionRequest) (d : Deployment) : Intent → Bool
  | .approve amountAtoms                =>
    tx.target = collateral && tx.data = .approve d.pool amountAtoms && amountAtoms ≠ 0 &&
      amountAtoms ≤ maxLimitAtoms
  | .redeem claim quantity              =>
    tx.data = .redeem claim quantity && validClaim tx claim quantity d
  | .buy claim quantity limit deadline  =>
    tx.data = .buy claim quantity limit deadline && validClaim tx claim quantity d &&
      limit ≤ maxLimitAtoms && limit ≠ 0 && deadline < d.closesAt
  | .sell claim quantity limit deadline =>
    tx.data = .sell claim quantity limit deadline && validClaim tx claim quantity d &&
      limit ≤ maxLimitAtoms && deadline < d.closesAt

def validateTransaction (tx : TransactionRequest) (intent : Intent) (d : Deployment) :
    Except Refusal Unit := do
  refuseIf (d.chainId ≠ 10143) .invalidInput
  refuseIf (¬ tx.agrees d intent) .invalidInput

def buildTransaction (intent : Intent) (d : Deployment) : Except Refusal TransactionRequest := do
  let request : TransactionRequest := match intent with
    | .approve amount                     => ⟨collateral, .approve d.pool amount⟩
    | .redeem claim quantity              => ⟨d.pool, .redeem claim quantity⟩
    | .buy claim quantity limit deadline  => ⟨d.pool, .buy claim quantity limit deadline⟩
    | .sell claim quantity limit deadline => ⟨d.pool, .sell claim quantity limit deadline⟩
  refuseIf (¬ request.data.encodes) .invalidInput
  validateTransaction request intent d
  return request

variable {d : Deployment} {intent : Intent} {request : TransactionRequest} {c : Prop} [Decidable c]
  {e : Refusal} {u : Unit}

@[simp]
theorem refuseIf_eq_ok : refuseIf c e = .ok u ↔ ¬ c := by
  unfold refuseIf
  split <;> simp [*]

theorem buildTransaction_deadline (h : buildTransaction intent d = .ok request) :
    request.data.deadline? = intent.deadline? := by
  simp only [buildTransaction, bind_eq_ok, pure_eq_ok, ok.injEq] at h
  obtain ⟨_, _, _, _, rfl⟩ := h
  cases intent <;> rfl

end Sdk
