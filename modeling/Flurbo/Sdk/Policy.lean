import Flurbo.Sdk.Claims

-- The limits that the runtime checks before it plans a transaction. Times are in Unix seconds.

namespace Sdk

inductive JournalStatus
  | planned | signed | broadcast
  | confirmed | reverted | mismatch | replaced | expired | abandoned
  deriving DecidableEq, Repr

namespace JournalStatus

def unfinished : List JournalStatus := [planned, signed, broadcast]

def final : List JournalStatus := [confirmed, reverted, mismatch, replaced, expired, abandoned]

end JournalStatus

inductive JournalAction
  | approve | buy | sell | redeem
  deriving DecidableEq, Repr

structure SpendWindow where
  seconds : ℤ
  atoms   : ℕ
  deriving DecidableEq, Repr

structure PolicyConfig where
  markets               : List String
  maxQuantityAtoms      : ℕ
  maxTradeCostAtoms     : ℕ
  maxSlippageBps        : ℕ
  totalAtoms            : ℕ
  windows               : List SpendWindow
  maxPositionAtoms      : ℕ
  maxWorstCaseLossAtoms : ℕ
  maxFeeWei             : ℕ
  reserveWei            : ℕ
  quoteMaxAgeSeconds    : ℤ
  minSecondsBeforeClose : ℤ
  maxPending            : ℕ
  allowSell             : Bool
  allowRedeem           : Bool
  deriving DecidableEq, Repr

-- What a policy sees of a journal entry.
structure PolicyEntry where
  action        : JournalAction
  nameSpace     : String
  claim         : Option Claim
  quantityAtoms : ℕ
  limitAtoms    : ℕ
  costAtoms     : Option ℕ
  status        : JournalStatus
  plannedAt     : ℤ
  deriving DecidableEq, Repr

structure Market where
  nameSpace : String
  eventCount  : ℕ
  closesAt    : ℤ
  isOpen      : Bool
  resolved    : Bool

structure Candidate where
  action              : JournalAction
  nameSpace           : String
  claim               : Claim
  quantityAtoms       : ℕ
  limitAtoms          : ℕ
  slippageBps         : ℕ
  quoteBlockTimestamp : ℤ
  gasLimit            : ℕ
  maxFeePerGas        : ℕ

structure PolicyInput where
  policy           : PolicyConfig
  now              : ℤ
  market           : Market
  nativeBalanceWei : ℕ
  holdings         : List (Claim × ℕ)
  journal          : List PolicyEntry
  candidate        : Candidate

inductive Violation
  | serviceLimit | marketNotAllowed | marketClosed | marketNotResolved | tooCloseToClose
  | actionDisabled | holdingsInsufficient | quantityLimit | tradeCostLimit | slippageLimit
  | quoteStale | totalSpendLimit | windowSpendLimit | positionLimit | worstCaseLossLimit
  | gasFeeLimit | gasReserve | pendingLimit
  deriving DecidableEq, Repr

def serviceMaxAtoms : ℕ := 100_000_000

def serviceSlippageBps : List ℕ := [10, 50, 100]

-- What a buy counts toward spending.
def PolicyEntry.spendOf (e : PolicyEntry) : ℕ :=
  if e.action ≠ .buy then 0
  else if e.status = .confirmed then e.costAtoms.getD 0
  else if e.status ∈ JournalStatus.unfinished ∨ e.status = .mismatch then e.limitAtoms
  else 0

def totalSpend (journal : List PolicyEntry) : ℕ :=
  (journal.map (·.spendOf)).sum

-- The spending of entries planned at a time or later.
def spendSince (since : ℤ) (journal : List PolicyEntry) : ℕ :=
  totalSpend (journal.filter (·.plannedAt ≥ since))

def pendingCount (journal : List PolicyEntry) : ℕ :=
  (journal.filter (·.status ∈ JournalStatus.unfinished)).length

section WorstCaseLoss

-- The source keeps the positions in a map, which iterates in the order of insertion.
def addPosition (claim : Claim) (quantity : ℤ) : List (Claim × ℤ) → List (Claim × ℤ)
  | []                => [(claim, quantity)]
  | (c, q) :: positions =>
    if c = claim then (c, q + quantity) :: positions
    else (c, q) :: addPosition claim quantity positions

-- What an entry contributes to the positions and to their cost.
def addEntry (market : String) (s : List (Claim × ℤ) × ℕ) (e : PolicyEntry) :
    List (Claim × ℤ) × ℕ :=
  match e.claim with
  | none       => s
  | some claim =>
    if e.nameSpace ≠ market then s
    else if e.action = .buy ∧ e.status = .confirmed then
      (addPosition claim e.quantityAtoms s.1, s.2 + e.costAtoms.getD 0)
    else if e.action = .buy ∧ e.status ∈ JournalStatus.unfinished then
      (addPosition claim e.quantityAtoms s.1, s.2 + e.limitAtoms)
    else if (e.action = .sell ∨ e.action = .redeem) ∧ e.status = .confirmed then
      (addPosition claim (-e.quantityAtoms) s.1, s.2)
    else s

def payoutIn (positions : List (Claim × ℤ)) (state : ℕ) : ℤ :=
  (positions.map fun (claim, quantity) =>
    if quantity > 0 ∧ paysIn claim state then quantity else 0).sum

def worstCaseLoss (input : PolicyInput) : ℤ :=
  let (positions, cost) := input.journal.foldl (addEntry input.market.nameSpace) ([], 0)
  let positions := addPosition input.candidate.claim input.candidate.quantityAtoms positions
  let cost := cost + input.candidate.limitAtoms
  let floor := (List.range (2 ^ input.market.eventCount)).foldl (fun floor state =>
    let payout := payoutIn positions state
    if floor.all (payout < ·) then some payout else floor) none
  cost - floor.getD 0

end WorstCaseLoss

-- The violations in the order of the source's list, which is also that of its checks.
def evaluatePolicy (input : PolicyInput) : List Violation :=
  let p := input.policy
  let c := input.candidate
  let buy := c.action = .buy
  let trade := buy ∨ c.action = .sell
  let closed := ¬ input.market.isOpen ∨ input.now ≥ input.market.closesAt
  let held := ((input.holdings.filter (·.1 = c.claim)).map (·.2)).sum
  let pendingSame := ((input.journal.filter fun e => e.action = .buy ∧
    e.status ∈ JournalStatus.unfinished ∧ e.nameSpace = c.nameSpace ∧
      e.claim = some c.claim).map (·.quantityAtoms)).sum
  let fee := c.gasLimit * c.maxFeePerGas
  let checks : List (Violation × Bool) :=
    [(.serviceLimit, c.quantityAtoms < 1 ∨ c.quantityAtoms > serviceMaxAtoms ∨
        c.limitAtoms > serviceMaxAtoms ∨ trade ∧ c.slippageBps ∉ serviceSlippageBps),
      (.marketNotAllowed, c.nameSpace ∉ p.markets ∨ c.nameSpace ≠ input.market.nameSpace),
      (.marketClosed, trade ∧ closed),
      (.marketNotResolved, c.action = .redeem ∧ ¬ input.market.resolved),
      (.tooCloseToClose,
        trade ∧ ¬ closed ∧ input.market.closesAt - input.now < p.minSecondsBeforeClose),
      (.actionDisabled, c.action = .sell ∧ ¬ p.allowSell ∨ c.action = .redeem ∧ ¬ p.allowRedeem),
      (.holdingsInsufficient, ¬ buy ∧ held < c.quantityAtoms),
      (.quantityLimit, c.quantityAtoms > p.maxQuantityAtoms),
      (.tradeCostLimit, buy ∧ c.limitAtoms > p.maxTradeCostAtoms),
      (.slippageLimit, trade ∧ c.slippageBps > p.maxSlippageBps),
      (.quoteStale, trade ∧ input.now - c.quoteBlockTimestamp > p.quoteMaxAgeSeconds),
      (.totalSpendLimit, buy ∧ totalSpend input.journal + c.limitAtoms > p.totalAtoms),
      (.windowSpendLimit, buy ∧ p.windows.any fun w =>
        spendSince (input.now - w.seconds) input.journal + c.limitAtoms > w.atoms),
      (.positionLimit, buy ∧ held + pendingSame + c.quantityAtoms > p.maxPositionAtoms),
      (.worstCaseLossLimit, buy ∧ worstCaseLoss input > p.maxWorstCaseLossAtoms),
      (.gasFeeLimit, fee > p.maxFeeWei),
      (.gasReserve, (input.nativeBalanceWei : ℤ) - fee < p.reserveWei),
      (.pendingLimit, pendingCount input.journal ≥ p.maxPending)]
  (checks.filter (·.2)).map (·.1)

end Sdk
