import Flurbo.Library.Machine
import Flurbo.Sdk.Executor

-- The policy, the plan and the check of effects of the Rust and C++ runtimes, whose amounts are signed 128-bit numbers
-- and whose chain reader returns unsigned ones. The two differ only in what an overflow does.

open Machine Except

namespace Sdk

namespace Native

-- `i128` has this many bits beside the sign.
abbrev bits : ℕ := 127

-- What the policy is asked with amounts of the chain taken as signed.
structure Candidate where
  action              : JournalAction
  nameSpace           : String
  claim               : Claim
  quantityAtoms       : ℕ
  limitAtoms          : ℕ
  slippageBps         : ℕ
  quoteBlockTimestamp : ℤ
  gasLimit            : ℤ
  maxFeePerGas        : ℤ

structure PolicyInput where
  policy           : PolicyConfig
  now              : ℤ
  market           : Market
  nativeBalanceWei : ℤ
  holdings         : List (Claim × ℤ)
  journal          : List PolicyEntry
  candidate        : Candidate

variable (a : Arith)

section WorstCaseLoss

-- The maps of the two languages are in the order of their keys. In which order positive amounts are added makes no
-- difference, also to an overflow.
def addPosition (claim : Claim) (quantity : ℤ) : List (Claim × ℤ) → Except Fault (List (Claim × ℤ))
  | []                  => do return [(claim, ← a.signed (0 + quantity))]
  | (c, q) :: positions =>
    if c = claim then do return (c, ← a.signed (q + quantity)) :: positions
    else do return (c, q) :: (← addPosition claim quantity positions)

def addEntry (market : String) (s : List (Claim × ℤ) × ℤ) (e : PolicyEntry) :
    Except Fault (List (Claim × ℤ) × ℤ) :=
  match e.claim with
  | none       => .ok s
  | some claim =>
    if e.nameSpace ≠ market then .ok s
    else if e.action = .buy ∧ e.status = .confirmed then do
      return (← addPosition a claim e.quantityAtoms s.1, ← a.signed (s.2 + (e.costAtoms.getD 0 : ℕ)))
    else if e.action = .buy ∧ e.status ∈ JournalStatus.unfinished then do
      return (← addPosition a claim e.quantityAtoms s.1, ← a.signed (s.2 + e.limitAtoms))
    else if (e.action = .sell ∨ e.action = .redeem) ∧ e.status = .confirmed then do
      return (← addPosition a claim (← a.signed (-e.quantityAtoms)) s.1, s.2)
    else .ok s

def paying (positions : List (Claim × ℤ)) (state : ℕ) : List ℤ :=
  (positions.filter fun p => p.2 > 0 ∧ paysIn p.1 state).map (·.2)

def lowest (payouts : List ℤ) : ℤ :=
  (payouts.foldl (fun floor payout => if floor.all (payout < ·) then some payout else floor) none).getD 0

def worstCaseLoss (input : PolicyInput) : Except Fault ℤ := do
  let (positions, cost) ← input.journal.foldlM (addEntry a input.market.nameSpace) ([], 0)
  let positions ← addPosition a input.candidate.claim input.candidate.quantityAtoms positions
  let cost ← a.signed (cost + input.candidate.limitAtoms)
  let payouts ← (List.range (2 ^ input.market.eventCount)).mapM fun state => a.sum (paying positions state)
  a.signed (cost - lowest payouts)

end WorstCaseLoss

def amounts (journal : List PolicyEntry) : List ℤ := (journal.map (·.spendOf)).map fun (n : ℕ) => (n : ℤ)

-- The amounts that a purchase is checked by: spending, spending in each window, position and worst loss.
structure Totals where
  total    : ℤ
  windows  : List ℤ
  position : ℤ
  loss     : ℤ

def spending (journal : List PolicyEntry) (limit : ℕ) : Except Fault ℤ := do
  a.signed ((← a.sum (amounts journal)) + limit)

def totals (input : PolicyInput) (held : ℤ) : Except Fault Totals := do
  let c := input.candidate
  let total ← spending a input.journal c.limitAtoms
  let windows ← input.policy.windows.mapM fun w =>
    spending a (input.journal.filter (·.plannedAt ≥ input.now - w.seconds)) c.limitAtoms
  let pendingSame ← a.sum (((input.journal.filter fun e => e.action = .buy ∧ e.status ∈ JournalStatus.unfinished ∧
    e.nameSpace = c.nameSpace ∧ e.claim = some c.claim).map (·.quantityAtoms)).map fun (n : ℕ) => (n : ℤ))
  let position ← a.signed ((← a.signed (held + pendingSame)) + c.quantityAtoms)
  return ⟨total, windows, position, ← worstCaseLoss a input⟩

-- Only purchases are checked by them.
def totalsOf (input : PolicyInput) (held : ℤ) : Except Fault Totals :=
  if input.candidate.action = .buy then totals a input held else .ok ⟨0, [], 0, 0⟩

-- What is found, given the amounts.
def violations (input : PolicyInput) (held : ℤ) (t : Totals) (fee rest : ℤ) : List Violation :=
  let p := input.policy
  let c := input.candidate
  let buy := c.action = .buy
  let trade := buy ∨ c.action = .sell
  let closed := ¬ input.market.isOpen ∨ input.now ≥ input.market.closesAt
  let checks : List (Violation × Bool) :=
    [(.serviceLimit, c.quantityAtoms < 1 ∨ c.quantityAtoms > serviceMaxAtoms ∨
        c.limitAtoms > serviceMaxAtoms ∨ trade ∧ c.slippageBps ∉ serviceSlippageBps),
      (.marketNotAllowed, c.nameSpace ∉ p.markets ∨ c.nameSpace ≠ input.market.nameSpace),
      (.marketClosed, trade ∧ closed),
      (.marketNotResolved, c.action = .redeem ∧ ¬ input.market.resolved),
      (.tooCloseToClose,
        trade ∧ ¬ closed ∧ input.market.closesAt - input.now < p.minSecondsBeforeClose),
      (.actionDisabled, c.action = .sell ∧ ¬ p.allowSell ∨ c.action = .redeem ∧ ¬ p.allowRedeem),
      (.holdingsInsufficient, ¬ buy ∧ held < c.quantityAtoms),
      (.quantityLimit, c.quantityAtoms > p.maxQuantityAtoms),
      (.tradeCostLimit, buy ∧ c.limitAtoms > p.maxTradeCostAtoms),
      (.slippageLimit, trade ∧ c.slippageBps > p.maxSlippageBps),
      (.quoteStale, trade ∧ input.now - c.quoteBlockTimestamp > p.quoteMaxAgeSeconds),
      (.totalSpendLimit, buy ∧ t.total > p.totalAtoms),
      (.windowSpendLimit, buy ∧ (t.windows.zip p.windows).any fun (spent, w) => spent > w.atoms),
      (.positionLimit, buy ∧ t.position > p.maxPositionAtoms),
      (.worstCaseLossLimit, buy ∧ t.loss > p.maxWorstCaseLossAtoms),
      (.gasFeeLimit, fee > p.maxFeeWei),
      (.gasReserve, rest < p.reserveWei),
      (.pendingLimit, pendingCount input.journal ≥ p.maxPending)]
  (checks.filter (·.2)).map (·.1)

def evaluatePolicy (input : PolicyInput) : Except Fault (List Violation) := do
  let c := input.candidate
  let held ← a.sum ((input.holdings.filter (·.1 = c.claim)).map (·.2))
  let t ← totalsOf a input held
  let fee ← a.signed (c.gasLimit * c.maxFeePerGas)
  let rest ← a.signed (input.nativeBalanceWei - fee)
  return violations input held t fee rest

-- The fees that the chain reader returns, whose answers are unsigned.
def fees (price : ℕ) (priority : Option ℕ) : Except Fault Fees := do
  let maxFee := (← a.unsigned (price * 120)) / 100
  return ⟨maxFee, min (priority.getD 0) maxFee⟩

section Plan

variable (o : Options) (p : Plan) (view : PlanView) (times : PlanTimes) (gas : ℕ) (j : Journal)

def planGas : Except Fault (Except Refusal ℕ) :=
  match view.estimateGas with
  | none          => .ok (.error .simulationFailed)
  | some estimate => do
    let gas := (← a.unsigned (estimate * 120)) / 100
    return if gas = 0 ∨ gas > maxGas then .error .simulationFailed else .ok gas

def approvalViolations (amountAtoms : ℕ) (fee rest : ℤ) : List Violation :=
  let checks : List (Violation × Bool) :=
    [(.serviceLimit, amountAtoms < 1 ∨ amountAtoms > 100_000_000),
      (.marketNotAllowed, p.deployment.nameSpace ∉ o.policy.markets),
      (.gasFeeLimit, fee > o.policy.maxFeeWei),
      (.gasReserve, rest < o.policy.reserveWei),
      (.pendingLimit, pendingCount (policyEntries j) ≥ o.policy.maxPending)]
  (checks.filter (·.2)).map (·.1)

def input (claim : Claim) : PolicyInput where
  policy           := o.policy
  now              := times.evaluatedAt
  market           := p.market view
  nativeBalanceWei := a.narrow view.native
  holdings         := (p.holdings view).map fun (c, held) => (c, a.narrow held)
  journal          := policyEntries j
  candidate        :=
    { action              := p.intent.action
      nameSpace           := p.deployment.nameSpace
      claim               := claim
      quantityAtoms       := p.intent.quantityAtoms
      limitAtoms          := p.intent.limitAtoms
      slippageBps         := p.slippageBps
      quoteBlockTimestamp := (p.quoteBlock.map (·.timestamp)).getD times.quotedAt
      gasLimit            := a.narrow gas
      maxFeePerGas        := a.narrow view.fees.maxFeePerGas }

-- The fee is computed for every intent, and once more by the policy.
def planViolations : Except Fault (List Violation) := do
  let fee := a.narrow (← a.unsigned (gas * view.fees.maxFeePerGas))
  match p.intent.claim? with
  | none       => return approvalViolations o p j p.intent.limitAtoms fee (← a.signed (a.narrow view.native - fee))
  | some claim => evaluatePolicy a (input a o p view times gas j claim)

def plan (id : String) (owner : Owner) : Except Fault (Except Refusal Journal) :=
  match buildTransaction p.intent p.deployment with
  | .error e => .ok (.error e)
  | .ok tx   =>
    if ¬ view.simulated then .ok (.error .simulationFailed)
    else do
      match ← planGas a view with
      | .error e => return .error e
      | .ok gas  =>
        let violations ← planViolations a o p view times gas j
        return if violations ≠ [] then .error (.rejectedByPolicy violations)
          else .ok (j ++ [p.entry view times gas tx id owner])

end Plan

section Effect

inductive Effect
  | confirmed (collateralAtoms : Option ℤ)
  | mismatch
  deriving DecidableEq, Repr

-- The amount that a log shows for the intent, if it shows its effect.
def matchLog (intent : ExecutionIntent) (claim : Claim) (log : Log) : Option ℤ :=
  if log.address ≠ intent.pool then none
  else match log.event with
    | some (.traded trader claim' isBuy quantity amount) =>
      if claim' = claim ∧ a.narrow quantity = intent.quantityAtoms ∧ trader = intent.wallet ∧
          (intent.action = .buy ∧ isBuy ∧ a.narrow amount ≤ intent.limitAtoms ∨
            intent.action = .sell ∧ ¬ isBuy ∧ a.narrow amount ≥ intent.limitAtoms) then some (a.narrow amount)
      else none
    | some (.redeemed owner claim' quantity amount)      =>
      if claim' = claim ∧ a.narrow quantity = intent.quantityAtoms ∧ owner = intent.wallet ∧
          intent.action = .redeem then some (a.narrow amount) else none
    | none                                               => none

def verifyEffect (intent : ExecutionIntent) (receipt : Receipt) (allowanceAfterAtoms : Option ℕ) : Effect :=
  if ¬ receipt.success then .mismatch
  else if intent.action = .approve then
    if allowanceAfterAtoms.any (· ≥ intent.limitAtoms) then .confirmed none else .mismatch
  else match intent.claim with
    | none       => .mismatch
    | some claim =>
      match receipt.logs.findSome? (matchLog a intent claim) with
      | some amount => .confirmed (some amount)
      | none        => .mismatch

end Effect

end Native

-- A debug build of Rust panics when an operation overflows, a release build wraps around.
inductive Build
  | debug | release
  deriving DecidableEq, Repr

namespace Rust

def arith : Build → Arith
  | .debug   => checked Native.bits
  | .release => wrapping Native.bits

def evaluatePolicy (b : Build) := Native.evaluatePolicy (arith b)

def fees (b : Build) := Native.fees (arith b)

def plan (b : Build) := Native.plan (arith b)

def verifyEffect (b : Build) := Native.verifyEffect (arith b)

end Rust

namespace Cpp

def arith : Arith := undefined Native.bits

def evaluatePolicy := Native.evaluatePolicy arith

def fees := Native.fees arith

def plan := Native.plan arith

def verifyEffect := Native.verifyEffect arith

end Cpp

end Sdk
