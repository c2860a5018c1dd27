import Flurbo.Contracts.FactoredPositions

-- Claims as the runtime of an agent reads them. Amounts and masks are exact integers in the source,
-- as strings or as `bigint`; here they are natural numbers.

open FactoredCost (popcount project)

namespace Sdk

def scopeEvents (scope : ℕ) : List ℕ :=
  (List.range 31).filter fun i => scope &&& 1 <<< i ≠ 0

-- The local state that a full assignment leaves in the events of a scope.
def localState (scope state : ℕ) : ℕ :=
  ((scopeEvents scope).foldl (fun (s : ℕ × ℕ) event =>
    (if state &&& 1 <<< event ≠ 0 then s.1 ||| 1 <<< s.2 else s.1, s.2 + 1)) (0, 0)).1

def paysIn (claim : Claim) (state : ℕ) : Bool :=
  claim.mask &&& 1 <<< localState claim.scope state ≠ 0

-- `validateClaim` of the shared module.
def validateClaim (claim : Claim) (events : ℕ) : Bool :=
  let legs := (List.range 4).filter fun i => claim.scope &&& 1 <<< i ≠ 0
  events ∈ [2, 3, 4] && 0 < claim.mask && claim.mask < 1000 && 0 < claim.scope &&
    claim.scope < 2 ^ 4 && claim.scope < 2 ^ events && legs.length ≤ 3 &&
      claim.mask < 1 <<< 2 ^ legs.length - 1

-- `payoutFraction`, for a claim and a resolution that pass its checks.
def payoutFraction (claim : Claim) (eventCount yesMask voidMask : ℕ) : ℕ × ℕ :=
  let all := 2 ^ eventCount - 1
  let known := all ^^^ voidMask
  let states := (List.range (all + 1)).filter fun state => state &&& known = yesMask
  ((states.filter (paysIn claim)).length, states.length)

end Sdk
