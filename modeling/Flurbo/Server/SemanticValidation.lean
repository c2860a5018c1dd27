import Flurbo.Library.Thresholds
import Flurbo.Library.Records
import Flurbo.Library.Fallible
import Flurbo.Sdk.Claims

-- Operator-reviewed predicates on observations, and what they leave of the outcomes of a claim. Pools
-- and hashes are numbers, and a field is `none` if it does not have the type that is asked of it.

open Except

namespace Semantics

inductive Operator
  | lt | lte | gt | gte | eq
  deriving DecidableEq, Repr

-- Values are integer observation atoms; identical observation IDs mean identical source, instrument,
-- timestamp/window, sampling, units and rounding, documented by the operator in `sourceRule`.
structure Predicate where
  event       : ℕ
  observation : String
  operator    : Operator
  value       : ℤ
  sourceRule  : String
  deriving DecidableEq, Repr

structure Market where
  pool       : ℕ
  rulesHash  : ℕ
  predicates : List Predicate

inductive Failure
  | mode | notJson | configuration | poolBinding
  | marketBinding | predicate | duplicate
  | unsupportedClaim | unsupportedDeployment | misconfigured | otherDeployment | excludesEvery
  deriving DecidableEq, Repr

-- Digits without leading zeros, and what `BigInt` makes of them.
def isNatural (count : ℕ) (cs : List Char) : Bool :=
  cs ≠ [] && cs.length ≤ count && cs.all Char.isDigit && cs.head? ≠ some '0'

def natural (cs : List Char) : ℕ := cs.foldl (fun n c => 10 * n + (c.toNat - '0'.toNat)) 0

def integer (v : String) : Option ℤ :=
  let read (cs : List Char) := if cs = ['0'] || isNatural 36 cs then some (natural cs : ℤ) else none
  match v.toList with
  | '-' :: cs => (read cs).map (- ·)
  | cs        => read cs

inductive Mode
  | disabled | enforced
  deriving DecidableEq, Repr

structure Config where
  mode    : Mode
  markets : AList fun _ : ℕ => Market
  errors  : AList fun _ : ℕ => Failure

structure Manifest where
  pool      : ℕ
  rulesHash : ℕ
  events    : ℕ

structure Input where
  scope         : Option ℤ
  mask          : Option String
  quantityAtoms : Option String

def truth (value : ℤ) (p : Predicate) : Bool :=
  match p.operator with
  | .lt  => value < p.value
  | .lte => value ≤ p.value
  | .gt  => value > p.value
  | .gte => value ≥ p.value
  | .eq  => value = p.value

-- The answer to an event in a state.
def bit (state event : ℕ) : Bool := state &&& 1 <<< event ≠ 0

def candidates (group : List Predicate) : List ℤ :=
  group.flatMap fun p => [p.value - 1, p.value, p.value + 1]

def feasible (predicates : List Predicate) (state : ℕ) : Bool :=
  (Records.groupBy Predicate.observation predicates).entries.all fun group =>
    (candidates group.snd).any fun value => group.snd.all fun p => truth value p == bit state p.event

def selected (count scope : ℕ) : List ℕ := (List.range count).filter (bit scope)

def localState (selected : List ℕ) (state : ℕ) : ℕ :=
  (selected.foldl (fun (s : ℕ × ℕ) event =>
    (if bit state event then s.1 ||| 1 <<< s.2 else s.1, s.2 + 1)) (0, 0)).1

def pays (selected : List ℕ) (mask state : ℕ) : Bool := bit mask (localState selected state)

structure Row where
  state      : ℕ
  admissible : Bool
  pays       : Bool
  deriving DecidableEq, Repr

-- Exact existing uniform-VOID fractions, of the settlements whose observed answers are consistent.
def voidPayouts (count : ℕ) (matrix : List Row) (quantity : ℕ) : List ℕ :=
  (List.range' 1 (1 <<< count - 1)).flatMap fun invalid =>
    (List.range (1 <<< count)).filterMap fun yes =>
      if yes &&& invalid ≠ 0 then
        none
      else
        let completions := matrix.filter fun s => s.state &&& Bits.complement 32 invalid = yes
        if completions.any (·.admissible) then
          some (quantity * (completions.filter (·.pays)).length / completions.length)
        else
          none

inductive Status
  | collision | noDeclaredCollision | unknown
  deriving DecidableEq, Repr

inductive Coverage
  | complete | partly | unknown
  deriving DecidableEq, Repr

inductive Code
  | semanticCollision | semanticsUnknown
  deriving DecidableEq, Repr

structure Assessment where
  pool                       : ℕ
  rulesHash                  : ℕ
  claim                      : Claim
  quantityAtoms              : ℕ
  checkedAt                  : ℤ
  expiresAt                  : ℤ
  status                     : Status
  code                       : Option Code
  coverage                   : Coverage
  ordinaryMinimumPayoutAtoms : ℕ
  ordinaryMaximumPayoutAtoms : ℕ
  maximumVoidPayoutAtoms     : ℕ
  matrix                     : List Row
  predicates                 : List Predicate
  deriving DecidableEq, Repr

inductive Result
  | disabled (pool rulesHash : ℕ) (claim : Claim) (quantityAtoms : ℕ) (checkedAt expiresAt : ℤ)
  | enforced (assessment : Assessment)
  deriving DecidableEq, Repr

def validateClaim (scope : Option ℤ) (mask events : ℕ) : Except Failure Claim :=
  match scope with
  | some scope =>
    if 0 < scope ∧ Sdk.validateClaim ⟨scope.toNat, mask⟩ events then .ok ⟨scope.toNat, mask⟩
    else .error .unsupportedClaim
  | none       => .error .unsupportedClaim

def assess (manifest : Manifest) (claim : Claim) (quantity : ℕ) (predicates : List Predicate) (now : ℤ) :
    Except Failure Assessment :=
  let count := manifest.events
  let events := selected count claim.scope
  let matrix := (List.range (1 <<< count)).map fun state =>
    (⟨state, feasible predicates state, pays events claim.mask state⟩ : Row)
  let admissible := matrix.filter (·.admissible)
  if admissible = [] then
    .error .excludesEvery
  else
    let collision := !admissible.any (·.pays)
    let coverage :=
      if events.all fun i => predicates.any (·.event = i) then Coverage.complete
      else if predicates ≠ [] then .partly else .unknown
    .ok {
      pool                       := manifest.pool
      rulesHash                  := manifest.rulesHash
      claim                      := claim
      quantityAtoms              := quantity
      checkedAt                  := now
      expiresAt                  := now + 60
      status                     := if collision then .collision
        else if coverage = .complete then .noDeclaredCollision else .unknown
      code                       := if collision then some .semanticCollision
        else if coverage = .complete then none else some .semanticsUnknown
      coverage                   := coverage
      ordinaryMinimumPayoutAtoms := if admissible.all (·.pays) then quantity else 0
      ordinaryMaximumPayoutAtoms := if collision then 0 else quantity
      maximumVoidPayoutAtoms     := (voidPayouts count matrix quantity).foldl max 0
      matrix                     := matrix
      predicates                 := predicates }

end Semantics
