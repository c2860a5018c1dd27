import Flurbo.Library.Bits
import Flurbo.Library.Enclosure
import Flurbo.Library.Fallible
import Flurbo.Sdk.Claims
import Flurbo.Server.SemanticValidation

-- The enumeration of the states of a market of two to four events, with the weights rounded outwards.
-- In a snapshot that is not yet validated, a field is `none` if it does not have the type that is asked
-- of it. All liability arithmetic is in integer token atoms.

open Except
open Semantics (isNatural natural)

namespace PairMath

inductive Failure
  | eventPair | atom | liquidity | order | factors | scope | table | domain | width
  | unsupportedClaim | unboundedProbability
  deriving DecidableEq, Repr

structure RawFactor where
  scope  : Option ℤ
  values : Option (List (Option String))

structure RawSnapshot where
  events    : Option ℤ
  a         : Option ℤ
  b         : Option ℤ
  liquidity : Option String
  order     : Option (List (Option ℤ))
  factors   : Option (List RawFactor)

-- The number of ones among the binary digits.
def ones (n : ℕ) : ℕ := n.bitIndices.length

structure Factor where
  scope         : ℕ
  values        : List ℕ
  length_values : values.length = 2 ^ ones scope

namespace Factor

def maximum (f : Factor) : ℕ := f.values.foldl max 0

end Factor

structure Snapshot where
  events        : ℕ
  a             : ℕ
  b             : ℕ
  liquidity     : ℕ
  order         : List ℕ
  factors       : List Factor
  liquidity_pos : 0 < liquidity
  maxima_le     : (factors.map Factor.maximum).sum ≤ 100 * liquidity

def atom (v : Option String) : Except Failure ℕ :=
  match v with
  | none   => .error .atom
  | some v =>
    if (v.toList = ['0'] ∨ isNatural 39 v.toList) ∧ natural v.toList ≤ 2 ^ 128 - 1 then
      .ok (natural v.toList)
    else
      .error .atom

theorem length_atoms {bits : ℕ} {vs : List (Option String)} {ns : List ℕ}
    (ht : ¬ (bits > 3 ∨ vs.length ≠ 2 ^ bits)) (hv : vs.mapM atom = .ok ns) : ns.length = 2 ^ bits := by
  rw [not_or, not_not] at ht
  rw [← (mapM_eq_ok.mp hv).length_eq, ht.2]

def eventPair (s : RawSnapshot) : Except Failure (ℕ × ℕ × ℕ) :=
  match s.events, s.a, s.b with
  | some events, some a, some b =>
    if events ∉ ([2, 3, 4] : List ℤ) ∨ a = b ∨ min a b < 0 ∨ max a b ≥ events then
      .error .eventPair
    else
      .ok (events.toNat, a.toNat, b.toNat)
  | _, _, _ => .error .eventPair

-- The source sorts the entries as text, which is the order of the numbers where the test can succeed.
def eliminationOrder (events : ℕ) (order : Option (List (Option ℤ))) : Except Failure (List ℕ) :=
  match order.bind fun l => l.mapM id with
  | none   => .error .order
  | some l =>
    if l.length ≠ events ∨ l.insertionSort (· ≤ ·) ≠ (List.range events).map Nat.cast then
      .error .order
    else
      .ok (l.map Int.toNat)

def factor (events : ℕ) (f : RawFactor) : Except Failure Factor :=
  match f.scope with
  | none       => .error .scope
  | some scope =>
    if scope < 1 ∨ scope ≥ 2 ^ events then
      .error .scope
    else
      match f.values with
      | none        => .error .table
      | some values =>
        if ht : ones scope.toNat > 3 ∨ values.length ≠ 2 ^ ones scope.toNat then
          .error .table
        else
          match hv : values.mapM atom with
          | .error e  => .error e
          | .ok atoms => .ok ⟨scope.toNat, atoms, length_atoms ht hv⟩

-- The tables that mention an event are joined, and the event is eliminated from the joined table.
def eliminate (scopes : List ℕ) (event : ℕ) : Except Failure (List ℕ) :=
  let joined := (scopes.filter fun scope => scope &&& 1 <<< event ≠ 0).foldl (· ||| ·) (1 <<< event)
  if ones joined > 3 then
    .error .width
  else
    .ok ((scopes.filter fun scope => scope &&& 1 <<< event = 0) ++
      [joined &&& Bits.complement 32 (1 <<< event)])

def validatePairSnapshot (s : RawSnapshot) : Except Failure Snapshot := do
  let (events, a, b) ← eventPair s
  let liquidity ← atom s.liquidity
  if hl : 0 < liquidity then
    let order ← eliminationOrder events s.order
    match s.factors with
    | none    => .error .factors
    | some fs =>
      if fs.length > 64 then
        .error .factors
      else
        let fs ← fs.mapM (factor events)
        if hm : (fs.map Factor.maximum).sum ≤ 100 * liquidity then
          let _ ← order.foldlM eliminate (fs.map Factor.scope)
          return ⟨events, a, b, liquidity, order, fs, hl, hm⟩
        else
          .error .domain
  else
    .error .liquidity

def S : ℕ := 10 ^ 48

-- `exp(-n/d)`, with `0 ≤ n/d ≤ 100`, reduced by 128 so that the argument of the series is below 1.
def weight (n d : ℕ) : Enclosure :=
  (Enclosure.square S)^[7] ((Enclosure.exp S n (d * 128) 64).inv S)

def ratio (i j : Enclosure) : Except Failure Enclosure :=
  if j.lo ≤ 0 then .error .unboundedProbability else .ok (i.div S j)

def product (i j : Enclosure) : Enclosure := i.mul S j

-- Thousandths, with halves rounded away from zero.
def rounded (v : ℤ) : ℤ :=
  if v < 0 then -((-v * 1000 + S / 2) / S) else (v * 1000 + S / 2) / S

-- The bits of a state at the events of a scope, packed together.
def localState (events scope state : ℕ) : ℕ :=
  ((List.range events).foldl (fun (s : ℕ × ℕ) event =>
    if scope &&& 1 <<< event ≠ 0 then
      (if state &&& 1 <<< event ≠ 0 then s.1 ||| 1 <<< s.2 else s.1, s.2 + 1)
    else
      s) (0, 0)).1

theorem localState_eq (events scope state : ℕ) : localState events scope state =
    Bits.gather ((List.range events).filter scope.testBit) state.testBit := by
  have h := @Bits.foldl_gather ((List.range events).filter scope.testBit) state 0 0
  rw [Nat.zero_or, Nat.shiftLeft_zero, List.foldl_map, List.foldl_filter] at h
  rw [← h, localState]
  simp only [Nat.one_shiftLeft, Bits.and_two_pow_ne_zero]

theorem localState_lt (events scope state : ℕ) : localState events scope state < 2 ^ ones scope := by
  have hs : (List.range events).filter scope.testBit ⊆ scope.bitIndices := fun i hi => by
    rw [Nat.mem_bitIndices]
    exact (List.mem_filter.mp hi).2
  have hl := (List.subperm_of_subset (List.nodup_range.filter _) hs).length_le
  rw [localState_eq]
  exact Bits.gather_lt.trans_le (Nat.pow_le_pow_right Nat.two_pos hl)

-- Every state has its entry in a table of the right length.
def Factor.value (f : Factor) (events state : ℕ) : ℕ :=
  f.values.get ⟨localState events f.scope state, by
    rw [f.length_values]
    exact localState_lt events f.scope state⟩

def score (s : Snapshot) (state : ℕ) : ℕ :=
  s.factors.foldl (fun q f => q + f.value s.events state) 0

def distribution (s : Snapshot) : List Enclosure :=
  let scores := (List.range (2 ^ s.events)).map (score s)
  let max := scores.foldl max 0
  scores.map fun q => weight (max - q) s.liquidity

inductive Reason
  | rareCondition | roundingUncertain
  deriving DecidableEq, Repr

structure PairValues (α : Type*) where
  a           : α
  b           : α
  joint       : α
  givenYes    : α
  givenNo     : α
  independent : α
  difference  : α
  deriving DecidableEq, Repr

structure ClaimValues (α : Type*) where
  market      : α
  independent : α
  difference  : α
  deriving DecidableEq, Repr

-- The total of the weights of the states that a test selects.
def select (weights : List Enclosure) (test : ℕ → Bool) : Enclosure :=
  Enclosure.sum ((weights.zipIdx.filter fun w => test w.2).map Prod.fst)

def holds (state event : ℕ) : Bool := state &&& 1 <<< event ≠ 0

def ends (i : Enclosure) : ℤ × ℤ := (i.lo, i.hi)

def difference (i j : Enclosure) : ℤ × ℤ := (i.lo - j.hi, i.hi - j.lo)

-- A value whose two ends round differently has the reason in its place.
def certified (bounds : ℤ × ℤ) : Except Reason ℤ :=
  if rounded bounds.1 = rounded bounds.2 then .ok (rounded bounds.1) else .error .roundingUncertain

-- The cutoff is a display policy, not a statement that a rare event is impossible.
def conditional (condition : Enclosure) (both given : Enclosure) : Except Failure (Except Reason ℤ) :=
  if condition.lo ≥ S / 1000000000 then do
    return certified (ends (← ratio both given))
  else
    return .error .rareCondition

def certifiedPair (s : RawSnapshot) : Except Failure (PairValues (Except Reason ℤ)) := do
  let s ← validatePairSnapshot s
  let weights := distribution s
  let total := Enclosure.sum weights
  let wa := select weights fun x => holds x s.a
  let wb := select weights fun x => holds x s.b
  let wnb := select weights fun x => !holds x s.b
  let wab := select weights fun x => holds x s.a && holds x s.b
  let wanb := select weights fun x => holds x s.a && !holds x s.b
  let a ← ratio wa total
  let b ← ratio wb total
  let nb ← ratio wnb total
  let joint ← ratio wab total
  let independent := product a b
  let givenYes ← conditional b wab wb
  let givenNo ← conditional nb wanb wnb
  return {
    a           := certified (ends a)
    b           := certified (ends b)
    joint       := certified (ends joint)
    givenYes    := givenYes
    givenNo     := givenNo
    independent := certified (ends independent)
    difference  := certified (difference joint independent)
  }

def claimEvents (scope : ℕ) : List ℕ := (List.range 4).filter fun i => scope &&& 1 <<< i ≠ 0

def marginal (weights : List Enclosure) (event : ℕ) : Except Failure (Enclosure × Enclosure) := do
  let no ← ratio (select weights fun state => holds state event == false) (Enclosure.sum weights)
  let yes ← ratio (select weights fun state => holds state event == true) (Enclosure.sum weights)
  return (no, yes)

-- Independence is the product distribution of the marginals of the selected events.
def certifiedClaim (s : RawSnapshot) (claim : Claim) :
    Except Failure (ClaimValues (Except Reason ℤ)) :=
  if !Sdk.validateClaim claim ((s.events.getD 0).toNat) then
    .error .unsupportedClaim
  else do
    let selected := claimEvents claim.scope
    let s ← validatePairSnapshot { s with a := some 0, b := some 1 }
    let weights := distribution s
    let total := Enclosure.sum weights
    let probabilities ← selected.mapM (marginal weights)
    let states := (List.range (2 ^ selected.length)).filter fun state => claim.mask &&& 1 <<< state ≠ 0
    let market ← ratio (Enclosure.sum (states.map fun state => select weights fun x =>
      selected.zipIdx.all fun e => holds x e.1 == holds state e.2)) total
    let independent := Enclosure.sum (states.map fun state => probabilities.zipIdx.foldl (fun p q =>
      product p (if holds state q.2 then q.1.2 else q.1.1)) ⟨S, S⟩)
    return {
      market      := certified (ends market)
      independent := certified (ends independent)
      difference  := certified (difference market independent)
    }

end PairMath
