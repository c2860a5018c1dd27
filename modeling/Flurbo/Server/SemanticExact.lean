import Flurbo.Library.Spread
import Flurbo.Server.SemanticValidation

-- The candidates next to the thresholds stand for all integers, so that the assessment is exact.

open Except

namespace Semantics

variable {predicates : List Predicate} {p : Predicate} {state : ℕ}

-- An integer for every observation.
abbrev Assignment := String → ℤ

-- The order relations that the operators of the rules name.
inductive Operator.Relates : Operator → ℤ → ℤ → Prop
  | lt  {value bound : ℤ} : value < bound → Relates .lt value bound
  | lte {value bound : ℤ} : value ≤ bound → Relates .lte value bound
  | gt  {value bound : ℤ} : bound < value → Relates .gt value bound
  | gte {value bound : ℤ} : bound ≤ value → Relates .gte value bound
  | eq  {value : ℤ}       : Relates .eq value value

-- The answers that an assignment leads to are those of the state. Events without a predicate may have
-- either answer.
def Leads (predicates : List Predicate) (x : Assignment) (state : ℕ) : Prop :=
  ∀ p ∈ predicates, p.operator.Relates (x p.observation) p.value ↔ state.testBit p.event

-- The same of the answers that a settlement has not declared invalid.
def Answers (predicates : List Predicate) (x : Assignment) (invalid yes : ℕ) : Prop :=
  ∀ p ∈ predicates, invalid.testBit p.event = false →
    (p.operator.Relates (x p.observation) p.value ↔ yes.testBit p.event)

@[simp]
theorem bit_eq (event : ℕ) : bit state event = state.testBit event := by
  rw [bit, Nat.one_shiftLeft, Bool.eq_iff_iff, decide_eq_true_iff]
  exact Bits.and_two_pow_ne_zero

section Candidates

variable {group : List Predicate} {value value' : ℤ}

theorem candidates_eq : candidates group = Thresholds.candidates (group.map (·.value)) := by
  simp only [candidates, Thresholds.candidates, List.flatMap_map, Order.pred_eq_sub_one,
    Order.succ_eq_add_one]

-- A predicate only compares with its own threshold.
theorem truth_alike (h : Thresholds.Alike (group.map (·.value)) value value') (hp : p ∈ group) :
    truth value p = truth value' p := by
  have hmem : p.value ∈ group.map (·.value) := List.mem_map_of_mem hp
  have ⟨hlt, hgt⟩ := h _ hmem
  have heq := h.eq_iff hmem
  simp only [truth]
  cases p.operator
  case lt  => exact decide_eq_decide.mpr hlt
  case lte => exact decide_eq_decide.mpr (by rw [← not_lt, ← not_lt, hgt])
  case gt  => exact decide_eq_decide.mpr hgt
  case gte => exact decide_eq_decide.mpr (by rw [ge_iff_le, ge_iff_le, ← not_lt, ← not_lt, hlt])
  case eq  => exact decide_eq_decide.mpr heq

-- If any integer answers the predicates of an observation alike, then so does a candidate.
theorem candidate_iff (h : group ≠ []) :
    (candidates group).any (fun value => group.all fun p => truth value p == bit state p.event) ↔
      ∃ value, ∀ p ∈ group, truth value p = state.testBit p.event := by
  simp only [List.any_eq_true, List.all_eq_true, beq_iff_eq, bit_eq]
  constructor
  · rintro ⟨value, -, hv⟩
    exact ⟨value, hv⟩
  · rintro ⟨value, hv⟩
    have ⟨value', hmem, halike⟩ := Thresholds.exists_candidate (by simpa using h : group.map (·.value) ≠ []) value
    exact ⟨value', candidates_eq ▸ hmem, fun p hp => (truth_alike halike hp).symm.trans (hv p hp)⟩

end Candidates

section Rules

-- Every event has at most one predicate.
def Distinct (predicates : List Predicate) : Prop := (predicates.map (·.event)).Nodup

variable {ids : List ℕ} {raw : List RawPredicate} {config config' : Config} {m : RawMarket} {pool : ℕ}
  {market : Market}

def Config.Accepted (config : Config) : Prop :=
  ∀ pool market, market ∈ config.markets.lookup pool → Distinct market.predicates

end Rules

section States

variable {count scope mask invalid yes : ℕ} {x : Assignment}

-- The answers of a state to the events of the claim are the index of its bit in the mask.
def Pays (claim : Claim) (count state : ℕ) : Prop :=
  claim.mask.testBit (Bits.gather (selected count claim.scope) state.testBit)

instance Pays.decidable {claim : Claim} {count state : ℕ} : Decidable (Pays claim count state) :=
  inferInstanceAs (Decidable (_ = true))

theorem localState_eq {events : List ℕ} : localState events state = Bits.gather events state.testBit := by
  have h := @Bits.foldl_gather events state 0 0
  rw [List.foldl_map, Nat.zero_or, Nat.shiftLeft_zero] at h
  rw [← h, localState]
  simp only [bit, Nat.one_shiftLeft, decide_eq_true_eq]

theorem exists_state (count : ℕ) (f : ℕ → Bool) : ∃ state < 2 ^ count, ∀ i < count, state.testBit i = f i :=
  ⟨Nat.ofBits fun i : Fin count => f i, Nat.ofBits_lt_two_pow _, fun i hi => Nat.testBit_ofBits_lt _ i hi⟩

-- A settlement with the events of `invalid` declared invalid, and `yes` the others that are answered
-- with Yes.
structure VoidSettlement (count invalid yes : ℕ) : Prop where
  void     : 1 ≤ invalid ∧ invalid < 2 ^ count
  answered : yes < 2 ^ count
  disjoint : yes &&& invalid = 0

-- The states that a settlement leaves open.
def completions (count invalid yes : ℕ) : List ℕ :=
  (List.range (2 ^ count)).filter fun state =>
    ∀ i < count, invalid.testBit i = false → state.testBit i = yes.testBit i

theorem and_complement_eq (hv : VoidSettlement count invalid yes) (hc : count ≤ 32) (hs : state < 2 ^ count) :
    state &&& Bits.complement 32 invalid = yes ↔
      ∀ i < count, invalid.testBit i = false → state.testBit i = yes.testBit i := by
  have hword : state < 2 ^ 32 := hs.trans_le (Nat.pow_le_pow_right Nat.two_pos hc)
  have hdisjoint (i : ℕ) : yes.testBit i = true → invalid.testBit i = false := by
    have h := congrArg (Nat.testBit · i) hv.disjoint
    simp only [Nat.testBit_and, Nat.zero_testBit] at h
    intro hy
    simpa [hy] using h
  constructor
  · rintro rfl i _ hi
    rw [Bits.testBit_and_complement hword, hi]
    simp
  · intro h
    apply Nat.eq_of_testBit_eq
    intro i
    rw [Bits.testBit_and_complement hword]
    by_cases hi : i < count
    case neg =>
      rw [Bits.testBit_eq_false hs (not_lt.mp hi), Bits.testBit_eq_false hv.answered (not_lt.mp hi)]
      rfl
    case pos =>
      cases hb : invalid.testBit i
      case false => simpa using h i hi hb
      case true  =>
        have : yes.testBit i = false := by
          by_contra hy
          have := hdisjoint i (by simpa using hy)
          rw [hb] at this
          cases this
        simp [this]

end States

section Assessment

variable {claim : Claim} {count quantity invalid yes n : ℕ} {x : Assignment} {row : Row}
  {manifest : Manifest} {now : ℤ} {a : Assessment}

def rowOf (predicates : List Predicate) (claim : Claim) (count state : ℕ) : Row :=
  ⟨state, feasible predicates state, pays (selected count claim.scope) claim.mask state⟩

def rows (predicates : List Predicate) (claim : Claim) (count : ℕ) : List Row :=
  (List.range (2 ^ count)).map (rowOf predicates claim count)

@[simp]
theorem rowOf_state : (rowOf predicates claim count state).state = state := rfl

-- What a settlement pays: the winning share of the states that it leaves open, rounded down.
def voidPayout (claim : Claim) (count quantity invalid yes : ℕ) : ℕ :=
  let states := completions count invalid yes
  quantity * (states.filter fun state => Pays claim count state).length / states.length

def payout (claim : Claim) (count quantity state : ℕ) : ℕ := if Pays claim count state then quantity else 0

-- The states that some assignment leads to.
def Reached (predicates : List Predicate) (count state : ℕ) : Prop :=
  state < 2 ^ count ∧ ∃ x, Leads predicates x state

-- What an assessment says, in terms of the assignments of integers to the observations.
structure Exact (predicates : List Predicate) (claim : Claim) (count quantity : ℕ) (a : Assessment) : Prop where
  states    : a.matrix.map (·.state) = List.range (2 ^ count)
  matrix    : ∀ row ∈ a.matrix, (row.admissible ↔ ∃ x, Leads predicates x row.state) ∧
                (row.pays ↔ Pays claim count row.state)
  collision : a.status = .collision ↔ ¬ ∃ state, Reached predicates count state ∧ Pays claim count state
  minimum   : IsLeast {n | ∃ state, Reached predicates count state ∧ n = payout claim count quantity state}
                a.ordinaryMinimumPayoutAtoms
  maximum   : IsGreatest {n | ∃ state, Reached predicates count state ∧ n = payout claim count quantity state}
                a.ordinaryMaximumPayoutAtoms
  void      : IsGreatest {n | ∃ invalid yes, VoidSettlement count invalid yes ∧
                (∃ x, Answers predicates x invalid yes) ∧
                n = voidPayout claim count quantity invalid yes} a.maximumVoidPayoutAtoms

section Payout

variable {A : ℕ → Prop} {c : Bool}

end Payout

end Assessment

-- Two questions on one observation: at least 100, and below 100.
def Testnet.closing : List Predicate :=
  [⟨0, "ETH/USD:close", .gte, 100, "Closing price"⟩, ⟨1, "ETH/USD:close", .lt, 100, "Closing price"⟩]

def Testnet.manifest : Manifest := ⟨7, 9, 2⟩

-- The claim that both answers are Yes.
def Testnet.request : Input := ⟨some 3, some "8", some "1000"⟩

-- Exactly one answer is Yes, so that the claim only pays if one of the events is declared invalid.
def Testnet.matrix : List Row :=
  [⟨0, false, false⟩, ⟨1, true, false⟩, ⟨2, true, false⟩, ⟨3, false, true⟩]

end Semantics
