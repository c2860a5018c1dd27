import Flurbo.Contracts.FactoredLogMath
import Flurbo.Library.Bits

open Evm Except

-- A table of liabilities over the events of a scope bitmap. Bit `i` of an index into `values` is
-- the outcome of the scope's `i`-th event. The WAD tables of `FactoredCost` and the atom tables of
-- `FactoredQuote` have this shape.
structure Factor where
  scope  : ℕ
  values : List ℕ
  deriving DecidableEq, Repr

namespace FactoredCost

def popcount (scope : ℕ) : ℕ :=
  Bits.foldBits 256 (fun count _ => count + 1) 0 scope

def expand (scope loc : ℕ) : ℕ :=
  (Bits.foldBits 32 (fun (s : ℕ × ℕ) bit =>
    (if loc &&& 1 <<< s.2 ≠ 0 then s.1 ||| bit else s.1, s.2 + 1)) (0, 0) scope).1

def project (scope state : ℕ) : ℕ :=
  (Bits.foldBits 32 (fun (s : ℕ × ℕ) bit =>
    (if state &&& bit ≠ 0 then s.1 ||| 1 <<< s.2 else s.1, s.2 + 1)) (0, 0) scope).1

section Evaluation

-- `Table` and `ExactTable`.
structure Table (α : Type) where
  scope  : ℕ
  active : Bool
  values : List α

-- The arithmetic in which a graph is evaluated: `add` combines tables, and `reduce` merges the two
-- branches of an eliminated event.
structure Kernel (α : Type) where
  zero   : α
  add    : α → α → Sol α
  reduce : α → α → Sol α

variable {α : Type} (K : Kernel α)

-- `bucketSum` and `exactBucketSum`. The bucket holds the tables that the source's indices refer to.
def bucketSum (bucket : List (Table α)) (state : ℕ) : Sol α :=
  bucket.foldlM (fun total table => do
    K.add total (← nth table.values (project table.scope state))) K.zero

def Table.mentions (table : Table α) (bit : ℕ) : Bool :=
  table.active && table.scope &&& bit != 0

-- `eliminate` and `eliminateMax`, with the appended table.
def eliminate (tables : List (Table α)) (bit : ℕ) : Sol (List (Table α)) := do
  let bucket := tables.filter (·.mentions bit)
  let joined := bucket.foldl (fun joined table => joined ||| table.scope) bit
  let remaining := joined &&& Bits.complement 32 bit
  let values ← (List.range (1 <<< popcount remaining)).mapM fun loc => do
    let state := expand remaining loc
    K.reduce (← bucketSum K bucket state) (← bucketSum K bucket (state ||| bit))
  let consumed := tables.map fun table =>
    if table.mentions bit then { table with active := false } else table
  return consumed ++ [⟨remaining, true, values⟩]

-- The common part of `evaluateBounds` and `evaluateMax`. `order` has one entry for each event.
def evaluate (tables : List (Table α)) (order : List ℕ) : Sol α := do
  let tables ← order.foldlM (fun tables v => eliminate K tables (1 <<< v)) tables
  (tables.filter (·.active)).foldlM (fun total table => do
    K.add total (← nth table.values 0)) K.zero

end Evaluation

def exactKernel : Kernel ℕ where
  zero   := 0
  add    := checkedAdd 256
  reduce := fun no yes => .ok (if no > yes then no else yes)

def logKernel (prb : PRBMath) : Kernel FactoredLogMath.LogBounds where
  zero   := ⟨0, 0⟩
  add    := FactoredLogMath.add
  reduce := FactoredLogMath.logSumExp prb

def evaluateMax (factors : List Factor) (order : List ℕ) : Sol ℕ :=
  evaluate exactKernel (factors.map fun f => ⟨f.scope, true, f.values⟩) order

def normalizeFactor (b : ℕ) (f : Factor) : Sol (Table FactoredLogMath.LogBounds) := do
  return ⟨f.scope, true, ← f.values.mapM (FactoredLogMath.normalize · b)⟩

def evaluateBounds (prb : PRBMath) (b : ℕ) (factors : List Factor) (order : List ℕ) :
    Sol QuoteMath.CostBounds := do
  let tables ← factors.mapM (normalizeFactor b)
  FactoredLogMath.cost (← evaluate (logKernel prb) tables order) b

section Validation

variable (events b : ℕ)

def validateOrder : List ℕ → ℕ → Sol Unit
  | [], _            => return ()
  | v :: order, seen => do
    revertIf (v ≥ events ∨ seen &&& 1 <<< v ≠ 0) .invalidOrder
    validateOrder order (seen ||| 1 <<< v)

-- The checks of one factor and the maximum of its values.
def validateFactor (f : Factor) : Sol ℕ := do
  let size := popcount f.scope
  revertIf (f.scope >>> events ≠ 0 ∨ size > 3) .invalidScope
  revertIf (f.values.length ≠ 1 <<< size) .invalidValues
  f.values.foldlM (fun maximum value => do
    revertIf (value > (← checkedMul 256 100 b)) .invalidValues
    return if value > maximum then value else maximum) 0

def validateFactors (factors : List Factor) : Sol ℕ :=
  factors.foldlM (fun sumMaxima f => do checkedAdd 256 sumMaxima (← validateFactor events b f)) 0

-- Consumed scopes become zero, so that they and constants add no further edges.
def validateWidth : List ℕ → List ℕ → ℕ → Sol ℕ
  | [], _, width            => return width
  | v :: order, scopes, width => do
    let bit := 1 <<< v
    let joined := scopes.foldl (fun joined s => if s &&& bit ≠ 0 then joined ||| s else joined) bit
    let consumed := scopes.map fun s => if s &&& bit ≠ 0 then 0 else s
    let currentWidth ← checkedSub (popcount joined) 1
    revertIf (currentWidth > 2) .widthExceeded
    validateWidth order (consumed ++ [joined &&& Bits.complement 256 bit])
      (if currentWidth > width then currentWidth else width)

def validate (factors : List Factor) (order : List ℕ) : Sol ℕ := do
  revertIf (events = 0 ∨ events > 32) .invalidEventCount
  revertIf (b < 10 ^ 12 ∨ b > 10 ^ 27) .invalidLiquidity
  revertIf (factors.length > 64) .tooManyFactors
  revertIf (order.length ≠ events) .invalidOrder
  validateOrder events order 0
  let sumMaxima ← validateFactors events b factors
  revertIf (sumMaxima > (← checkedMul 256 100 b)) .invalidValues
  validateWidth order (factors.map (·.scope)) 0

end Validation

section Entry

variable (prb : PRBMath) (events b : ℕ) (factors : List Factor) (order : List ℕ)

def maxLiability : Sol ℕ := do
  let _ ← validate events b factors order
  evaluateMax factors order

def bounds : Sol QuoteMath.CostBounds := do
  let _ ← validate events b factors order
  evaluateBounds prb b factors order

def boundsAndMax : Sol (QuoteMath.CostBounds × ℕ) := do
  let _ ← validate events b factors order
  return (← evaluateBounds prb b factors order, ← evaluateMax factors order)

end Entry

section Bits

variable {scope : ℕ}

theorem popcount_eq (h : scope < 2 ^ 256) : popcount scope = scope.bitIndices.length := by
  rw [popcount, Bits.foldBits_eq _ _ h, List.foldl_map]
  simp

theorem project_eq (h : scope < 2 ^ 32) (state : ℕ) :
    project scope state = Bits.gather scope.bitIndices state.testBit := by
  rw [project, Bits.foldBits_eq _ _ h, Bits.foldl_gather]
  simp

theorem expand_eq (h : scope < 2 ^ 32) (loc : ℕ) :
    expand scope loc = Bits.scatter scope.bitIndices loc := by
  rw [expand, Bits.foldBits_eq _ _ h, Bits.foldl_scatter]
  simp

theorem project_lt (h : scope < 2 ^ 32) (state : ℕ) : project scope state < 2 ^ popcount scope := by
  rw [project_eq h, popcount_eq (by omega)]
  exact Bits.gather_lt

-- The local index of a state depends on the events of the scope only.
theorem project_congr (h : scope < 2 ^ 32) {x y : ℕ}
    (hs : ∀ i, scope.testBit i → x.testBit i = y.testBit i) : project scope x = project scope y := by
  rw [project_eq h, project_eq h]
  exact Bits.gather_congr fun i hi => hs i (Nat.mem_bitIndices.mp hi)

-- Expanding the local index of a state restores its bits within the scope.
theorem testBit_expand_project (h : scope < 2 ^ 32) (state i : ℕ) :
    (expand scope (project scope state)).testBit i = (scope.testBit i && state.testBit i) := by
  rw [expand_eq h, project_eq h, Bits.testBit_scatter_gather]
  simp

theorem project_state_zero (h : scope < 2 ^ 32) : project scope 0 = 0 := by
  rw [project_eq h]
  induction scope.bitIndices <;> simp_all [Bits.gather]

theorem popcount_pos (h : scope ≠ 0) : 0 < popcount scope := by
  have hw (fuel s n : ℕ) : n ≤ Bits.walk 256 (fun count _ => count + 1) fuel s n := by
    induction fuel generalizing s n
    case zero         => exact le_rfl
    case succ fuel hi =>
      rw [Bits.walk]
      split
      · exact le_rfl
      · exact (Nat.le_succ n).trans (hi _ _)
  rw [popcount, Bits.foldBits, Bits.walk, if_neg h]
  exact hw _ _ _

end Bits

end FactoredCost
