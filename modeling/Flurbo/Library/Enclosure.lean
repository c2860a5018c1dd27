import Flurbo.Library.Rounding
import Mathlib.Algebra.Order.Floor.Ring
import Mathlib.Analysis.Complex.Exponential
import Mathlib.Tactic

-- Intervals of natural numbers that enclose a real number at a fixed scale. Every operation rounds
-- its lower end down and its upper end up, so that it encloses the result of the exact operation.

structure Enclosure where
  lo : ℕ
  hi : ℕ
  deriving DecidableEq, Repr

namespace Enclosure

def add (i j : Enclosure) : Enclosure := ⟨i.lo + j.lo, i.hi + j.hi⟩

def sum (is : List Enclosure) : Enclosure := is.foldl add ⟨0, 0⟩

-- The multiple `n / m` of an interval.
def scale (n m : ℕ) (i : Enclosure) : Enclosure := ⟨i.lo * n / m, (i.hi * n) ⌈/⌉ m⟩

def mul (S : ℕ) (i j : Enclosure) : Enclosure := ⟨i.lo * j.lo / S, (i.hi * j.hi) ⌈/⌉ S⟩

def div (S : ℕ) (i j : Enclosure) : Enclosure := ⟨i.lo * S / j.hi, (i.hi * S) ⌈/⌉ j.lo⟩

def inv (S : ℕ) (i : Enclosure) : Enclosure := ⟨S * S / i.hi, (S * S) ⌈/⌉ i.lo⟩

def square (S : ℕ) (i : Enclosure) : Enclosure := i.mul S i

def Encloses {𝕜 : Type*} [Semiring 𝕜] [PartialOrder 𝕜] (S : ℕ) (i : Enclosure) (x : 𝕜) : Prop :=
  i.lo ≤ S * x ∧ S * x ≤ i.hi

section Field

variable {𝕜 : Type*} [Field 𝕜] [LinearOrder 𝕜] [IsStrictOrderedRing 𝕜] {S n m : ℕ}
variable {i j : Enclosure} {x y : 𝕜}

theorem le_cast_ceilDiv (h : 0 < m) : (n : 𝕜) / m ≤ (n ⌈/⌉ m : ℕ) := by
  have hm : (0 : 𝕜) < m := Nat.cast_pos.mpr h
  rw [div_le_iff₀' hm]
  exact_mod_cast Rounding.le_mul_ceilDiv h

theorem Encloses.nonneg (h : i.Encloses S x) (hS : 0 < S) : 0 ≤ x := by
  have hS' : (0 : 𝕜) < S := Nat.cast_pos.mpr hS
  exact nonneg_of_mul_nonneg_right ((Nat.cast_nonneg i.lo).trans h.1) hS'

theorem Encloses.pos (h : i.Encloses S x) (hl : 0 < i.lo) : 0 < x := by
  have hl' : (0 : 𝕜) < i.lo := Nat.cast_pos.mpr hl
  exact pos_of_mul_pos_right (hl'.trans_le h.1) (Nat.cast_nonneg S)

theorem Encloses.hi_pos (h : i.Encloses S x) (hl : 0 < i.lo) : 0 < i.hi := by
  have : (i.lo : 𝕜) ≤ i.hi := h.1.trans h.2
  exact hl.trans_le (Nat.cast_le.mp this)

theorem encloses_zero : (⟨0, 0⟩ : Enclosure).Encloses S (0 : 𝕜) := by
  simp [Encloses]

omit [IsStrictOrderedRing 𝕜] in
theorem encloses_one : (⟨S, S⟩ : Enclosure).Encloses S (1 : 𝕜) := by
  simp [Encloses]

theorem Encloses.add (hx : i.Encloses S x) (hy : j.Encloses S y) : (i.add j).Encloses S (x + y) := by
  constructor <;> rw [mul_add, Enclosure.add, Nat.cast_add]
  · exact add_le_add hx.1 hy.1
  · exact add_le_add hx.2 hy.2

theorem Encloses.scale (h : i.Encloses S x) (hm : 0 < m) :
    (i.scale n m).Encloses S (x * (n / m)) := by
  have hm' : (0 : 𝕜) < m := Nat.cast_pos.mpr hm
  have hn : (0 : 𝕜) ≤ n := Nat.cast_nonneg n
  have he : S * (x * (n / m)) = S * x * n / m := by rw [mul_div_assoc, mul_assoc]
  constructor <;> rw [he]
  · calc
      ((i.lo * n / m : ℕ) : 𝕜) ≤ ((i.lo * n : ℕ) : 𝕜) / m := Nat.cast_div_le
      _ = i.lo * n / m                                     := by rw [Nat.cast_mul]
      _ ≤ S * x * n / m                                    := by gcongr; exact h.1
  · calc
      S * x * n / m ≤ i.hi * n / m           := by gcongr; exact h.2
      _ = ((i.hi * n : ℕ) : 𝕜) / m           := by rw [Nat.cast_mul]
      _ ≤ ((i.hi * n) ⌈/⌉ m : ℕ)             := le_cast_ceilDiv hm

theorem Encloses.mul (hS : 0 < S) (hx : i.Encloses S x) (hy : j.Encloses S y) :
    (i.mul S j).Encloses S (x * y) := by
  have hS' : (0 : 𝕜) < S := Nat.cast_pos.mpr hS
  have hx₀ := hx.nonneg hS
  have hy₀ := hy.nonneg hS
  have he : S * (x * y) = (S * x) * (S * y) / S := by field_simp
  constructor <;> rw [he]
  · calc
      ((i.lo * j.lo / S : ℕ) : 𝕜) ≤ ((i.lo * j.lo : ℕ) : 𝕜) / S := Nat.cast_div_le
      _ = i.lo * j.lo / S                                       := by rw [Nat.cast_mul]
      _ ≤ (S * x) * (S * y) / S                                 := by gcongr; exacts [hx.1, hy.1]
  · calc
      (S * x) * (S * y) / S ≤ i.hi * j.hi / S  := by gcongr; exacts [hx.2, hy.2]
      _ = ((i.hi * j.hi : ℕ) : 𝕜) / S          := by rw [Nat.cast_mul]
      _ ≤ ((i.hi * j.hi) ⌈/⌉ S : ℕ)            := le_cast_ceilDiv hS

theorem Encloses.div (hS : 0 < S) (hx : i.Encloses S x) (hy : j.Encloses S y) (hj : 0 < j.lo) :
    (i.div S j).Encloses S (x / y) := by
  have hS' : (0 : 𝕜) < S := Nat.cast_pos.mpr hS
  have hj' : (0 : 𝕜) < j.lo := Nat.cast_pos.mpr hj
  have hx₀ := hx.nonneg hS
  have hy₀ := hy.pos hj
  have he : S * (x / y) = (S * x) * S / (S * y) := by field_simp
  constructor <;> rw [he]
  · calc
      ((i.lo * S / j.hi : ℕ) : 𝕜) ≤ ((i.lo * S : ℕ) : 𝕜) / j.hi := Nat.cast_div_le
      _ = i.lo * S / j.hi                                       := by rw [Nat.cast_mul]
      _ ≤ (S * x) * S / (S * y)                                 := by gcongr; exacts [hx.1, hy.2]
  · calc
      (S * x) * S / (S * y) ≤ i.hi * S / j.lo  := by gcongr; exacts [hx.2, hy.1]
      _ = ((i.hi * S : ℕ) : 𝕜) / j.lo          := by rw [Nat.cast_mul]
      _ ≤ ((i.hi * S) ⌈/⌉ j.lo : ℕ)            := le_cast_ceilDiv hj

theorem Encloses.inv (hS : 0 < S) (h : i.Encloses S x) (hi : 0 < i.lo) :
    (i.inv S).Encloses S x⁻¹ := by
  have := encloses_one.div hS h hi
  rwa [one_div] at this

theorem Encloses.iterate_square (hS : 0 < S) (h : i.Encloses S x) (k : ℕ) :
    ((square S)^[k] i).Encloses S (x ^ 2 ^ k) := by
  induction k
  case zero      => simpa using h
  case succ k hk =>
    rw [Function.iterate_succ_apply', pow_succ, pow_mul, sq]
    exact hk.mul hS hk

-- A left fold that starts from any interval.
theorem Encloses.foldl_add {ι : Type*} {is : List ι} {f : ι → Enclosure} {g : ι → 𝕜}
    (h : i.Encloses S x) (hf : ∀ k ∈ is, (f k).Encloses S (g k)) :
    ((is.map f).foldl Enclosure.add i).Encloses S (x + (is.map g).sum) := by
  induction is generalizing i x
  case nil          => simpa using h
  case cons k is hi =>
    rw [List.map_cons, List.map_cons, List.foldl_cons, List.sum_cons, ← add_assoc]
    exact hi (h.add (hf k (by simp))) fun l hl => hf l (by simp [hl])

theorem encloses_sum {ι : Type*} {is : List ι} {f : ι → Enclosure} {g : ι → 𝕜}
    (hf : ∀ k ∈ is, (f k).Encloses S (g k)) : (sum (is.map f)).Encloses S (is.map g).sum := by
  have := (encloses_zero (S := S) (𝕜 := 𝕜)).foldl_add hf
  rwa [zero_add] at this

theorem Encloses.foldl_mul {ι : Type*} {is : List ι} {f : ι → Enclosure} {g : ι → 𝕜} (hS : 0 < S)
    (h : i.Encloses S x) (hf : ∀ k ∈ is, (f k).Encloses S (g k)) :
    (is.foldl (fun j k => j.mul S (f k)) i).Encloses S (x * (is.map g).prod) := by
  induction is generalizing i x
  case nil          => simpa using h
  case cons k is hi =>
    rw [List.map_cons, List.foldl_cons, List.prod_cons, ← mul_assoc]
    exact hi (h.mul hS (hf k (by simp))) fun l hl => hf l (by simp [hl])

end Field

section Order

variable {S n m n' m' : ℕ} {i j : Enclosure}

theorem foldl_add_lo {is : List Enclosure} : i.lo ≤ (is.foldl add i).lo := by
  induction is generalizing i
  case nil          => exact le_rfl
  case cons j is hi => exact (Nat.le_add_right i.lo j.lo).trans (hi (i := i.add j))

theorem sum_lo_pos {is : List Enclosure} (hn : is ≠ []) (h : ∀ i ∈ is, 0 < i.lo) : 0 < (sum is).lo := by
  cases is
  case nil       => contradiction
  case cons i is =>
    rw [sum, List.foldl_cons]
    have hi : 0 < (add ⟨0, 0⟩ i).lo := by simpa [add] using h i (by simp)
    exact hi.trans_le foldl_add_lo

-- A larger multiple has a larger upper end.
theorem scale_hi_le (h : i.hi ≤ j.hi) (hm : 0 < m) (hm' : 0 < m') (hn : n * m' ≤ n' * m) :
    (i.scale n m).hi ≤ (j.scale n' m').hi := by
  have hj : j.hi * n' ≤ m' * ((j.hi * n') ⌈/⌉ m') := Rounding.le_mul_ceilDiv hm'
  refine (Rounding.ceilDiv_le_iff hm).mpr (Nat.le_of_mul_le_mul_right ?_ hm')
  calc
    i.hi * n * m' = i.hi * (n * m')                  := by rw [mul_assoc]
    _ ≤ j.hi * (n' * m)                              := Nat.mul_le_mul h hn
    _ = j.hi * n' * m                                := by rw [mul_assoc]
    _ ≤ m' * ((j.hi * n') ⌈/⌉ m') * m                := Nat.mul_le_mul_right m hj
    _ = m * ((j.hi * n') ⌈/⌉ m') * m'                := by ring

theorem inv_lo_le (h : i.hi ≤ j.hi) (hi : 0 < i.hi) : (j.inv S).lo ≤ (i.inv S).lo :=
  Nat.div_le_div_left h hi

theorem iterate_square_lo_le (h : i.lo ≤ j.lo) (k : ℕ) :
    ((square S)^[k] i).lo ≤ ((square S)^[k] j).lo := by
  induction k
  case zero      => exact h
  case succ k hk =>
    rw [Function.iterate_succ_apply', Function.iterate_succ_apply']
    exact Nat.div_le_div_right (Nat.mul_le_mul hk hk)

end Order

section Exponential

variable {S n m : ℕ}

-- One step of the series of `exp (n / m)`: the next term, and the sum with it.
def expStep (n m : ℕ) (t : Enclosure × Enclosure) (k : ℕ) : Enclosure × Enclosure :=
  (t.1.scale n (m * k), t.2.add (t.1.scale n (m * k)))

def expSeries (S n m count : ℕ) : Enclosure × Enclosure :=
  (List.range' 1 count).foldl (expStep n m) (⟨S, S⟩, ⟨S, S⟩)

theorem expSeries_succ (count : ℕ) :
    expSeries S n m (count + 1) = expStep n m (expSeries S n m count) (count + 1) := by
  rw [expSeries, List.range'_1_concat, List.foldl_append, Nat.add_comm 1 count]
  rfl

theorem expSeries_encloses (hm : 0 < m) (count : ℕ) :
    (expSeries S n m count).1.Encloses S ((n / m : ℝ) ^ count / count.factorial) ∧
      (expSeries S n m count).2.Encloses S
        (∑ k ∈ Finset.range (count + 1), (n / m : ℝ) ^ k / k.factorial) := by
  induction count
  case zero          => simp [expSeries, encloses_one]
  case succ count hi =>
    have hm' : (m : ℝ) ≠ 0 := by exact_mod_cast hm.ne'
    have he : (n / m : ℝ) ^ (count + 1) / (count + 1).factorial =
        (n / m : ℝ) ^ count / count.factorial * (n / (m * (count + 1) : ℕ)) := by
      rw [Nat.factorial_succ, pow_succ]
      push_cast
      field_simp
    have ht := hi.1.scale (n := n) (m := m * (count + 1)) (Nat.mul_pos hm count.succ_pos)
    rw [← he] at ht
    rw [expSeries_succ, Finset.sum_range_succ]
    exact ⟨ht, hi.2.add ht⟩

theorem expSeries_lo (count : ℕ) : S ≤ (expSeries S n m count).2.lo := by
  induction count
  case zero          => exact le_rfl
  case succ count hi =>
    rw [expSeries_succ]
    exact hi.trans (Nat.le_add_right _ _)

theorem expSeries_hi_le {n' m' : ℕ} (hm : 0 < m) (hm' : 0 < m') (h : n * m' ≤ n' * m) (count : ℕ) :
    (expSeries S n m count).1.hi ≤ (expSeries S n' m' count).1.hi ∧
      (expSeries S n m count).2.hi ≤ (expSeries S n' m' count).2.hi := by
  induction count
  case zero          => exact ⟨le_rfl, le_rfl⟩
  case succ count hi =>
    have hk : n * (m' * (count + 1)) ≤ n' * (m * (count + 1)) := by
      rw [← mul_assoc, ← mul_assoc]
      exact Nat.mul_le_mul_right _ h
    have ht := scale_hi_le hi.1 (Nat.mul_pos hm count.succ_pos) (Nat.mul_pos hm' count.succ_pos) hk
    rw [expSeries_succ, expSeries_succ]
    exact ⟨ht, Nat.add_le_add hi.2 ht⟩

-- The terms that are left out sum to at most twice the first of them.
def exp (S n m count : ℕ) : Enclosure :=
  let t := expSeries S n m count
  ⟨t.2.lo, t.2.hi + 2 * (t.1.scale n (m * (count + 1))).hi⟩

theorem exp_encloses (hm : 0 < m) (h : n ≤ m) (count : ℕ) :
    (exp S n m count).Encloses S (Real.exp (n / m)) := by
  have hm' : (0 : ℝ) < m := Nat.cast_pos.mpr hm
  have hx : (0 : ℝ) ≤ n / m := by positivity
  have hx' : (n / m : ℝ) ≤ 1 := by
    rw [div_le_one hm']
    exact_mod_cast h
  have hS : (0 : ℝ) ≤ S := Nat.cast_nonneg S
  have ht := (expSeries_encloses (S := S) (n := n) hm (count + 1)).1
  have hs := (expSeries_encloses (S := S) (n := n) hm count).2
  rw [expSeries_succ] at ht
  constructor
  · exact hs.1.trans (mul_le_mul_of_nonneg_left (Real.sum_le_exp_of_nonneg hx _) hS)
  · have hr : (n / m : ℝ) ^ (count + 1) * ((count + 1 : ℕ) + 1) /
          ((count + 1).factorial * (count + 1 : ℕ)) ≤
        2 * ((n / m : ℝ) ^ (count + 1) / (count + 1).factorial) := by
      have hc : (0 : ℝ) ≤ count := Nat.cast_nonneg count
      have hq : ((count + 1 : ℕ) + 1 : ℝ) / (count + 1 : ℕ) ≤ 2 := by
        rw [div_le_iff₀ (by positivity)]
        push_cast
        linarith
      have hp : (0 : ℝ) ≤ (n / m : ℝ) ^ (count + 1) / (count + 1).factorial := by positivity
      calc
        _ = (((count + 1 : ℕ) + 1 : ℝ) / (count + 1 : ℕ)) *
              ((n / m : ℝ) ^ (count + 1) / (count + 1).factorial) := by ring
        _ ≤ 2 * ((n / m : ℝ) ^ (count + 1) / (count + 1).factorial) :=
          mul_le_mul_of_nonneg_right hq hp
    calc
      S * Real.exp (n / m)
        ≤ S * (∑ k ∈ Finset.range (count + 1), (n / m : ℝ) ^ k / k.factorial +
            2 * ((n / m : ℝ) ^ (count + 1) / (count + 1).factorial)) :=
          mul_le_mul_of_nonneg_left ((Real.exp_bound' hx hx' count.succ_pos).trans (by gcongr)) hS
      _ = S * ∑ k ∈ Finset.range (count + 1), (n / m : ℝ) ^ k / k.factorial +
            2 * (S * ((n / m : ℝ) ^ (count + 1) / (count + 1).factorial)) := by ring
      _ ≤ ((exp S n m count).hi : ℝ) := by
          rw [exp, Nat.cast_add, Nat.cast_mul]
          exact add_le_add hs.2 (mul_le_mul_of_nonneg_left ht.2 (by norm_num))

theorem exp_lo (count : ℕ) : S ≤ (exp S n m count).lo := expSeries_lo count

theorem exp_hi_le {n' m' : ℕ} (hm : 0 < m) (hm' : 0 < m') (h : n * m' ≤ n' * m) (count : ℕ) :
    (exp S n m count).hi ≤ (exp S n' m' count).hi := by
  have ⟨ht, hs⟩ := expSeries_hi_le (S := S) hm hm' h count
  have hk : n * (m' * (count + 1)) ≤ n' * (m * (count + 1)) := by
    rw [← mul_assoc, ← mul_assoc]
    exact Nat.mul_le_mul_right _ h
  have hl := scale_hi_le ht (Nat.mul_pos hm count.succ_pos) (Nat.mul_pos hm' count.succ_pos) hk
  exact Nat.add_le_add hs (Nat.mul_le_mul_left 2 hl)

end Exponential

end Enclosure

namespace Rounding

variable {𝕜 : Type*} [Field 𝕜] [LinearOrder 𝕜] [IsStrictOrderedRing 𝕜] [FloorRing 𝕜]

-- The nearest integer, with halves rounded away from zero.
def halfAway (x : 𝕜) : ℤ := if x < 0 then -⌊-x + 1 / 2⌋ else ⌊x + 1 / 2⌋

theorem halfAway_mono {x y : 𝕜} (h : x ≤ y) : halfAway x ≤ halfAway y := by
  unfold halfAway
  split_ifs with hx hy hy
  · exact Int.neg_le_neg (Int.floor_le_floor (by linarith))
  · have h₁ : 0 ≤ ⌊-x + 1 / 2⌋ := Int.floor_nonneg.mpr (by linarith)
    have h₂ : 0 ≤ ⌊y + 1 / 2⌋ := Int.floor_nonneg.mpr (by linarith)
    omega
  · linarith
  · exact Int.floor_le_floor (by linarith)

-- Two bounds that round to one integer leave no other for what lies between them.
theorem halfAway_eq {x y z : 𝕜} (hx : x ≤ z) (hy : z ≤ y) (h : halfAway x = halfAway y) :
    halfAway z = halfAway x :=
  le_antisymm ((halfAway_mono hy).trans_eq h.symm) (halfAway_mono hx)

end Rounding
