import Mathlib.Algebra.BigOperators.Group.Finset.Piecewise
import Mathlib.Algebra.BigOperators.Ring.Finset
import Mathlib.Algebra.Order.BigOperators.Group.Finset
import Mathlib.Data.Fintype.BigOperators
import Mathlib.Tactic

-- Quantities of claims held by owners, and their totals under a weight for each claim.

open Finset

namespace Holdings

variable {ι κ : Type*}

section Weigh

variable [Fintype ι]

def weigh (K : Finset κ) (w : κ → ℕ) (held : ι → κ → ℕ) : ℕ :=
  ∑ i, ∑ k ∈ K, w k * held i k

variable {K : Finset κ} {w w' : κ → ℕ} {held : ι → κ → ℕ} {i : ι} {k : κ}

-- Weights matter only where something is held.
theorem weigh_congr (h : ∀ i, ∀ k ∈ K, held i k ≠ 0 → w k = w' k) :
    weigh K w held = weigh K w' held := by
  refine sum_congr rfl fun i _ => sum_congr rfl fun k hk => ?_
  by_cases h₀ : held i k = 0
  case pos => simp [h₀]
  case neg => rw [h i k hk h₀]

@[simp]
theorem weigh_zero : weigh K w (fun (_ : ι) _ => 0) = 0 := by
  simp [weigh]

-- A total vanishes if nothing is held that counts.
theorem weigh_eq_zero (h : ∀ i, ∀ k ∈ K, held i k ≠ 0 → w k = 0) : weigh K w held = 0 := by
  rw [weigh_congr h]
  simp [weigh]

theorem weigh_list_sum {X : Type*} (xs : List X) (w : X → κ → ℕ) :
    weigh K (fun k => (xs.map (w · k)).sum) held = (xs.map fun x => weigh K (w x) held).sum := by
  induction xs
  case nil          => simp [weigh]
  case cons x xs hi =>
    rw [List.map_cons, List.sum_cons, ← hi]
    simp only [weigh, List.map_cons, List.sum_cons, add_mul, sum_add_distrib]

theorem le_weigh (w : κ → ℕ) (held : ι → κ → ℕ) (i : ι) (hk : k ∈ K) : w k * held i k ≤ weigh K w held :=
  calc w k * held i k
    _ ≤ ∑ l ∈ K, w l * held i l := single_le_sum (f := fun l => w l * held i l) (by simp) hk
    _ ≤ weigh K w held          := single_le_sum (f := fun j => ∑ l ∈ K, w l * held j l) (by simp)
                                     (mem_univ i)

theorem sum_le_weigh (held : ι → κ → ℕ) (hk : k ∈ K) (hw : w k = 1) : ∑ i, held i k ≤ weigh K w held := by
  refine sum_le_sum fun i _ => ?_
  have := single_le_sum (f := fun l => w l * held i l) (by simp) hk
  rwa [hw, one_mul] at this

-- Shares that are rounded down one by one never exceed the share of the total.
theorem sum_div_le {d : ℕ} (h : 0 < d) :
    ∑ i, ∑ k ∈ K, w k * held i k / d ≤ weigh K w held / d := by
  rw [Nat.le_div_iff_mul_le h, weigh, sum_mul]
  apply sum_le_sum
  intro i _
  rw [sum_mul]
  exact sum_le_sum fun k _ => Nat.div_mul_le_self _ _

end Weigh

section Set

variable [DecidableEq ι] [DecidableEq κ]

-- The quantity of one owner's claim replaced.
def set (held : ι → κ → ℕ) (i : ι) (k : κ) (q : ℕ) : ι → κ → ℕ :=
  Function.update held i (Function.update (held i) k q)

variable {K : Finset κ} {held : ι → κ → ℕ} {i j : ι} {k l : κ} {q : ℕ}

theorem set_apply : set held i k q j l = if j = i ∧ l = k then q else held j l := by
  by_cases hj : j = i
  case pos => subst hj; by_cases hl : l = k <;> simp [set, hl]
  case neg => simp [set, hj]

theorem sum_update_add [Fintype ι] (f : ι → ℕ) (i : ι) (q : ℕ) :
    ∑ j, Function.update f i q j + f i = ∑ j, f j + q := by
  rw [sum_update_of_mem (mem_univ i), ← add_sum_erase univ f (mem_univ i),
    sdiff_singleton_eq_erase]
  omega

@[simp]
theorem set_same : set held i k q i k = q := by
  simp [set_apply]

-- A total counts the claim of one owner with its weight.
theorem weigh_set [Fintype ι] (w : κ → ℕ) (held : ι → κ → ℕ) (i : ι) (q : ℕ) (hk : k ∈ K) :
    weigh K w (set held i k q) + w k * held i k = weigh K w held + w k * q := by
  have hi : ∀ j ∈ univ.erase i, ∑ l ∈ K, w l * set held i k q j l = ∑ l ∈ K, w l * held j l := by
    intro j hj
    exact sum_congr rfl fun l _ => by rw [set_apply, if_neg (by simp_all)]
  have hl : ∀ l ∈ K.erase k, w l * set held i k q i l = w l * held i l := by
    intro l hl
    rw [set_apply, if_neg (by simp_all)]
  simp only [weigh]
  rw [← add_sum_erase _ _ (mem_univ i), sum_congr rfl hi, ← add_sum_erase _ _ hk, sum_congr rfl hl,
    ← add_sum_erase (a := i) univ _ (mem_univ i), ← add_sum_erase K (fun l => w l * held i l) hk,
    set_same]
  omega

-- The total of one claim over all owners.
theorem sum_set [Fintype ι] (held : ι → κ → ℕ) (i : ι) (k : κ) (q : ℕ) :
    ∑ j, set held i k q j k + held i k = ∑ j, held j k + q := by
  simpa [weigh] using weigh_set (fun _ => 1) held i q (mem_singleton_self k)

theorem sum_set_ne [Fintype ι] (held : ι → κ → ℕ) (i : ι) (q : ℕ) (h : l ≠ k) :
    ∑ j, set held i k q j l = ∑ j, held j l :=
  sum_congr rfl fun j _ => by rw [set_apply, if_neg fun hc => h hc.right]

end Set

end Holdings
