import Mathlib.Algebra.BigOperators.Group.Finset.Basic
import Mathlib.Data.Finmap
import Mathlib.Tactic

-- Quantities kept in a finite map that has no entry for zero, and their totals under a weight for
-- each key.

namespace Totals

variable {κ : Type*} [DecidableEq κ]

def held (m : Finmap fun _ : κ => ℕ) (k : κ) : ℕ :=
  (m.lookup k).getD 0

def put (m : Finmap fun _ : κ => ℕ) (k : κ) (q : ℕ) : Finmap fun _ : κ => ℕ :=
  if q = 0 then m.erase k else m.insert k q

def total (w : κ → ℕ) (m : Finmap fun _ : κ => ℕ) : ℕ :=
  ∑ k ∈ m.keys, w k * held m k

variable {m : Finmap fun _ : κ => ℕ} {k l : κ} {q : ℕ} {w : κ → ℕ} {P : κ → ℕ → Prop}

theorem held_of_notMem (h : k ∉ m.keys) : held m k = 0 := by
  rw [Finmap.mem_keys] at h
  rw [held, Finmap.lookup_eq_none.mpr h, Option.getD_none]

theorem lookup_put_ne (h : l ≠ k) : (put m k q).lookup l = m.lookup l := by
  unfold put
  split
  · exact Finmap.lookup_erase_ne h
  · exact Finmap.lookup_insert_of_ne m h

theorem lookup_put_self : (put m k q).lookup k = if q = 0 then none else some q := by
  unfold put
  split
  · exact Finmap.lookup_erase k m
  · exact Finmap.lookup_insert m

@[simp]
theorem held_put : held (put m k q) = Function.update (held m) k q := by
  ext l
  by_cases h : l = k
  case pos =>
    subst h
    rw [held, lookup_put_self, Function.update_self]
    split <;> simp_all
  case neg => rw [held, lookup_put_ne h, Function.update_of_ne h, held]

-- What holds of all entries still does if it holds of the one that is written, unless that is zero.
theorem lookup_put_forall (hm : ∀ l r, m.lookup l = some r → P l r) (hq : q ≠ 0 → P k q) :
    ∀ l r, (put m k q).lookup l = some r → P l r := by
  intro l r h
  by_cases hl : l = k
  case pos =>
    subst hl
    rw [lookup_put_self] at h
    split at h
    case isTrue      => cases h
    case isFalse hq' => cases h; exact hq hq'
  case neg => exact hm l r (by rwa [lookup_put_ne hl] at h)

-- Keys that nothing is held of do not count.
theorem total_eq_sum {K : Finset κ} (h : m.keys ⊆ K) : total w m = ∑ k ∈ K, w k * held m k :=
  Finset.sum_subset h fun _ _ hk => by rw [held_of_notMem hk, mul_zero]

@[simp]
theorem total_empty : total w ∅ = 0 := rfl

theorem total_put : total w (put m k q) + w k * held m k = total w m + w k * q := by
  set K := insert k (m.keys ∪ (put m k q).keys) with hK
  have hk : k ∈ K := Finset.mem_insert_self k _
  have hm : m.keys ⊆ K := Finset.subset_union_left.trans (Finset.subset_insert k _)
  have hp : (put m k q).keys ⊆ K := Finset.subset_union_right.trans (Finset.subset_insert k _)
  have he : ∀ l ∈ K.erase k, w l * held (put m k q) l = w l * held m l := by
    intro l hl
    rw [held_put, Function.update_of_ne (Finset.ne_of_mem_erase hl)]
  rw [total_eq_sum hm, total_eq_sum hp, ← Finset.add_sum_erase K _ hk, Finset.sum_congr rfl he,
    ← Finset.add_sum_erase K (fun l => w l * held m l) hk, held_put, Function.update_self]
  omega

theorem weight_mul_held_le_total : w k * held m k ≤ total w m := by
  by_cases hk : k ∈ m.keys
  case pos => exact Finset.single_le_sum (f := fun l => w l * held m l) (by simp) hk
  case neg => simp [held_of_notMem hk]

end Totals
