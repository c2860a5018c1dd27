import Mathlib.Data.Finset.Lattice.Prod
import Mathlib.Tactic

-- How far the values of an integer function on the first `n` naturals are apart, and the greatest
-- element of a list.

variable {n i j m : ℕ} {d e : ℕ → ℤ} {low high : ℤ}

def spread (n : ℕ) (d : ℕ → ℤ) : ℕ :=
  (Finset.range n ×ˢ Finset.range n).sup fun p => (d p.1 - d p.2).toNat

theorem sub_le_spread (hi : i < n) (hj : j < n) : d i - d j ≤ spread n d := by
  have hm : (i, j) ∈ Finset.range n ×ˢ Finset.range n := by simp [hi, hj]
  have hle : (d i - d j).toNat ≤ spread n d :=
    Finset.le_sup (f := fun p : ℕ × ℕ => (d p.1 - d p.2).toNat) hm
  omega

theorem spread_le (h : ∀ i < n, ∀ j < n, d i - d j ≤ m) : spread n d ≤ m := by
  refine Finset.sup_le fun p hp => ?_
  simp only [Finset.mem_product, Finset.mem_range] at hp
  have := h p.1 hp.left p.2 hp.right
  omega

theorem spread_sub_comm : spread n (fun i => d i - e i) = spread n (fun i => e i - d i) := by
  apply le_antisymm
  all_goals
    refine spread_le fun i hi j hj => ?_
  · have := sub_le_spread (d := fun i => e i - d i) hj hi
    omega
  · have := sub_le_spread (d := fun i => d i - e i) hj hi
    omega

theorem spread_add_le : spread n (fun i => d i + e i) ≤ spread n d + spread n e := by
  refine spread_le fun i hi j hj => ?_
  have hd := sub_le_spread (d := d) hi hj
  have he := sub_le_spread (d := e) hi hj
  push_cast
  omega

theorem spread_eq_zero_iff : spread n d = 0 ↔ ∀ i < n, ∀ j < n, d i = d j := by
  constructor
  · intro h i hi j hj
    have hij := sub_le_spread (d := d) hi hj
    have hji := sub_le_spread (d := d) hj hi
    omega
  · intro h
    refine Nat.le_zero.mp <| spread_le fun i hi j hj => ?_
    rw [h i hi j hj]
    omega

-- The spread is the difference between the largest and the smallest value.
theorem spread_eq (hb : ∀ i < n, low ≤ d i ∧ d i ≤ high) (hl : ∃ i < n, d i = low)
    (hh : ∃ i < n, d i = high) : spread n d = (high - low).toNat := by
  obtain ⟨i, hi, rfl⟩ := hl
  obtain ⟨j, hj, rfl⟩ := hh
  apply le_antisymm
  · refine spread_le fun k hk l hl => ?_
    have := (hb k hk).right
    have := (hb l hl).left
    omega
  · have := sub_le_spread (d := d) hj hi
    omega

section Greatest

variable {α : Type*} [LinearOrder α]

theorem foldl_max_isGreatest {l : List α} (m : α) : IsGreatest {n | n ∈ m :: l} (l.foldl max m) := by
  induction l generalizing m
  case nil         => exact ⟨by simp, by simp [upperBounds]⟩
  case cons k l hi =>
    have ⟨hmem, hle⟩ := hi (max m k)
    refine ⟨?_, fun n hn => ?_⟩
    · rcases List.mem_cons.mp hmem with h | h
      · rcases max_choice m k with hm | hm <;> rw [hm] at h <;> simp [h, hm]
      · simp [h]
    · have hmax : max m k ≤ l.foldl max (max m k) := hle (by simp)
      simp only [Set.mem_ofPred_eq, List.mem_cons] at hn
      rcases hn with rfl | rfl | hn
      · exact (le_max_left _ _).trans hmax
      · exact (le_max_right _ _).trans hmax
      · exact hle (by simp [hn])

-- A maximum over at least one amount does not depend on where it starts.
theorem foldl_min_isLeast {l : List α} (m : α) : IsLeast {n | n ∈ m :: l} (l.foldl min m) :=
  foldl_max_isGreatest (α := αᵒᵈ) m

theorem le_foldl_max {l : List α} {n m : α} (h : n ∈ l) : n ≤ l.foldl max m :=
  (foldl_max_isGreatest m).2 (List.mem_cons_of_mem m h)

theorem foldl_max_le {l : List α} {n m : α} (hm : m ≤ n) (h : ∀ k ∈ l, k ≤ n) : l.foldl max m ≤ n := by
  rcases List.mem_cons.mp (foldl_max_isGreatest (l := l) m).1 with he | he
  · rwa [he]
  · exact h _ he

end Greatest
