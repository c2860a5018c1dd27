import Mathlib.Tactic
import Mathlib.Order.SuccPred.Basic
import Mathlib.Data.Finset.Max

-- Finitely many thresholds cut a discrete order into cells, and a value next to a threshold lies in each
-- of them.

namespace Thresholds

variable {α : Type*} [LinearOrder α] {ts : List α} {x y : α}

-- No threshold tells the two values apart.
def Alike (ts : List α) (x y : α) : Prop := ∀ t ∈ ts, (x < t ↔ y < t) ∧ (t < x ↔ t < y)

theorem Alike.eq_iff {t : α} (h : Alike ts x y) (ht : t ∈ ts) : x = t ↔ y = t := by
  have ⟨hlt, hgt⟩ := h t ht
  simp only [le_antisymm_iff, ← not_lt, hlt, hgt]

-- The greatest of the values that satisfy a predicate, if there is one.
theorem exists_greatest {p : α → Prop} (h : ∃ t ∈ ts, p t) : ∃ m ∈ ts, p m ∧ ∀ t ∈ ts, p t → t ≤ m := by
  classical
  have ⟨t, ht, hp⟩ := h
  have ⟨m, hm, hmax⟩ := (ts.toFinset.filter p).exists_max_image id ⟨t, by simp [ht, hp]⟩
  simp only [Finset.mem_filter, List.mem_toFinset, id_eq, and_imp] at hm hmax
  exact ⟨m, hm.left, hm.right, hmax⟩

variable [SuccOrder α] [PredOrder α]

def candidates (ts : List α) : List α := ts.flatMap fun t => [Order.pred t, t, Order.succ t]

theorem mem_candidates {t : α} (ht : t ∈ ts) (hx : x = Order.pred t ∨ x = t ∨ x = Order.succ t) :
    x ∈ candidates ts :=
  List.mem_flatMap.mpr ⟨t, ht, by simpa using hx⟩

theorem exists_candidate [NoMaxOrder α] [NoMinOrder α] (h : ts ≠ []) (x : α) : ∃ y ∈ candidates ts, Alike ts x y := by
  by_cases hx : x ∈ ts
  case pos => exact ⟨x, mem_candidates hx (.inr <| .inl rfl), fun _ _ => ⟨Iff.rfl, Iff.rfl⟩⟩
  case neg =>
    by_cases hbelow : ∃ t ∈ ts, t < x
    case pos =>
      -- The value after the last threshold below.
      have ⟨m, hm, hlt, hmax⟩ := exists_greatest hbelow
      refine ⟨Order.succ m, mem_candidates hm (.inr <| .inr rfl), fun t ht => ?_⟩
      have hle := Order.succ_le_of_lt hlt
      have hsucc := Order.lt_succ m
      rcases lt_or_gt_of_ne (fun he : t = x => hx (he ▸ ht)) with hlt' | hgt
      · have hle' := hmax t ht hlt'
        exact ⟨iff_of_false hlt'.not_gt (hle'.trans_lt hsucc).not_gt, iff_of_true hlt' (hle'.trans_lt hsucc)⟩
      · exact ⟨iff_of_true hgt (hle.trans_lt hgt), iff_of_false hgt.not_gt (hle.trans_lt hgt).not_gt⟩
    case neg =>
      -- The value before the first threshold.
      have ⟨m, hm, hmin⟩ := ts.toFinset.exists_min_image id (List.toFinset_nonempty_iff ts |>.mpr h)
      simp only [List.mem_toFinset, id_eq] at hm hmin
      refine ⟨Order.pred m, mem_candidates hm (.inl rfl), fun t ht => ?_⟩
      have hgt : x < t := lt_of_le_of_ne (not_lt.mp fun hlt => hbelow ⟨t, ht, hlt⟩) fun he => hx (he ▸ ht)
      have hpred : Order.pred m < t := (Order.pred_lt m).trans_le (hmin t ht)
      exact ⟨iff_of_true hgt hpred, iff_of_false hgt.not_gt hpred.not_gt⟩

end Thresholds
