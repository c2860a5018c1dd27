import Flurbo.Library.Fallible

-- Lists in an order, and what a fold over one fails at.

open Except

-- A list whose later elements fulfil `p` only if the earlier ones do.
theorem List.Pairwise.filter_append {α : Type} {p : α → Bool} {l : List α}
    (h : l.Pairwise fun a b => p b = true → p a = true) : l = l.filter p ++ l.filter (!p ·) := by
  induction l
  case nil         => rfl
  case cons a l hi =>
    rw [List.pairwise_cons] at h
    cases hp : p a
    case true  => rw [List.filter_cons_of_pos hp, List.filter_cons_of_neg (by simp [hp]), List.cons_append, ← hi h.2]
    case false =>
      have hnone : l.filter p = [] := by
        rw [List.filter_eq_nil_iff]
        intro b hb hpb
        exact absurd (h.1 b hb hpb) (by simp [hp])
      have hall := hi h.2
      rw [hnone, List.nil_append] at hall
      rw [List.filter_cons_of_neg (by simp [hp]), List.filter_cons_of_pos (by simp [hp]), hnone, List.nil_append,
        ← hall]

-- A fold fails at the first element that it cannot process.
theorem List.foldlM_eq_error {ε α β : Type} {f : β → α → Except ε β} {b : β} {l : List α} {e : ε} :
    l.foldlM f b = .error e ↔ ∃ l₁ a l₂ c, l = l₁ ++ a :: l₂ ∧ l₁.foldlM f b = .ok c ∧ f c a = .error e := by
  induction l generalizing b
  case nil         => exact iff_of_false (fun h => nomatch h) fun ⟨l₁, _, _, _, h, _⟩ => by cases l₁ <;> cases h
  case cons a l hi =>
    rw [List.foldlM_cons, bind_eq_error]
    constructor
    · rintro (h | ⟨b', hb, h⟩)
      · exact ⟨[], a, l, b, rfl, rfl, h⟩
      · obtain ⟨l₁, x, l₂, c, rfl, hc, he⟩ := hi.mp h
        exact ⟨a :: l₁, x, l₂, c, rfl, by rw [List.foldlM_cons, hb]; exact hc, he⟩
    · intro ⟨l₁, x, l₂, c, hl, hc, he⟩
      cases l₁
      case nil =>
        cases hl
        cases hc
        exact .inl he
      case cons y l₁ =>
        cases hl
        rw [List.foldlM_cons, bind_eq_ok] at hc
        obtain ⟨b', hb, hc⟩ := hc
        exact .inr ⟨b', hb, hi.mpr ⟨l₁, x, l₂, c, rfl, hc, he⟩⟩
