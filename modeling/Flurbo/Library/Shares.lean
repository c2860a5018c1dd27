import Flurbo.Library.Holdings

-- Amounts that are handed out to accounts, one share after another.

namespace Shares

variable {ι : Type*}

def total (shares : List (ι × ℕ)) : ℕ :=
  (shares.map (·.2)).sum

@[simp]
theorem total_nil : total ([] : List (ι × ℕ)) = 0 := rfl

@[simp]
theorem total_cons {l : List (ι × ℕ)} {x : ι × ℕ} : total (x :: l) = x.2 + total l := by
  simp [total]

variable [DecidableEq ι]

def add (balances : ι → ℕ) (shares : List (ι × ℕ)) : ι → ℕ :=
  shares.foldl (fun balances share =>
    Function.update balances share.1 (balances share.1 + share.2)) balances

-- What an account gets of them.
def of (shares : List (ι × ℕ)) (i : ι) : ℕ :=
  ((shares.filter (·.1 = i)).map (·.2)).sum

variable {f : ι → ℕ} {l : List (ι × ℕ)} {i : ι}

@[simp]
theorem add_nil : add f [] = f := rfl

@[simp]
theorem add_cons {x : ι × ℕ} : add f (x :: l) = add (Function.update f x.1 (f x.1 + x.2)) l := rfl

theorem add_apply : add f l i = f i + of l i := by
  unfold of
  induction l generalizing f
  case nil          => rfl
  case cons x l hi =>
    rw [add_cons, hi, List.filter_cons]
    by_cases h : x.1 = i
    case pos => subst h; simp [Nat.add_assoc]
    case neg => rw [Function.update_of_ne (Ne.symm h)]; simp [h]

theorem of_ne_zero (h : of l i ≠ 0) : ∃ x ∈ l, x.1 = i := by
  by_contra hn
  have hf : l.filter (·.1 = i) = [] :=
    List.filter_eq_nil_iff.mpr fun x hx => by simpa using fun he => hn ⟨x, hx, he⟩
  exact h (by rw [of, hf]; rfl)

theorem of_append {l' : List (ι × ℕ)} : of (l ++ l') i = of l i + of l' i := by
  simp [of, List.filter_append]

theorem of_singleton {x : ι × ℕ} : of [x] i = if x.1 = i then x.2 else 0 := by
  by_cases h : x.1 = i <;> simp [of, h]

theorem of_pos {x : ι × ℕ} (h : x ∈ l) (hx : 0 < x.2) : 0 < of l x.1 := by
  have hm : x.2 ∈ ((l.filter (·.1 = x.1)).map (·.2)) :=
    List.mem_map.mpr ⟨x, List.mem_filter.mpr ⟨h, by simp⟩, rfl⟩
  exact hx.trans_le (List.single_le_sum (by simp) _ hm)

variable [Fintype ι]

theorem sum_add : ∑ i, add f l i = ∑ i, f i + total l := by
  induction l generalizing f
  case nil         => simp
  case cons x l hi =>
    have := Holdings.sum_update_add f x.1 (f x.1 + x.2)
    rw [add_cons, hi, total_cons]
    omega

theorem sum_of : ∑ i, of l i = total l := by
  have h := sum_add (f := fun _ : ι => 0) (l := l)
  simpa [add_apply] using h

end Shares

-- Replacing an entry changes a sum by the entry.
theorem List.sum_map_set {α : Type*} {xs : List α} {x y : α} {i : ℕ} {f : α → ℕ} (h : xs[i]? = some x) :
    ((xs.set i y).map f).sum + f x = (xs.map f).sum + f y := by
  induction xs generalizing i
  case nil          => cases h
  case cons z xs hi =>
    cases i
    case zero   =>
      cases Option.some.inj h
      simp only [List.set_cons_zero, List.map_cons, List.sum_cons]
      omega
    case succ i =>
      have := hi (i := i) (by simpa using h)
      simp only [List.set_cons_succ, List.map_cons, List.sum_cons]
      omega
