import Mathlib.Data.List.Forall2
import Mathlib.Data.List.GetD
import Mathlib.Data.List.Perm.Subperm
import Mathlib.Algebra.BigOperators.Group.List.Lemmas
import Mathlib.Algebra.Order.BigOperators.Group.List
import Mathlib.Tactic

-- Reasoning about computations that either return a value or fail, written in `Except`.

universe u

namespace Except

variable {ε : Type*} {α β : Type u}

@[simp]
theorem bind_eq_ok {x : Except ε α} {f : α → Except ε β} {b : β} :
    (x >>= f) = .ok b ↔ ∃ a, x = .ok a ∧ f a = .ok b := by
  cases x <;> simp [bind, Except.bind]

@[simp]
theorem ok_bind {a : α} {f : α → Except ε β} : (Except.ok a >>= f) = f a := rfl

@[simp]
theorem error_bind {e : ε} {f : α → Except ε β} : (Except.error e >>= f) = .error e := rfl

theorem bind_eq_error {x : Except ε α} {f : α → Except ε β} {e : ε} :
    (x >>= f) = .error e ↔ x = .error e ∨ ∃ a, x = .ok a ∧ f a = .error e := by
  cases x <;> simp

@[simp]
theorem mapError_eq_ok {ε' : Type*} {x : Except ε α} {f : ε → ε'} {a : α} :
    x.mapError f = .ok a ↔ x = .ok a := by
  cases x <;> simp [Except.mapError]

@[simp]
theorem mapError_eq_error {ε' : Type*} {x : Except ε α} {f : ε → ε'} {e' : ε'} :
    x.mapError f = .error e' ↔ ∃ e, x = .error e ∧ f e = e' := by
  cases x <;> simp [Except.mapError]

@[simp]
theorem pure_eq_ok {a : α} : (pure a : Except ε α) = .ok a := rfl

@[simp]
theorem map_eq_ok {x : Except ε α} {f : α → β} {b : β} :
    f <$> x = .ok b ↔ ∃ a, x = .ok a ∧ f a = b := by
  cases x <;> simp [Functor.map, Except.map]

theorem exists_ok {x : Except ε α} (h : x.isOk) : ∃ a, x = .ok a := by
  cases x
  case error => cases h
  case ok a  => exact ⟨a, rfl⟩

-- A continuation that only checks can be dropped if its checks pass.
theorem bind_eq_self {x : Except ε α} {f : α → Except ε α} (h : ∀ a, x = .ok a → f a = .ok a) :
    (x >>= f) = x := by
  cases x
  case error => rfl
  case ok a  => exact h a rfl

theorem bind_congr_ok {x : Except ε α} {f g : α → Except ε β} (h : ∀ a, x = .ok a → f a = g a) :
    (x >>= f) = (x >>= g) := by
  cases x
  case error => rfl
  case ok a  => exact h a rfl

-- `x.Holds E P` is the judgement "if `x` returns, its result satisfies `P`; it may fail only if `E`".
-- With `E := False` it says that `x` returns, with `E := True` it is partial correctness.
def Holds (E : Prop) (P : α → Prop) : Except ε α → Prop
  | .ok a    => P a
  | .error _ => E

variable {E : Prop} {P Q : α → Prop}

@[simp]
theorem holds_ok {a : α} : (Except.ok a : Except ε α).Holds E P ↔ P a := .rfl

@[simp]
theorem holds_error {e : ε} : (Except.error e : Except ε α).Holds E P ↔ E := .rfl

theorem holds_true_iff {x : Except ε α} : x.Holds True P ↔ ∀ a, x = .ok a → P a := by
  cases x <;> simp

theorem holds_false_iff {x : Except ε α} : x.Holds False P ↔ ∃ a, x = .ok a ∧ P a := by
  cases x <;> simp

theorem Holds.mono {x : Except ε α} (h : x.Holds E P) (hpq : ∀ a, P a → Q a) : x.Holds E Q := by
  cases x
  case ok    => exact hpq _ h
  case error => exact h

theorem Holds.bind {x : Except ε α} {f : α → Except ε β} {R : β → Prop}
    (h : x.Holds E P) (hf : ∀ a, P a → (f a).Holds E R) : (x >>= f).Holds E R := by
  cases x
  case ok    => exact hf _ h
  case error => exact h

-- An invariant of the accumulator that may depend on the elements still to come.
theorem Holds.foldlM {I : List α → β → Prop} {f : β → α → Except ε β} {xs : List α} {b : β}
    (h₀ : I xs b) (hs : ∀ x xs b, I (x :: xs) b → (f b x).Holds E (I xs)) :
    (xs.foldlM f b).Holds E (I []) := by
  induction xs generalizing b
  case nil         => exact h₀
  case cons x xs hi => exact Holds.bind (hs x xs b h₀) fun _ hb => hi hb

theorem Holds.mapM {R : α → β → Prop} {f : α → Except ε β} {xs : List α}
    (h : ∀ x ∈ xs, (f x).Holds E (R x)) : (xs.mapM f).Holds E (List.Forall₂ R xs) := by
  induction xs
  case nil         => exact .nil
  case cons x xs hi =>
    rw [List.mapM_cons]
    refine Holds.bind (h x (by simp)) fun _ hx => ?_
    exact Holds.bind (hi fun y hy => h y (by simp [hy])) fun _ hxs => .cons hx hxs

theorem mapM_eq_ok {α : Type*} {f : α → Except ε β} {xs : List α} {ys : List β} :
    xs.mapM f = .ok ys ↔ List.Forall₂ (fun x y => f x = .ok y) xs ys := by
  induction xs generalizing ys
  case nil         => simp [eq_comm]
  case cons x xs hi =>
    simp only [List.mapM_cons, bind_eq_ok, hi, pure_eq_ok, ok.injEq, List.forall₂_cons_left_iff]
    constructor
    case mp  => rintro ⟨y, hy, ys', h, rfl⟩; exact ⟨y, ys', hy, h, rfl⟩
    case mpr => rintro ⟨y, ys', hy, h, rfl⟩; exact ⟨y, hy, ys', h, rfl⟩

theorem forM_mem {α : Type*} {f : α → Except ε PUnit.{u + 1}} {xs : List α} {u : PUnit} {x : α}
    (h : xs.forM f = .ok u) (hx : x ∈ xs) : f x = .ok ⟨⟩ := by
  induction xs
  case nil          => cases hx
  case cons y xs hi =>
    have h : (f y >>= fun _ => xs.forM f) = .ok u := h
    obtain ⟨_, hy, h⟩ := bind_eq_ok.mp h
    rcases List.mem_cons.mp hx with rfl | hx
    · exact hy
    · exact hi h hx

theorem mapM_ok {α : Type*} {f : α → Except ε β} {g : α → β} {xs : List α}
    (h : ∀ x ∈ xs, f x = .ok (g x)) : xs.mapM f = .ok (xs.map g) := by
  rw [mapM_eq_ok, List.forall₂_map_right_iff]
  exact List.forall₂_same.mpr h

theorem mapM_eq_error {α : Type*} {f : α → Except ε β} {xs : List α} {e : ε}
    (h : xs.mapM f = .error e) : ∃ x ∈ xs, f x = .error e := by
  induction xs
  case nil          => cases h
  case cons x xs hi =>
    simp only [List.mapM_cons, bind_eq_error] at h
    rcases h with h | ⟨_, _, h | ⟨_, _, h⟩⟩
    · exact ⟨x, by simp, h⟩
    · have ⟨y, hy, hf⟩ := hi h
      exact ⟨y, by simp [hy], hf⟩
    · cases h

theorem mapM_eq_map {α : Type*} {f : α → Except ε β} {g : α → β} {xs : List α} {ys : List β}
    (h : xs.mapM f = .ok ys) (hg : ∀ x y, f x = .ok y → y = g x) : ys = xs.map g := by
  replace h := (mapM_eq_ok.mp h).imp hg
  induction h
  case nil            => rfl
  case cons hxy _ hi  => rw [List.map_cons, hxy, hi]

theorem mapM_range_eq_ok {f : ℕ → Except ε β} {n : ℕ} {ys : List β} :
    (List.range n).mapM f = .ok ys ↔ ys.length = n ∧ ∀ j (h : j < ys.length), f j = .ok ys[j] := by
  rw [mapM_eq_ok, List.forall₂_iff_get]
  simp only [List.length_range, List.get_eq_getElem, List.getElem_range]
  constructor
  case mp  => exact fun ⟨hn, h⟩ => ⟨hn.symm, fun j hj => h j (hn ▸ hj) hj⟩
  case mpr => exact fun ⟨hn, h⟩ => ⟨hn.symm, fun j _ hj => h j hj⟩

theorem foldlM_congr {f g : β → α → Except ε β} {xs : List α} (h : ∀ b, ∀ x ∈ xs, f b x = g b x)
    (b : β) : xs.foldlM f b = xs.foldlM g b := by
  induction xs generalizing b
  case nil          => rfl
  case cons x xs hi =>
    rw [List.foldlM_cons, List.foldlM_cons, h b x (by simp)]
    congr 1
    funext b
    exact hi (fun b y hy => h b y (by simp [hy])) b

-- A partial operation whose order of application does not matter, in the sense that
-- reordering preserves success and the result.
def RightComm (f : β → α → Except ε β) : Prop :=
  ∀ b x y r, (f b x >>= (f · y)) = .ok r → (f b y >>= (f · x)) = .ok r

theorem RightComm.foldlM_perm {f : β → α → Except ε β} (hf : RightComm f) {xs ys : List α}
    (hp : xs.Perm ys) {b r : β} (h : xs.foldlM f b = .ok r) : ys.foldlM f b = .ok r := by
  induction hp generalizing b
  case nil             => exact h
  case cons x xs ys _ hi =>
    simp only [List.foldlM_cons, bind_eq_ok] at h ⊢
    obtain ⟨c, hc, h⟩ := h
    exact ⟨c, hc, hi h⟩
  case swap x y xs     =>
    simp only [List.foldlM_cons, bind_eq_ok] at h ⊢
    obtain ⟨c, hc, d, hd, h⟩ := h
    have := hf b y x d (by simp [hc, hd])
    simp only [bind_eq_ok] at this
    obtain ⟨c', hc', hd'⟩ := this
    exact ⟨c', hc', d, hd', h⟩
  case trans hi₁ hi₂   => exact hi₂ (hi₁ h)

end Except
