import Mathlib.Algebra.BigOperators.Group.Finset.Powerset
import Mathlib.Data.Finset.Lattice.Fold
import Mathlib.Data.Nat.Bitwise
import Mathlib.Tactic

-- Variable elimination over Boolean variables. Local functions of an assignment are combined by
-- addition, and a variable is eliminated by an operation that addition distributes over.

namespace Elimination

variable {ι β : Type*}

-- An operation that merges the two branches of a variable.
structure Reduction (β : Type*) [AddCommMonoid β] where
  join     : β → β → β
  add_join : ∀ a b c, a + join b c = join (a + b) (a + c)

-- A function of the assignment that reads only the variables of its scope.
structure Local (ι β : Type*) where
  scope : Finset ι
  eval  : (ι → Bool) → β
  reads : ∀ {x y}, (∀ i ∈ scope, x i = y i) → eval x = eval y

section Total

variable [AddCommMonoid β]

def total (fs : List (Local ι β)) (x : ι → Bool) : β :=
  (fs.map (·.eval x)).sum

@[simp]
theorem total_nil (x : ι → Bool) : total ([] : List (Local ι β)) x = 0 := rfl

@[simp]
theorem total_cons (f : Local ι β) (fs : List (Local ι β)) (x : ι → Bool) :
    total (f :: fs) x = f.eval x + total fs x := by
  simp [total]

@[simp]
theorem total_append (fs gs : List (Local ι β)) (x : ι → Bool) :
    total (fs ++ gs) x = total fs x + total gs x := by
  simp [total]

theorem total_filter (p : Local ι β → Bool) (fs : List (Local ι β)) (x : ι → Bool) :
    total (fs.filter (!p ·)) x + total (fs.filter p) x = total fs x := by
  induction fs
  case nil          => simp
  case cons f fs hi =>
    cases h : p f
    case false => simp [h, ← hi, add_assoc]
    case true  => simp [h, ← hi, add_left_comm]

end Total

variable [DecidableEq ι]

def scopes (fs : List (Local ι β)) : Finset ι :=
  fs.foldr (fun f s => f.scope ∪ s) ∅

theorem mem_scopes {fs : List (Local ι β)} {i : ι} : i ∈ scopes fs ↔ ∃ f ∈ fs, i ∈ f.scope := by
  induction fs <;> simp_all [scopes]

variable [AddCommMonoid β] (ρ : Reduction β)

theorem total_congr {fs : List (Local ι β)} {x y : ι → Bool} (h : ∀ i ∈ scopes fs, x i = y i) :
    total fs x = total fs y := by
  unfold total
  congr 1
  apply List.map_congr_left
  exact fun f hf => f.reads fun i hi => h i <| mem_scopes.mpr ⟨f, hf, hi⟩

theorem total_update {fs : List (Local ι β)} {v : ι} (h : ∀ f ∈ fs, v ∉ f.scope) (x : ι → Bool)
    (b : Bool) : total fs (Function.update x v b) = total fs x := by
  apply total_congr
  intro i hi
  have ⟨f, hf, hi⟩ := mem_scopes.mp hi
  apply Function.update_of_ne
  rintro rfl
  exact h f hf hi

namespace Reduction

def reduce (v : ι) (f : (ι → Bool) → β) (x : ι → Bool) : β :=
  ρ.join (f (Function.update x v false)) (f (Function.update x v true))

-- The local function that replaces all local functions mentioning `v`.
def message (v : ι) (fs : List (Local ι β)) : Local ι β where
  scope := (scopes fs).erase v
  eval  := ρ.reduce v (total fs)
  reads := by
    intro x y h
    have hu (b : Bool) : total fs (Function.update x v b) = total fs (Function.update y v b) := by
      apply total_congr
      intro i hi
      by_cases hv : i = v
      case pos => simp [hv]
      case neg => simp [hv, h i (Finset.mem_erase.mpr ⟨hv, hi⟩)]
    simp only [reduce, hu]

def eliminate (v : ι) (fs : List (Local ι β)) : List (Local ι β) :=
  fs.filter (v ∉ ·.scope) ++ [ρ.message v (fs.filter (v ∈ ·.scope))]

theorem total_eliminate (v : ι) (fs : List (Local ι β)) :
    total (ρ.eliminate v fs) = ρ.reduce v (total fs) := by
  funext x
  have hs (y : ι → Bool) := total_filter (fun f => decide (v ∈ f.scope)) fs y
  have hn (b : Bool) := total_update (v := v) (by simp : ∀ f ∈ fs.filter (v ∉ ·.scope), v ∉ f.scope) x b
  simp only [← decide_not] at hs
  simp only [eliminate, total_append, total_cons, total_nil, add_zero, message, reduce, ρ.add_join,
    ← hs, hn]

-- All variables of the list marginalised, the first one innermost.
def marginal : List ι → ((ι → Bool) → β) → (ι → Bool) → β
  | [], f      => f
  | v :: vs, f => marginal vs (ρ.reduce v f)

end Reduction

section Assignments

-- The variables of `V` read off the set `S`, all others off `x`.
def assign (V S : Finset ι) (x : ι → Bool) (i : ι) : Bool :=
  if i ∈ V then decide (i ∈ S) else x i

omit [AddCommMonoid β]

variable {V S : Finset ι} {v : ι} {x : ι → Bool}

theorem update_assign_false (hv : v ∉ V) (hS : S ⊆ V) :
    Function.update (assign V S x) v false = assign (insert v V) S x := by
  funext i
  by_cases hi : i = v
  case pos => subst hi; simp [assign, show i ∉ S from fun h => hv (hS h)]
  case neg => simp [assign, hi]

@[simp]
theorem assign_empty : assign ∅ S x = x := by
  funext i; simp [assign]

theorem update_assign_true (hv : v ∉ V) :
    Function.update (assign V S x) v true = assign (insert v V) (insert v S) x := by
  funext i
  by_cases hi : i = v
  case pos => subst hi; simp [assign]
  case neg => simp [assign, hi]

end Assignments

-- Merging by maximum.
def maxPlus : Reduction ℕ where
  join     := max
  add_join := by intros; omega

theorem marginal_maxPlus {vs : List ι} (hd : vs.Nodup) (f : (ι → Bool) → ℕ) (x : ι → Bool) :
    maxPlus.marginal vs f x = vs.toFinset.powerset.sup fun S => f (assign vs.toFinset S x) := by
  induction vs generalizing f
  case nil          => simp [Reduction.marginal]
  case cons v vs hi =>
    have ⟨hv, hd⟩ := List.nodup_cons.mp hd
    rw [← List.mem_toFinset] at hv
    rw [Reduction.marginal, hi hd, List.toFinset_cons, Finset.powerset_insert, Finset.sup_union,
      Finset.sup_image, ← Finset.sup_sup]
    apply Finset.sup_congr rfl
    intro S hS
    simp only [Reduction.reduce, maxPlus, Function.comp_apply, Pi.sup_apply,
      update_assign_false hv (Finset.mem_powerset.mp hS), update_assign_true hv]

section Bitmap

-- The assignments of the variables below `n` are the bitmaps below `2 ^ n`.
def bits (n x : ℕ) : Finset ℕ := (Finset.range n).filter (x.testBit ·)

theorem assign_bits {n x : ℕ} (h : x < 2 ^ n) :
    assign (Finset.range n) (bits n x) (fun _ => false) = x.testBit := by
  funext i
  by_cases hi : i < n
  case pos => simp [assign, bits, hi]
  case neg =>
    simp only [assign, Finset.mem_range, hi, if_false]
    exact (Nat.testBit_lt_two_pow (h.trans_le (Nat.pow_le_pow_right Nat.two_pos (by omega)))).symm

theorem bits_injOn (n : ℕ) : Set.InjOn (bits n) (Finset.range (2 ^ n)) := by
  intro x hx y hy h
  simp only [Finset.coe_range, Set.mem_Iio] at hx hy
  apply Nat.eq_of_testBit_eq
  rw [← funext_iff, ← assign_bits hx, h, assign_bits hy]

theorem image_bits (n : ℕ) : (Finset.range (2 ^ n)).image (bits n) = (Finset.range n).powerset := by
  apply Finset.eq_of_subset_of_card_le
  case h  => simp [Finset.image_subset_iff, bits, Finset.filter_subset]
  case h₂ => rw [Finset.card_image_of_injOn (bits_injOn n)]; simp

variable {n : ℕ} {vs : List ℕ} (hp : vs.Perm (List.range n))
include hp

theorem toFinset_of_perm_range : vs.toFinset = Finset.range n := by
  ext i; simp [hp.mem_iff]

theorem marginal_maxPlus_bitmap (f : (ℕ → Bool) → ℕ) :
    maxPlus.marginal vs f (fun _ => false) = (Finset.range (2 ^ n)).sup (f ·.testBit) := by
  rw [marginal_maxPlus (hp.nodup_iff.mpr List.nodup_range), toFinset_of_perm_range hp,
    ← image_bits, Finset.sup_image]
  apply Finset.sup_congr rfl
  intro x hx
  simp [assign_bits (Finset.mem_range.mp hx)]

end Bitmap

end Elimination
