import Flurbo.Library.Fallible
import Mathlib.Tactic

-- Arithmetic on machine words: exact where the result fits, and what becomes of a result that does not.

namespace Machine

inductive Fault
  | overflow
  deriving DecidableEq, Repr

-- The signed numbers of `w + 1` bits.
def Fits (w : ℕ) (z : ℤ) : Prop := -2 ^ w ≤ z ∧ z < 2 ^ w

instance (w : ℕ) (z : ℤ) : Decidable (Fits w z) := inferInstanceAs (Decidable (_ ∧ _))

-- The result of an operation on signed numbers, of one on unsigned numbers, and an unsigned number taken as signed.
structure Arith where
  signed   : ℤ → Except Fault ℤ
  unsigned : ℕ → Except Fault ℕ
  narrow   : ℕ → ℤ

def exact : Arith where
  signed z   := .ok z
  unsigned n := .ok n
  narrow n   := n

variable (w : ℕ)

def wrap (z : ℤ) : ℤ := z.bmod (2 ^ (w + 1))

def checkSigned (z : ℤ) : Except Fault ℤ := if Fits w z then .ok z else .error .overflow

def checkUnsigned (n : ℕ) : Except Fault ℕ := if n < 2 ^ (w + 1) then .ok n else .error .overflow

-- An overflow ends the program.
def checked : Arith where
  signed     := checkSigned w
  unsigned   := checkUnsigned w
  narrow n   := wrap w n

def wrapping : Arith where
  signed z   := .ok (wrap w z)
  unsigned n := .ok (n % 2 ^ (w + 1))
  narrow n   := wrap w n

-- An overflow of signed numbers is undefined, unsigned numbers wrap around.
def undefined : Arith where
  signed     := checkSigned w
  unsigned n := .ok (n % 2 ^ (w + 1))
  narrow n   := wrap w n

-- Arithmetic on words of that size that is exact where the results fit.
structure Extends (a : Arith) : Prop where
  signed   : ∀ z, Fits w z → a.signed z = .ok z
  unsigned : ∀ n, n < 2 ^ (w + 1) → a.unsigned n = .ok n
  narrow   : ∀ n : ℕ, a.narrow n = wrap w n

variable {w : ℕ} {a : Arith} {z y : ℤ} {n m : ℕ}

theorem wrap_of_fits (h : Fits w z) : wrap w z = z := by
  have hp : (2 : ℤ) ^ (w + 1) = 2 * 2 ^ w := by ring
  have ⟨hl, hu⟩ := h
  have hc : ((2 ^ (w + 1) : ℕ) : ℤ) = 2 * 2 ^ w := by push_cast; exact hp
  refine Int.bmod_eq_of_le ?_ ?_
  · rw [hc]; omega
  · rw [hc]; omega

theorem fits_natCast : Fits w n ↔ n < 2 ^ w := by
  have hp : (0 : ℤ) < 2 ^ w := by positivity
  rw [Fits]
  constructor
  case mp  => exact fun h => by exact_mod_cast h.2
  case mpr => exact fun h => ⟨by omega, by exact_mod_cast h⟩

@[simp]
theorem exact_narrow : exact.narrow n = n := rfl

@[simp]
theorem checked_narrow : (checked w).narrow n = wrap w n := rfl

theorem extends_wrapping : Extends w (wrapping w) :=
  ⟨fun _ h => congrArg _ (wrap_of_fits h), fun _ h => congrArg _ (Nat.mod_eq_of_lt h), fun _ => rfl⟩

theorem extends_undefined : Extends w (undefined w) :=
  ⟨fun _ h => if_pos h, fun _ h => congrArg _ (Nat.mod_eq_of_lt h), fun _ => rfl⟩

theorem checked_signed_iff : (checked w).signed z = .ok y ↔ Fits w z ∧ y = z := by
  change checkSigned w z = .ok y ↔ Fits w z ∧ y = z
  rw [checkSigned]
  split
  case isTrue h  => exact ⟨fun he => ⟨h, (Except.ok.inj he).symm⟩, fun he => by rw [he.2]⟩
  case isFalse h => exact ⟨fun he => (by cases he), fun he => absurd he.1 h⟩

theorem checked_unsigned_iff : (checked w).unsigned n = .ok m ↔ n < 2 ^ (w + 1) ∧ m = n := by
  change checkUnsigned w n = .ok m ↔ n < 2 ^ (w + 1) ∧ m = n
  rw [checkUnsigned]
  split
  case isTrue h  => exact ⟨fun he => ⟨h, (Except.ok.inj he).symm⟩, fun he => by rw [he.2]⟩
  case isFalse h => exact ⟨fun he => (by cases he), fun he => absurd he.1 h⟩

theorem narrow_of_lt (h : n < 2 ^ w) : wrap w n = n := wrap_of_fits (fits_natCast.mpr h)

-- The upper half of the unsigned numbers is taken for negative ones.
theorem narrow_of_ge (h : 2 ^ w ≤ n) (hn : n < 2 ^ (w + 1)) : wrap w n = (n : ℤ) - 2 ^ (w + 1) := by
  have hf : Fits w ((n : ℤ) - 2 ^ (w + 1)) := by
    have h : (2 : ℤ) ^ w ≤ n := by exact_mod_cast h
    have hn : (n : ℤ) < 2 ^ (w + 1) := by exact_mod_cast hn
    have hp : (2 : ℤ) ^ (w + 1) = 2 * 2 ^ w := by ring
    exact ⟨by omega, by omega⟩
  have hm : wrap w ((n : ℤ) - 2 ^ (w + 1)) = wrap w n := by
    have he : (n : ℤ) - 2 ^ (w + 1) = n - ((2 ^ (w + 1) : ℕ) : ℤ) := by push_cast; rfl
    rw [wrap, wrap, he, Int.sub_bmod_right]
  rw [← hm, wrap_of_fits hf]

theorem fits_narrow (hn : n < 2 ^ (w + 1)) : Fits w (wrap w n) := by
  rcases lt_or_ge n (2 ^ w) with h | h
  · rw [narrow_of_lt h]
    exact fits_natCast.mpr h
  · rw [narrow_of_ge h hn]
    have h : (2 : ℤ) ^ w ≤ n := by exact_mod_cast h
    have hn : (n : ℤ) < 2 ^ (w + 1) := by exact_mod_cast hn
    have hp : (2 : ℤ) ^ (w + 1) = 2 * 2 ^ w := by ring
    exact ⟨by omega, by omega⟩

section Sums

variable {zs : List ℤ} {s : ℤ}

def Arith.sum (a : Arith) (zs : List ℤ) : Except Fault ℤ := zs.foldlM (fun s z => a.signed (s + z)) 0

def Prefixes (w : ℕ) (s : ℤ) (zs : List ℤ) : Prop := ∀ ps, ps <+: zs → ps ≠ [] → Fits w (s + ps.sum)

theorem prefixes_cons : Prefixes w s (z :: zs) ↔ Fits w (s + z) ∧ Prefixes w (s + z) zs := by
  constructor
  case mp =>
    intro h
    refine ⟨by simpa using h [z] (by simp) (by simp), fun ps hp hn => ?_⟩
    have := h (z :: ps) (List.cons_prefix_cons.mpr ⟨rfl, hp⟩) (by simp)
    rwa [List.sum_cons, ← add_assoc] at this
  case mpr =>
    intro ⟨hz, h⟩ ps hp hn
    rcases List.prefix_cons_iff.mp hp with rfl | ⟨rest, rfl, hr⟩
    · exact absurd rfl hn
    · rw [List.sum_cons, ← add_assoc]
      by_cases he : rest = []
      · rw [he, List.sum_nil, add_zero]
        exact hz
      · exact h rest hr he

theorem foldlM_checked : zs.foldlM (fun s z => (checked w).signed (s + z)) s = .ok y ↔
    Prefixes w s zs ∧ y = s + zs.sum := by
  induction zs generalizing s
  case nil =>
    rw [List.foldlM_nil, List.sum_nil, add_zero, Except.pure_eq_ok, Except.ok.injEq]
    exact ⟨fun h => ⟨fun ps hp hn => absurd (List.prefix_nil.mp hp) hn, h.symm⟩, fun h => h.2.symm⟩
  case cons z zs hi =>
    rw [List.foldlM_cons, Except.bind_eq_ok, prefixes_cons, List.sum_cons, ← add_assoc]
    constructor
    case mp =>
      intro ⟨s', hs, h⟩
      obtain ⟨hf, rfl⟩ := checked_signed_iff.mp hs
      have ⟨hp, hy⟩ := hi.mp h
      exact ⟨⟨hf, hp⟩, hy⟩
    case mpr => exact fun ⟨⟨hf, hp⟩, hy⟩ => ⟨_, checked_signed_iff.mpr ⟨hf, rfl⟩, hi.mpr ⟨hp, hy⟩⟩

theorem checked_sum_iff : (checked w).sum zs = .ok y ↔ Prefixes w 0 zs ∧ y = zs.sum := by
  rw [Arith.sum, foldlM_checked, zero_add]

-- A sum of numbers that are not negative fits with all that it is made of.
theorem prefixes_of_nonneg (h : ∀ z ∈ zs, 0 ≤ z) : Prefixes w 0 zs ↔ zs.sum < 2 ^ w := by
  have hp : (0 : ℤ) < 2 ^ w := by positivity
  constructor
  case mp =>
    intro hf
    by_cases hn : zs = []
    · rwa [hn, List.sum_nil]
    · have := (hf zs (List.prefix_refl _) hn).2
      rwa [zero_add] at this
  case mpr =>
    intro hs ps ⟨rest, he⟩ _
    rw [← he, List.sum_append] at hs
    have h₁ : 0 ≤ ps.sum := List.sum_nonneg fun z hz => h z (he ▸ List.mem_append_left rest hz)
    have h₂ : 0 ≤ rest.sum := List.sum_nonneg fun z hz => h z (he ▸ List.mem_append_right ps hz)
    exact ⟨by omega, by omega⟩

theorem prefixes_natCast {ns : List ℕ} : Prefixes w 0 (ns.map fun (n : ℕ) => (n : ℤ)) ↔ ns.sum < 2 ^ w := by
  rw [prefixes_of_nonneg (by simp), ← Nat.cast_list_sum]
  exact_mod_cast Iff.rfl

end Sums

section Programs

variable {α β : Type}

-- Programs that do in every such arithmetic what they do where nothing overflows.
def Stable (w : ℕ) (f : Arith → Except Fault α) : Prop :=
  ∀ a v, Extends w a → f (checked w) = .ok v → f a = .ok v

theorem stable_ok (v : α) : Stable w fun _ => .ok v := fun _ _ _ h => h

theorem stable_signed (z : ℤ) : Stable w fun a => a.signed z := by
  intro a v ha h
  obtain ⟨hf, rfl⟩ := checked_signed_iff.mp h
  exact ha.signed _ hf

theorem stable_unsigned (n : ℕ) : Stable w fun a => a.unsigned n := by
  intro a v ha h
  obtain ⟨hf, rfl⟩ := checked_unsigned_iff.mp h
  exact ha.unsigned _ hf

-- What is taken as signed is so in every such arithmetic.
theorem Stable.narrow {f : Arith → (ℕ → ℤ) → Except Fault α} (hf : ∀ g, Stable w fun a => f a g) :
    Stable w fun a => f a a.narrow := by
  intro a v ha h
  have hn : a.narrow = (checked w).narrow := funext ha.narrow
  change f a a.narrow = .ok v
  rw [hn]
  exact hf _ a v ha h

theorem Stable.bind {f : Arith → Except Fault α} {g : Arith → α → Except Fault β} (hf : Stable w f)
    (hg : ∀ v, Stable w fun a => g a v) : Stable w fun a => f a >>= g a := by
  intro a v ha h
  obtain ⟨u, hu, h⟩ := Except.bind_eq_ok.mp h
  exact Except.bind_eq_ok.mpr ⟨u, hf a u ha hu, hg u a v ha h⟩

theorem Stable.foldlM {f : Arith → β → α → Except Fault β} (hf : ∀ b x, Stable w fun a => f a b x) (xs : List α)
    (b : β) : Stable w fun a => xs.foldlM (f a) b := by
  induction xs generalizing b
  case nil          => exact stable_ok b
  case cons x xs hi =>
    simp only [List.foldlM_cons]
    exact (hf b x).bind hi

theorem Stable.mapM {f : Arith → α → Except Fault β} (hf : ∀ x, Stable w fun a => f a x) (xs : List α) :
    Stable w fun a => xs.mapM (f a) := by
  induction xs
  case nil          => exact stable_ok []
  case cons x xs hi =>
    simp only [List.mapM_cons]
    exact (hf x).bind fun _ => hi.bind fun _ => stable_ok _

theorem mapM_eq_ok_iff {f : α → Except Fault β} {g : α → β} {P : α → Prop}
    (h : ∀ x y, f x = .ok y ↔ P x ∧ y = g x) {xs : List α} {ys : List β} :
    xs.mapM f = .ok ys ↔ (∀ x ∈ xs, P x) ∧ ys = xs.map g := by
  induction xs generalizing ys
  case nil =>
    rw [List.mapM_nil, Except.pure_eq_ok, Except.ok.injEq]
    exact ⟨fun he => ⟨by simp, he.symm⟩, fun he => he.2.symm⟩
  case cons x xs hi =>
    simp only [List.mapM_cons, Except.bind_eq_ok, Except.pure_eq_ok, Except.ok.injEq, h, hi, List.forall_mem_cons,
      List.map_cons]
    constructor
    case mp =>
      rintro ⟨_, ⟨hx, rfl⟩, _, ⟨hxs, rfl⟩, he⟩
      exact ⟨⟨hx, hxs⟩, he.symm⟩
    case mpr =>
      rintro ⟨⟨hx, hxs⟩, he⟩
      exact ⟨_, ⟨hx, rfl⟩, _, ⟨hxs, rfl⟩, he.symm⟩

theorem stable_sum (zs : List ℤ) : Stable w fun a => a.sum zs := Stable.foldlM (fun _ _ => stable_signed _) zs 0

end Programs

end Machine
