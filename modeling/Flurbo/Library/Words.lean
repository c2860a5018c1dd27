import Mathlib.Algebra.Order.Ring.Nat
import Mathlib.Data.List.Lex
import Mathlib.Data.Nat.Digits.Defs
import Mathlib.Data.Nat.Digits.Lemmas
import Mathlib.Data.Nat.Size
import Mathlib.Tactic.Ring
import Mathlib.Tactic.Linarith

-- Numbers in a base, as words of digits with the most significant one first.

namespace Words

variable {B k c r n : ℕ} {ws vs : List ℕ}

def value (B : ℕ) (ws : List ℕ) : ℕ :=
  ws.foldl (fun n w => n * B + w) 0

def Fits (B : ℕ) (ws : List ℕ) : Prop := ∀ w ∈ ws, w < B

theorem Fits.cons {w : ℕ} (h : Fits B (w :: ws)) : w < B ∧ Fits B ws :=
  List.forall_mem_cons.mp h

theorem foldl_value : ws.foldl (fun n w => n * B + w) n = n * B ^ ws.length + value B ws := by
  induction ws generalizing n
  case nil          => simp [value]
  case cons w ws hi =>
    have hcons : value B (w :: ws) = (0 * B + w) * B ^ ws.length + value B ws := hi
    rw [List.foldl_cons, hi, hcons, List.length_cons]
    ring

@[simp]
theorem value_nil : value B [] = 0 := rfl

theorem value_cons (w : ℕ) (ws : List ℕ) : value B (w :: ws) = w * B ^ ws.length + value B ws := by
  rw [value, List.foldl_cons, foldl_value, Nat.zero_mul, Nat.zero_add]

theorem value_append : value B (ws ++ vs) = value B ws * B ^ vs.length + value B vs := by
  rw [value, List.foldl_append, foldl_value]
  rfl

theorem value_zeros (n : ℕ) : value B (List.replicate n 0) = 0 := by
  induction n
  case zero      => rfl
  case succ n hi => rw [List.replicate_succ, value_cons, hi, Nat.zero_mul]

theorem value_lt (h : Fits B ws) : value B ws < B ^ ws.length := by
  induction ws
  case nil          => exact Nat.one_pos
  case cons w ws hi =>
    have ⟨hw, h⟩ := h.cons
    have hi := hi h
    rw [value_cons, List.length_cons, pow_succ]
    nlinarith [Nat.mul_le_mul_right (B ^ ws.length) (Nat.succ_le_of_lt hw)]

theorem value_eq_zero_iff (hB : 0 < B) : value B ws = 0 ↔ ∀ w ∈ ws, w = 0 := by
  induction ws
  case nil          => simp
  case cons w ws hi =>
    have hpos : 0 < B ^ ws.length := Nat.pow_pos hB
    rw [value_cons, Nat.add_eq_zero_iff, Nat.mul_eq_zero, hi, or_iff_left hpos.ne', List.forall_mem_cons]

-- The order of words of one length is the order of their digits from the first one on.
theorem value_lt_iff (h : Fits B ws) (h' : Fits B vs) (hl : ws.length = vs.length) :
    value B ws < value B vs ↔ ws < vs := by
  induction ws generalizing vs
  case nil          =>
    obtain rfl : vs = [] := List.length_eq_zero_iff.mp hl.symm
    simp
  case cons w ws hi =>
    cases vs
    case nil       => cases hl
    case cons v vs =>
      have ⟨hw, h⟩ := h.cons
      have ⟨hv, h'⟩ := h'.cons
      have hl : ws.length = vs.length := Nat.succ.inj hl
      have hlt := value_lt h
      have hlt' := value_lt h'
      rw [List.cons_lt_cons_iff, ← hi h h' hl, value_cons, value_cons, ← hl]
      rw [← hl] at hlt'
      constructor
      · intro hlt
        rcases lt_trichotomy w v with hc | hc | hc
        · exact .inl hc
        · subst hc
          exact .inr ⟨rfl, by omega⟩
        · have := Nat.mul_le_mul_right (B ^ ws.length) (Nat.succ_le_of_lt hc)
          rw [Nat.succ_mul] at this
          omega
      · rintro (hc | ⟨rfl, hc⟩)
        · have := Nat.mul_le_mul_right (B ^ ws.length) (Nat.succ_le_of_lt hc)
          rw [Nat.succ_mul] at this
          omega
        · omega

theorem eq_of_value (h : Fits B ws) (h' : Fits B vs) (hl : ws.length = vs.length)
    (hv : value B ws = value B vs) : ws = vs := by
  refine le_antisymm (not_lt.mp fun hlt => ?_) (not_lt.mp fun hlt => ?_)
  · exact absurd ((value_lt_iff h' h hl.symm).mpr hlt) hv.not_gt
  · exact absurd ((value_lt_iff h h' hl).mpr hlt) hv.not_lt

theorem compareLex_eq (h : Fits B ws) (h' : Fits B vs) (hl : ws.length = vs.length) :
    List.compareLex compare ws vs = compare (value B ws) (value B vs) := by
  induction ws generalizing vs
  case nil          =>
    obtain rfl : vs = [] := List.length_eq_zero_iff.mp hl.symm
    rfl
  case cons w ws hi =>
    cases vs
    case nil       => cases hl
    case cons v vs =>
      have hlex := value_lt_iff h h' hl
      have hlex' := value_lt_iff h' h hl.symm
      rw [List.cons_lt_cons_iff] at hlex hlex'
      rw [List.compareLex_cons_cons, hi h.cons.right h'.cons.right (Nat.succ.inj hl)]
      rcases lt_trichotomy w v with hc | hc | hc
      · rw [compare_lt_iff_lt.mpr hc, compare_lt_iff_lt.mpr (hlex.mpr (.inl hc))]
        rfl
      · subst hc
        rw [compare_eq_iff_eq.mpr rfl, value_cons, value_cons, ← Nat.succ.inj hl]
        simp only [compare, compareOfLessAndEq, Ordering.then]
        simp
      · rw [compare_gt_iff_gt.mpr hc, compare_gt_iff_gt.mpr (hlex'.mpr (.inl hc))]
        rfl

-- The length in bits is that of the leading digit and of the digits below it.
theorem size_add {m : ℕ} (hw : n ≠ 0) (hr : r < 2 ^ m) : (n * 2 ^ m + r).size = m + n.size := by
  refine le_antisymm ?_ ?_
  · rw [Nat.size_le, pow_add, mul_comm (2 ^ m)]
    have := Nat.mul_le_mul_right (2 ^ m) (Nat.succ_le_of_lt n.lt_size_self)
    rw [Nat.succ_mul] at this
    omega
  · have hpos : 0 < n.size := Nat.size_pos.mpr (Nat.pos_of_ne_zero hw)
    have hlow : 2 ^ (n.size - 1) ≤ n := Nat.lt_size.mp (by omega)
    have hlt : m + (n.size - 1) < (n * 2 ^ m + r).size := by
      rw [Nat.lt_size, pow_add, mul_comm]
      exact (Nat.mul_le_mul_right _ hlow).trans (Nat.le_add_right _ _)
    omega

section Arithmetic

-- Multiplies by `k` and adds `c`, from the last digit on. The second component is the carry.
def mulAdd (B k c : ℕ) (ws : List ℕ) : List ℕ × ℕ :=
  ws.foldr (fun w p => ((w * k + p.2) % B :: p.1, (w * k + p.2) / B)) ([], c)

theorem mulAdd_cons (w : ℕ) : mulAdd B k c (w :: ws) =
    ((w * k + (mulAdd B k c ws).2) % B :: (mulAdd B k c ws).1, (w * k + (mulAdd B k c ws).2) / B) := rfl

@[simp]
theorem length_mulAdd : (mulAdd B k c ws).1.length = ws.length := by
  induction ws
  case nil          => rfl
  case cons w ws hi => rw [mulAdd_cons, List.length_cons, hi, List.length_cons]

theorem fits_mulAdd (hB : 0 < B) : Fits B (mulAdd B k c ws).1 := by
  induction ws
  case nil          => exact fun w hw => by cases hw
  case cons w ws hi =>
    rw [mulAdd_cons]
    exact List.forall_mem_cons.mpr ⟨Nat.mod_lt _ hB, hi⟩

theorem value_mulAdd : (mulAdd B k c ws).2 * B ^ ws.length + value B (mulAdd B k c ws).1 =
    value B ws * k + c := by
  induction ws
  case nil          => simp [mulAdd]
  case cons w ws hi =>
    have hdiv := Nat.div_add_mod (w * k + (mulAdd B k c ws).2) B
    rw [mulAdd_cons, value_cons, value_cons, length_mulAdd, List.length_cons, pow_succ]
    dsimp only
    calc (w * k + (mulAdd B k c ws).2) / B * (B ^ ws.length * B) +
          ((w * k + (mulAdd B k c ws).2) % B * B ^ ws.length + value B (mulAdd B k c ws).1)
      _ = (B * ((w * k + (mulAdd B k c ws).2) / B) + (w * k + (mulAdd B k c ws).2) % B) * B ^ ws.length +
          value B (mulAdd B k c ws).1 := by ring
      _ = w * k * B ^ ws.length + ((mulAdd B k c ws).2 * B ^ ws.length + value B (mulAdd B k c ws).1) := by
        rw [hdiv]
        ring
      _ = (w * B ^ ws.length + value B ws) * k + c := by
        rw [hi]
        ring

-- Divides by `k`, from the first digit on, with `r` left over from before.
def divMod (B k : ℕ) (ws : List ℕ) (r : ℕ) : List ℕ × ℕ :=
  match ws with
  | []      => ([], r)
  | w :: ws =>
    let (qs, r') := divMod B k ws ((r * B + w) % k)
    ((r * B + w) / k :: qs, r')

theorem divMod_cons (w : ℕ) : divMod B k (w :: ws) r =
    ((r * B + w) / k :: (divMod B k ws ((r * B + w) % k)).1, (divMod B k ws ((r * B + w) % k)).2) := rfl

@[simp]
theorem length_divMod : (divMod B k ws r).1.length = ws.length := by
  induction ws generalizing r
  case nil          => rfl
  case cons w ws hi => rw [divMod_cons, List.length_cons, hi, List.length_cons]

theorem fits_divMod (h : Fits B ws) (hr : r < k) : Fits B (divMod B k ws r).1 := by
  induction ws generalizing r
  case nil          => exact fun w hw => by cases hw
  case cons w ws hi =>
    have ⟨hw, h⟩ := h.cons
    rw [divMod_cons]
    refine List.forall_mem_cons.mpr ⟨?_, hi h (Nat.mod_lt _ (by omega))⟩
    rw [Nat.div_lt_iff_lt_mul (by omega)]
    nlinarith

theorem rem_divMod_lt (hr : r < k) : (divMod B k ws r).2 < k := by
  induction ws generalizing r
  case nil          => exact hr
  case cons w ws hi => exact hi (Nat.mod_lt _ (by omega))

theorem value_divMod : value B (divMod B k ws r).1 * k + (divMod B k ws r).2 =
    r * B ^ ws.length + value B ws := by
  induction ws generalizing r
  case nil          => simp [divMod]
  case cons w ws hi =>
    have hdiv := Nat.div_add_mod (r * B + w) k
    rw [divMod_cons, value_cons, value_cons, length_divMod, List.length_cons, pow_succ, add_mul, add_assoc, hi]
    calc (r * B + w) / k * B ^ ws.length * k + ((r * B + w) % k * B ^ ws.length + value B ws)
      _ = (k * ((r * B + w) / k) + (r * B + w) % k) * B ^ ws.length + value B ws := by ring
      _ = r * (B ^ ws.length * B) + (w * B ^ ws.length + value B ws) := by rw [hdiv]; ring

end Arithmetic

section Minimal

theorem value_eq_ofDigits (ws : List ℕ) : value B ws = Nat.ofDigits B ws.reverse := by
  induction ws
  case nil          => simp
  case cons w ws hi =>
    rw [value_cons, hi, List.reverse_cons, Nat.ofDigits_append, List.length_reverse, Nat.ofDigits_singleton]
    ring

-- The digits of a number without superfluous zeros. Zero has none.
def minimal (B n : ℕ) : List ℕ := (B.digits n).reverse

theorem value_minimal (B n : ℕ) : value B (minimal B n) = n := by
  rw [value_eq_ofDigits, minimal, List.reverse_reverse, Nat.ofDigits_digits]

theorem head?_minimal (B n : ℕ) : (minimal B n).head? ≠ some 0 := by
  by_cases hn : n = 0
  case pos => simp [minimal, hn]
  case neg =>
    rw [minimal, List.head?_reverse, List.getLast?_eq_some_getLast (Nat.digits_ne_nil_iff_ne_zero.mpr hn)]
    exact fun h => Nat.getLast_digit_ne_zero B hn (Option.some.inj h)

theorem minimal_value (hB : 1 < B) (h : Fits B ws) (hz : ws.head? ≠ some 0) : minimal B (value B ws) = ws := by
  rw [minimal, value_eq_ofDigits, Nat.digits_ofDigits B hB, List.reverse_reverse]
  · exact fun w hw => h w (List.mem_reverse.mp hw)
  · intro hn h₀
    rw [List.getLast_reverse] at h₀
    exact hz (by rw [List.head?_eq_some_head (by simpa using hn), h₀])

theorem length_minimal_le (hB : 1 < B) (h : n < B ^ k) : (minimal B n).length ≤ k := by
  rw [minimal, List.length_reverse]
  exact (Nat.digits_length_le_iff hB n).mpr h

theorem minimal_rec (hB : 1 < B) (hn : n ≠ 0) : minimal B n = minimal B (n / B) ++ [n % B] := by
  rw [minimal, Nat.digits_def' hB (Nat.pos_of_ne_zero hn), List.reverse_cons, minimal]

-- The digits of a number at a length, of which the leading zeros are superfluous.
def fixed (B : ℕ) : ℕ → ℕ → List ℕ
  | 0, _          => []
  | length + 1, n => fixed B length (n / B) ++ [n % B]

theorem fits_fixed (hB : 0 < B) : Fits B (fixed B k n) := by
  induction k generalizing n
  case zero      => exact fun w hw => absurd hw List.not_mem_nil
  case succ k hi =>
    intro w hw
    obtain hw | hw := List.mem_append.mp hw
    · exact hi w hw
    · exact List.mem_singleton.mp hw ▸ Nat.mod_lt _ hB

theorem value_fixed (h : n < B ^ k) : value B (fixed B k n) = n := by
  induction k generalizing n
  case zero      => rw [pow_zero] at h; exact (Nat.lt_one_iff.mp h).symm
  case succ k hi =>
    rw [pow_succ] at h
    rw [fixed, value_append, hi (Nat.div_lt_of_lt_mul (by rwa [mul_comm] at h)), value_cons]
    simpa using Nat.div_add_mod' n B

theorem length_fixed (B k n : ℕ) : (fixed B k n).length = k := by
  induction k generalizing n
  case zero      => rfl
  case succ k hi => rw [fixed, List.length_append, hi, List.length_singleton]

-- The digits of as many numbers, one after another, are those of no others.
theorem flatMap_fixed_inj (hl : ws.length = vs.length) (hw : Fits (B ^ k) ws) (hv : Fits (B ^ k) vs)
    (h : ws.flatMap (fixed B k) = vs.flatMap (fixed B k)) : ws = vs := by
  induction ws generalizing vs
  case nil          => exact (List.length_eq_zero_iff.mp hl.symm).symm
  case cons w ws hi =>
    obtain _ | ⟨v, vs⟩ := vs
    case nil  => cases hl
    case cons =>
      have hlen : (fixed B k w).length = (fixed B k v).length := by rw [length_fixed, length_fixed]
      obtain ⟨hhead, htail⟩ := List.append_inj h hlen
      have he := congrArg (value B) hhead
      rw [value_fixed hw.cons.1, value_fixed hv.cons.1] at he
      rw [he, hi (Nat.succ.inj hl) hw.cons.2 hv.cons.2 htail]

theorem value_dropWhile : value B (ws.dropWhile (· = 0)) = value B ws := by
  induction ws
  case nil          => rfl
  case cons w ws hi =>
    by_cases hw : w = 0
    · rw [List.dropWhile_cons_of_pos (by simpa using hw), hi, value_cons, hw, Nat.zero_mul, Nat.zero_add]
    · rw [List.dropWhile_cons_of_neg (by simpa using hw)]

theorem dropWhile_fixed (hB : 1 < B) (h : n < B ^ k) : (fixed B k n).dropWhile (· = 0) = minimal B n := by
  have hv := value_fixed h
  have hfits : Fits B (fixed B k n) := fits_fixed (by omega)
  have hhead : ((fixed B k n).dropWhile (· = 0)).head? ≠ some 0 := by
    intro h₀
    have := List.head?_dropWhile_not (p := (· = 0)) (fixed B k n)
    rw [h₀] at this
    simp at this
  rw [← minimal_value hB (fun w hw => hfits w (List.dropWhile_sublist _ |>.mem hw)) hhead, value_dropWhile, hv]

end Minimal

section Pairs

-- Two digits make one of the squared base.
def pairs (B : ℕ) : List ℕ → List ℕ
  | x :: y :: ws => (x * B + y) :: pairs B ws
  | _            => []

theorem length_pairs : (pairs B ws).length = ws.length / 2 := by
  fun_induction pairs B ws
  case case1 x y ws hi => simp only [List.length_cons, hi]; omega
  case case2 ws h      =>
    match ws with
    | []          => rfl
    | [_]         => simp
    | x :: y :: t => exact absurd rfl (h x y t)

theorem fits_pairs (h : Fits B ws) : Fits (B * B) (pairs B ws) := by
  fun_induction pairs B ws
  case case1 x y ws hi =>
    have ⟨hx, h⟩ := h.cons
    have ⟨hy, h⟩ := h.cons
    exact List.forall_mem_cons.mpr ⟨by nlinarith, hi h⟩
  case case2 ws h      => exact fun w hw => absurd hw List.not_mem_nil

theorem value_pairs (h : ws.length % 2 = 0) : value (B * B) (pairs B ws) = value B ws := by
  fun_induction pairs B ws
  case case1 x y ws hi =>
    have heven : ws.length % 2 = 0 := by simp only [List.length_cons] at h; omega
    have hlen : ws.length = 2 * (ws.length / 2) := by omega
    have hpow : (B * B) ^ (ws.length / 2) = B ^ ws.length := by
      conv_rhs => rw [hlen, pow_mul, pow_two]
    rw [value_cons, hi heven, value_cons, value_cons, length_pairs, hpow, List.length_cons, pow_succ]
    ring
  case case2 ws hws    =>
    match ws with
    | []          => rfl
    | [_]         => simp at h
    | x :: y :: t => exact absurd rfl (hws x y t)

theorem map_range_pairs (h : ws.length = 2 * n) :
    ((List.range n).map fun i => ws.getD (2 * i) 0 * B + ws.getD (2 * i + 1) 0) = pairs B ws := by
  induction n generalizing ws
  case zero      =>
    obtain rfl : ws = [] := List.length_eq_zero_iff.mp h
    rfl
  case succ n hi =>
    match ws with
    | [] | [_]     => simp at h; try omega
    | x :: y :: ws =>
      have hl : ws.length = 2 * n := by simp only [List.length_cons] at h; omega
      rw [List.range_succ_eq_map, List.map_cons, List.map_map, pairs, ← hi hl]
      rfl

-- A digit of the squared base is written as two.
theorem value_flatMap (B : ℕ) (ws : List ℕ) :
    value B (ws.flatMap fun w => [w / B, w % B]) = value (B * B) ws := by
  induction ws
  case nil          => rfl
  case cons w ws hi =>
    have hlen : (ws.flatMap fun w => [w / B, w % B]).length = 2 * ws.length := by
      simp [List.length_flatMap, Nat.mul_comm]
    have hdiv := Nat.div_add_mod w B
    rw [List.flatMap_cons, value_append, hi, value_cons, hlen, pow_mul, pow_two, value_cons, value_cons]
    simp only [List.length_cons, List.length_nil, pow_zero, value_nil]
    rw [zero_add, pow_one, mul_one, add_zero, mul_comm (w / B) B, hdiv]

end Pairs

end Words
