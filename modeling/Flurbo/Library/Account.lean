import Mathlib.Tactic

-- The transactions of one account, which a chain includes in the order of their nonces.

structure Account (τ : Type*) where
  first : ℕ
  mined : List (Option τ)

namespace Account

variable {τ : Type*}

section Definitions

variable (nonce : τ → ℕ) (c : Account τ) (x y : τ)

-- How many nonces have been used. Transactions that are not told apart are `none`.
def count : ℕ := c.first + c.mined.length

def mine (tx : Option τ) : Account τ := { c with mined := c.mined ++ [tx] }

def Landed : Prop := some x ∈ c.mined

-- Another transaction has used the nonce.
def Dead : Prop := nonce x < c.count ∧ ¬ c.Landed x

-- At most one of the two can ever land.
def Compatible : Prop := c.Dead nonce x ∨ c.Dead nonce y ∨ nonce x = nonce y

instance decidableLanded [DecidableEq τ] : Decidable (c.Landed x) := inferInstanceAs (Decidable (_ ∈ _))

instance decidableDead [DecidableEq τ] : Decidable (c.Dead nonce x) := inferInstanceAs (Decidable (_ ∧ _))

instance decidableCompatible [DecidableEq τ] : Decidable (c.Compatible nonce x y) :=
  inferInstanceAs (Decidable (_ ∨ _))

structure Ordered : Prop where
  nonce : ∀ (i : ℕ) x, c.mined[i]? = some (some x) → nonce x = c.first + i

end Definitions

variable {nonce : τ → ℕ} {c : Account τ} {x y : τ} {tx : Option τ}

@[simp]
theorem count_mine : (c.mine tx).count = c.count + 1 := by
  simp [count, mine, Nat.add_assoc]

theorem landed_mine : (c.mine tx).Landed x ↔ c.Landed x ∨ tx = some x := by
  simp [Landed, mine, eq_comm]

theorem Ordered.mine (h : c.Ordered nonce) (ht : ∀ x, tx = some x → nonce x = c.count) :
    (c.mine tx).Ordered nonce := by
  constructor
  intro i x hi
  rw [Account.mine] at hi
  rcases Nat.lt_trichotomy i c.mined.length with hlt | rfl | hgt
  · rw [List.getElem?_append_left hlt] at hi
    exact h.nonce i x hi
  · rw [List.getElem?_append_right le_rfl, Nat.sub_self] at hi
    exact ht x (Option.some.inj hi)
  · rw [List.getElem?_eq_none (by simp; omega)] at hi
    cases hi

theorem Ordered.unique (h : c.Ordered nonce) (hx : c.Landed x) (hy : c.Landed y) (he : nonce x = nonce y) :
    x = y := by
  obtain ⟨i, hi, hx⟩ := List.mem_iff_getElem.mp hx
  obtain ⟨k, hk, hy⟩ := List.mem_iff_getElem.mp hy
  have h₁ := h.nonce i x (by rw [List.getElem?_eq_getElem hi, hx])
  have h₂ := h.nonce k y (by rw [List.getElem?_eq_getElem hk, hy])
  cases (show i = k by omega)
  exact Option.some.inj (hx.symm.trans hy)

theorem Dead.mine (h : c.Dead nonce x) (ht : ∀ x, tx = some x → nonce x = c.count) :
    (c.mine tx).Dead nonce x := by
  obtain ⟨hlt, hn⟩ := h
  refine ⟨hlt.trans (by simp), fun hl => ?_⟩
  rcases landed_mine.mp hl with hl | hl
  · exact hn hl
  · exact absurd (ht x hl) hlt.ne

theorem Compatible.mine (h : c.Compatible nonce x y) (ht : ∀ x, tx = some x → nonce x = c.count) :
    (c.mine tx).Compatible nonce x y := by
  rcases h with h | h | h
  · exact .inl (h.mine ht)
  · exact .inr (.inl (h.mine ht))
  · exact .inr (.inr h)

theorem Compatible.symm (h : c.Compatible nonce x y) : c.Compatible nonce y x := by
  rcases h with h | h | h
  · exact .inr (.inl h)
  · exact .inl h
  · exact .inr (.inr h.symm)

theorem Compatible.refl : c.Compatible nonce x x := .inr (.inr rfl)

theorem Compatible.eq (h : c.Compatible nonce x y) (ho : c.Ordered nonce) (hx : c.Landed x) (hy : c.Landed y) :
    x = y := by
  rcases h with h | h | h
  · exact absurd hx h.right
  · exact absurd hy h.right
  · exact ho.unique hx hy h

section Landing

-- The transactions that use up the nonces before that of `x`, and then `x` itself.
def path (nonce : τ → ℕ) (c : Account τ) (x : τ) : List (Option τ) :=
  if nonce x < c.count then [] else List.replicate (nonce x - c.count) none ++ [some x]

-- Each transaction of a list comes under the next nonce.
def Next (nonce : τ → ℕ) (c : Account τ) : List (Option τ) → Prop
  | []        => True
  | tx :: txs => (∀ x, tx = some x → nonce x = c.count) ∧ Next nonce (c.mine tx) txs

theorem next_path : Next nonce c (path nonce c x) := by
  unfold path
  split
  case isTrue     => trivial
  case isFalse hn =>
    obtain ⟨k, hk⟩ := Nat.le.dest (not_lt.mp hn)
    rw [← hk, Nat.add_sub_cancel_left]
    clear hn
    induction k generalizing c
    case zero      => exact ⟨fun y hy => (by cases hy; exact hk.symm), trivial⟩
    case succ k hi => exact ⟨fun y hy => (by cases hy), hi (by rw [count_mine]; omega)⟩

-- What is not dead lands in the end.
theorem landed_path (h : ¬ c.Dead nonce x) : ((path nonce c x).foldl mine c).Landed x := by
  unfold path
  split
  case isTrue hlt => exact not_not.mp fun hn => h ⟨hlt, hn⟩
  case isFalse    =>
    rw [List.foldl_append, List.foldl_cons, List.foldl_nil]
    exact landed_mine.mpr (.inr rfl)

theorem landed_foldl {txs : List (Option τ)} (h : c.Landed x) : (txs.foldl mine c).Landed x := by
  induction txs generalizing c
  case nil            => exact h
  case cons tx txs hi => exact hi (landed_mine.mpr (.inl h))

theorem count_path : ((path nonce c x).foldl mine c).count = max c.count (nonce x + 1) := by
  have hcount (txs : List (Option τ)) (c : Account τ) : (txs.foldl mine c).count = c.count + txs.length := by
    induction txs generalizing c
    case nil            => rfl
    case cons tx txs hi => rw [List.foldl_cons, hi, count_mine, List.length_cons]; omega
  rw [hcount, path]
  split
  · rw [List.length_nil]; omega
  · rw [List.length_append, List.length_replicate, List.length_singleton]; omega

theorem Next.append {txs txs' : List (Option τ)} (h : Next nonce c txs)
    (h' : Next nonce (txs.foldl mine c) txs') : Next nonce c (txs ++ txs') := by
  induction txs generalizing c
  case nil            => exact h'
  case cons tx txs hi => exact ⟨h.left, hi h.right h'⟩

theorem mem_path (h : tx ∈ path nonce c x) : tx = none ∨ tx = some x := by
  unfold path at h
  split at h
  · cases h
  · rcases List.mem_append.mp h with h | h
    · exact .inl (List.eq_of_mem_replicate h)
    · exact .inr (List.mem_singleton.mp h)

-- Two transactions with different nonces that are not dead can both land, that with the lower nonce
-- first.
theorem both_land_of_lt (hx : ¬ c.Dead nonce x) (hy : ¬ c.Dead nonce y) (hlt : nonce x < nonce y) :
    ∃ txs, Next nonce c txs ∧ (∀ tx ∈ txs, tx = none ∨ tx = some x ∨ tx = some y) ∧
      (txs.foldl mine c).Landed x ∧ (txs.foldl mine c).Landed y := by
  have hy' : ¬ ((path nonce c x).foldl mine c).Dead nonce y := by
    rintro ⟨hcount, hn⟩
    rw [count_path] at hcount
    exact hy ⟨by omega, fun hl => hn (landed_foldl hl)⟩
  refine ⟨path nonce c x ++ path nonce ((path nonce c x).foldl mine c) y, next_path.append next_path,
    fun tx htx => ?_, ?_, ?_⟩
  · rcases List.mem_append.mp htx with htx | htx
    · exact (mem_path htx).imp id .inl
    · exact (mem_path htx).imp id .inr
  · rw [List.foldl_append]
    exact landed_foldl (landed_path hx)
  · rw [List.foldl_append]
    exact landed_path hy'

theorem both_land (h : ¬ c.Compatible nonce x y) :
    ∃ txs, Next nonce c txs ∧ (∀ tx ∈ txs, tx = none ∨ tx = some x ∨ tx = some y) ∧
      (txs.foldl mine c).Landed x ∧ (txs.foldl mine c).Landed y := by
  simp only [Compatible, not_or] at h
  obtain ⟨hx, hy, hne⟩ := h
  rcases Nat.lt_or_gt_of_ne hne with hlt | hlt
  · exact both_land_of_lt hx hy hlt
  · obtain ⟨txs, hn, hm, hly, hlx⟩ := both_land_of_lt hy hx hlt
    exact ⟨txs, hn, fun tx htx => (hm tx htx).imp id Or.symm, hlx, hly⟩

end Landing

end Account
