import Flurbo.Contracts.FundedPricingEngine.Movement
import Flurbo.Library.Spread

-- The movement between two biases is a distance: the sum of the spreads of their tables' differences.

open Evm Except
open FactoredCost (popcount)
open FactoredQuote (entryOf)

namespace FundedPricingEngine

-- Tables whose entries are words of the contract.
def Words (tables : List Factor) : Prop := ∀ f ∈ tables, ∀ v ∈ f.values, v < 2 ^ 128

instance decidableWords (tables : List Factor) : Decidable (Words tables) :=
  inferInstanceAs (Decidable (∀ f ∈ tables, ∀ v ∈ f.values, v < 2 ^ 128))

-- A bias that `canonical` accepts, with tables for a cluster of `events` events.
structure Bias (events : ℕ) (tables : List Factor) : Prop where
  canonical : canonical tables = .ok ()
  words     : Words tables
  scope_lt  : ∀ f ∈ tables, f.scope < 2 ^ events
  length_eq : ∀ f ∈ tables, f.values.length = 2 ^ popcount f.scope

-- What the tables of a scope say, with nothing for a missing table.
def entryDiff (old new : List Factor) (s k : ℕ) : ℤ := entryOf new s k - entryOf old s k

def distance (scopes : Finset ℕ) (old new : List Factor) : ℕ :=
  ∑ s ∈ scopes, spread (2 ^ popcount s) (entryDiff old new s)

-- Tables of one scope and of different sizes.
def Mismatch (old new : List Factor) : Prop :=
  ∃ o ∈ old, ∃ n ∈ new, o.scope = n.scope ∧ o.values.length ≠ n.values.length

variable {old new mid : List Factor} {o n : Option Factor} {f : Factor} {events fuel span s k : ℕ}

section Canonical

structure Ordered (tables : List Factor) : Prop where
  sorted   : tables.Pairwise fun f g => f.scope < g.scope
  nonempty : ∀ f ∈ tables, f.values.length ≠ 0
  lowest   : ∀ f ∈ tables, 0 ∈ f.values

theorem lowest_mem {values : List ℕ} (h : lowest values = 0) : 0 ∈ values := by
  suffices hs : ∀ m, values.foldl (fun low v => if v < low then v else low) m = m ∨
      values.foldl (fun low v => if v < low then v else low) m ∈ values by
    rcases hs (2 ^ 128 - 1) with h' | h'
    · rw [lowest, h'] at h
      cases h
    · exact h ▸ h'
  clear h
  induction values
  case nil               => simp
  case cons v values hi =>
    intro m
    rw [List.foldl_cons]
    split
    · rcases hi v with h | h <;> simp [h]
    · rcases hi m with h | h <;> simp [h]

theorem canonicalFrom_ordered {last : Option ℕ} {tables : List Factor}
    (h : canonicalFrom last tables = .ok ()) :
    Ordered tables ∧ ∀ f ∈ tables, ∀ s ∈ last, s < f.scope := by
  induction tables generalizing last
  case nil               => exact ⟨⟨.nil, by simp, by simp⟩, by simp⟩
  case cons f tables hi =>
    simp only [canonicalFrom, bind_eq_ok, revertIf_eq_ok, not_or, not_not] at h
    obtain ⟨_, ⟨_, hlast, hne, _⟩, _, hl, h⟩ := h
    obtain ⟨ho, hs⟩ := hi h
    have hlt : ∀ s ∈ last, s < f.scope := by
      rintro s hs
      cases hs
      simpa using hlast
    refine ⟨⟨List.pairwise_cons.mpr ⟨fun g hg => hs g hg f.scope rfl, ho.sorted⟩,
      List.forall_mem_cons.mpr ⟨hne, ho.nonempty⟩, List.forall_mem_cons.mpr ⟨lowest_mem hl, ho.lowest⟩⟩,
      List.forall_mem_cons.mpr ⟨hlt, fun g hg s hs' => (hlt s hs').trans (hs g hg f.scope rfl)⟩⟩

theorem ordered_of_canonical {tables : List Factor} (h : canonical tables = .ok ()) :
    Ordered tables ∧ tables.length ≤ 64 := by
  simp only [canonical, bind_eq_ok, revertIf_eq_ok, not_lt] at h
  obtain ⟨_, hl, h⟩ := h
  exact ⟨(canonicalFrom_ordered h).left, hl⟩

theorem Ordered.tail {tables : List Factor} (h : Ordered (f :: tables)) : Ordered tables where
  sorted     := h.sorted.tail
  nonempty g := fun hg => h.nonempty g (List.mem_cons_of_mem f hg)
  lowest g   := fun hg => h.lowest g (List.mem_cons_of_mem f hg)

end Canonical

section LocalRange

def optEntry (f : Option Factor) (k : ℕ) : ℤ := (f.map fun f => (f.entry k : ℤ)).getD 0

theorem entryOrZero_ok (h : ∀ f ∈ o, k < f.values.length) : entryOrZero o k = .ok (optEntry o k) := by
  cases o
  case none   => rfl
  case some f =>
    have hn := nth_eq_ok_getD.mpr ⟨h f rfl, rfl⟩
    simp [entryOrZero, hn, optEntry, Factor.entry]

theorem foldl_high_mem (deltas : List ℤ) (m : ℤ) :
    deltas.foldl (fun high delta => if delta > high then delta else high) m = m ∨
      deltas.foldl (fun high delta => if delta > high then delta else high) m ∈ deltas := by
  induction deltas generalizing m
  case nil               => simp
  case cons d deltas hi =>
    rw [List.foldl_cons]
    split
    · rcases hi d with h | h <;> simp [h]
    · rcases hi m with h | h <;> simp [h]

theorem foldl_low_mem (deltas : List ℤ) (m : ℤ) :
    deltas.foldl (fun low delta => if delta < low then delta else low) m = m ∨
      deltas.foldl (fun low delta => if delta < low then delta else low) m ∈ deltas := by
  induction deltas generalizing m
  case nil               => simp
  case cons d deltas hi =>
    rw [List.foldl_cons]
    split
    · rcases hi d with h | h <;> simp [h]
    · rcases hi m with h | h <;> simp [h]

theorem optEntry_bounds (h : ∀ f ∈ o, ∀ v ∈ f.values, v < 2 ^ 128) (k : ℕ) :
    0 ≤ optEntry o k ∧ optEntry o k < 2 ^ 128 := by
  cases o
  case none   => simp [optEntry]
  case some f =>
    have hlt : f.entry k < 2 ^ 128 := by
      rw [Factor.entry]
      by_cases hk : k < f.values.length
      · rw [List.getD_eq_getElem _ _ hk]
        exact h f rfl _ (List.getElem_mem hk)
      · rw [List.getD_eq_default _ _ (not_lt.mp hk)]
        decide
    simp only [optEntry, Option.map_some, Option.getD_some]
    omega

-- Two aligned tables of equal sizes: the local range is the spread of their difference.
theorem localRange_ok {count : ℕ} (hc : count ≠ 0) (hany : o.isSome ∨ n.isSome)
    (ho : ∀ f ∈ o, f.values.length = count) (hn : ∀ f ∈ n, f.values.length = count)
    (hwo : ∀ f ∈ o, ∀ v ∈ f.values, v < 2 ^ 128) (hwn : ∀ f ∈ n, ∀ v ∈ f.values, v < 2 ^ 128) :
    localRange o n = .ok (spread count fun k => optEntry n k - optEntry o k) := by
  have hcount : ((o <|> n).map fun f => f.values.length).getD 0 = count := by
    cases o
    case some f => simpa using ho f rfl
    case none   =>
      cases n
      case none   => simp at hany
      case some f => simpa using hn f rfl
  have hcheck : ¬ (o.isSome ∧ n.any (·.values.length ≠ count)) := by
    rintro ⟨_, h⟩
    obtain ⟨f, hf, hne⟩ := (Option.any_eq_true _ _).mp h
    simp [hn f hf] at hne
  generalize hd : (fun k => optEntry n k - optEntry o k) = d
  have hdeltas : (List.range count).mapM (fun k => do
      return (← entryOrZero n k) - (← entryOrZero o k) : ℕ → Sol ℤ) = .ok ((List.range count).map d) := by
    refine mapM_range_eq_ok.mpr ⟨by simp, fun j hj => ?_⟩
    have hj : j < count := by simpa using hj
    rw [entryOrZero_ok fun f hf => hn f hf ▸ hj, entryOrZero_ok fun f hf => ho f hf ▸ hj]
    simp [← hd]
  have hb : ∀ k, -2 ^ 128 < d k ∧ d k < 2 ^ 128 := by
    intro k
    have := optEntry_bounds hwn k
    have := optEntry_bounds hwo k
    rw [← hd]
    dsimp only
    omega
  have hmem : ∀ x, x ∈ (List.range count).map d ↔ ∃ k < count, d k = x := by simp
  have h₀ : d 0 ∈ (List.range count).map d := (hmem _).mpr ⟨0, Nat.pos_of_ne_zero hc, rfl⟩
  generalize (List.range count).map d = deltas at hdeltas hmem h₀
  simp only [localRange, hcount]
  rw [hdeltas]
  simp only [revertIf, if_neg hcheck, ok_bind]
  obtain ⟨_, hlow⟩ := foldl_low deltas (2 ^ 255 - 1)
  obtain ⟨_, hhigh⟩ := foldl_high deltas (-2 ^ 255)
  have hl := foldl_low_mem deltas (2 ^ 255 - 1)
  have hh := foldl_high_mem deltas (-2 ^ 255)
  generalize deltas.foldl (fun low delta => if delta < low then delta else low) (2 ^ 255 - 1) = low at hlow hl ⊢
  generalize deltas.foldl (fun high delta => if delta > high then delta else high) (-2 ^ 255) = high at hhigh hh ⊢
  have hb₀ := hb 0
  have h₁ := hlow _ h₀
  have h₂ := hhigh _ h₀
  have hl : ∃ k < count, d k = low := (hmem low).mp (hl.resolve_left (by omega))
  have hh : ∃ k < count, d k = high := (hmem high).mp (hh.resolve_left (by omega))
  have hrange : ¬ (high - low < -2 ^ 255 ∨ high - low > 2 ^ 255 - 1) := by
    obtain ⟨i, _, hi⟩ := hl
    obtain ⟨j, _, hj⟩ := hh
    have := hb i
    have := hb j
    omega
  have hs := spread_eq (fun k hk => ⟨hlow _ ((hmem _).mpr ⟨k, hk, rfl⟩), hhigh _ ((hmem _).mpr ⟨k, hk, rfl⟩)⟩)
    hl hh
  rw [hs, if_neg hrange]
  rfl

theorem localRange_mismatch {o n : Factor} (h : o.values.length ≠ n.values.length) :
    localRange (some o) (some n) = .error .nonCanonicalBias := by
  have hc : (some o).isSome ∧ (some n).any (·.values.length ≠ o.values.length) :=
    ⟨rfl, by simpa using h.symm⟩
  have hcount : ((some o <|> some n).map fun f => f.values.length).getD 0 = o.values.length := rfl
  simp only [localRange, hcount, revertIf, if_pos hc, error_bind]

theorem spread_le_word {count : ℕ} (hwo : ∀ f ∈ o, ∀ v ∈ f.values, v < 2 ^ 128)
    (hwn : ∀ f ∈ n, ∀ v ∈ f.values, v < 2 ^ 128) :
    spread count (fun k => optEntry n k - optEntry o k) ≤ 2 ^ 129 := by
  refine spread_le fun i _ j _ => ?_
  have := optEntry_bounds hwo i
  have := optEntry_bounds hwo j
  have := optEntry_bounds hwn i
  have := optEntry_bounds hwn j
  push_cast
  omega

end LocalRange

section Total

theorem Words.tail (h : Words (f :: old)) : Words old := fun g hg => h g (List.mem_cons_of_mem f hg)

theorem Words.head (h : Words (f :: old)) : ∀ g ∈ some f, ∀ v ∈ g.values, v < 2 ^ 128 := by
  rintro g hg
  cases hg
  exact h f List.mem_cons_self

theorem words_none : ∀ g ∈ (none : Option Factor), ∀ v ∈ g.values, v < 2 ^ 128 := nofun

theorem Mismatch.mono {old' new' : List Factor} (h : Mismatch old new) (ho : old ⊆ old') (hn : new ⊆ new') :
    Mismatch old' new' := by
  have ⟨o, hmo, n, hmn, h⟩ := h
  exact ⟨o, ho hmo, n, hn hmn, h⟩

-- What a call comes to if its tables fit: it returns, or two tables of one scope differ in size.
def Outcome (old new : List Factor) (r : Sol ℕ) : Prop :=
  (∃ total, r = .ok total) ∨ r = .error .nonCanonicalBias ∧ Mismatch old new

theorem round_outcome {old' new' : List Factor} {count : ℕ} {next : ℕ → Sol ℕ}
    (hr : localRange o n = .ok (spread count fun k => optEntry n k - optEntry o k))
    (hwo : ∀ f ∈ o, ∀ v ∈ f.values, v < 2 ^ 128) (hwn : ∀ f ∈ n, ∀ v ∈ f.values, v < 2 ^ 128)
    (hs : span + 2 ^ 129 < 2 ^ 256) (ho : old' ⊆ old) (hn : new' ⊆ new)
    (hi : ∀ total ≤ span + 2 ^ 129, Outcome old' new' (next total)) :
    Outcome old new (do next (← checkedAdd 256 span (← localRange o n))) := by
  have hle : spread count (fun k => optEntry n k - optEntry o k) ≤ 2 ^ 129 := spread_le_word hwo hwn
  rw [hr, ok_bind, checkedAdd_eq_ok.mpr ⟨by omega, rfl⟩, ok_bind]
  rcases hi _ (Nat.add_le_add_left hle span) with h | ⟨h, hm⟩
  · exact .inl h
  · exact .inr ⟨h, hm.mono ho hn⟩

theorem movementFrom_outcome (ho : Ordered old) (hn : Ordered new) (hwo : Words old) (hwn : Words new)
    (hf : old.length + new.length ≤ fuel) (hs : span + (old.length + new.length) * 2 ^ 129 < 2 ^ 256) :
    Outcome old new (movementFrom fuel old new span) := by
  fun_induction movementFrom fuel old new span
  case case1 fuel span => exact .inl ⟨span, rfl⟩
  case case2 old new _ h =>
    have hl : old.length + new.length = 0 := Nat.le_zero.mp hf
    have ho : old = [] := List.length_eq_zero_iff.mp (by omega)
    have hn : new = [] := List.length_eq_zero_iff.mp (by omega)
    exact absurd hn (h ho)
  case case3 fuel o old span hi =>
    simp only [List.length_cons, List.length_nil] at hf hs
    refine round_outcome (localRange_ok (ho.nonempty o List.mem_cons_self) (.inl rfl) (by simp) (by simp)
      hwo.head words_none) hwo.head words_none (by omega) (List.subset_cons_self o old)
      (List.Subset.refl _) fun total ht => ?_
    exact hi total ho.tail hn hwo.tail hwn (by simpa using hf) (by simp only [List.length_nil]; omega)
  case case4 fuel n new span hi =>
    simp only [List.length_cons, List.length_nil] at hf hs
    refine round_outcome (localRange_ok (hn.nonempty n List.mem_cons_self) (.inr rfl) (by simp) (by simp)
      words_none hwn.head) words_none hwn.head (by omega) (List.Subset.refl _)
      (List.subset_cons_self n new) fun total ht => ?_
    exact hi total ho hn.tail hwo hwn.tail (by simpa using hf) (by simp only [List.length_nil]; omega)
  case case5 fuel o old n new span takeOld takeNew hi =>
    simp only [List.length_cons] at hf hs
    have hno := ho.nonempty o List.mem_cons_self
    have hnn := hn.nonempty n List.mem_cons_self
    rcases lt_trichotomy o.scope n.scope with hlt | heq | hgt
    · have hto : takeOld := hlt.le
      have htn : ¬ takeNew := not_le.mpr hlt
      simp only [if_pos hto, if_neg htn] at hi ⊢
      refine round_outcome (localRange_ok hno (.inl rfl) (by simp) (by simp) hwo.head words_none) hwo.head
        words_none (by omega) (List.subset_cons_self o old) (List.Subset.refl _) fun total ht => ?_
      exact hi total ho.tail hn hwo.tail hwn (by simp only [List.length_cons]; omega)
        (by simp only [List.length_cons]; omega)
    · have hto : takeOld := heq.le
      have htn : takeNew := heq.ge
      simp only [if_pos hto, if_pos htn] at hi ⊢
      by_cases hl : o.values.length = n.values.length
      case neg =>
        rw [localRange_mismatch hl, error_bind]
        exact .inr ⟨rfl, o, List.mem_cons_self, n, List.mem_cons_self, heq, hl⟩
      case pos =>
        refine round_outcome (localRange_ok hno (.inl rfl) (by simp) (by simp [hl]) hwo.head hwn.head)
          hwo.head hwn.head (by omega) (List.subset_cons_self o old) (List.subset_cons_self n new)
          fun total ht => ?_
        exact hi total ho.tail hn.tail hwo.tail hwn.tail (by omega) (by omega)
    · have hto : ¬ takeOld := not_le.mpr hgt
      have htn : takeNew := hgt.le
      simp only [if_neg hto, if_pos htn] at hi ⊢
      refine round_outcome (localRange_ok hnn (.inr rfl) (by simp) (by simp) words_none hwn.head) words_none
        hwn.head (by omega) (List.Subset.refl _) (List.subset_cons_self n new) fun total ht => ?_
      exact hi total ho hn.tail hwo hwn.tail (by simp only [List.length_cons]; omega)
        (by simp only [List.length_cons]; omega)

-- Biases that `canonical` accepts: `movement` returns, or finds two tables of one scope that differ
-- in size.
theorem movement_outcome (ho : canonical old = .ok ()) (hn : canonical new = .ok ()) (hwo : Words old)
    (hwn : Words new) : Outcome old new (movement old new) := by
  have ⟨hso, hlo⟩ := ordered_of_canonical ho
  have ⟨hsn, hln⟩ := ordered_of_canonical hn
  rw [movement, ho, hn, ok_bind, ok_bind]
  exact movementFrom_outcome hso hsn hwo hwn le_rfl (by omega)

end Total

section Value

variable {scopes : Finset ℕ} {old' new' : List Factor} {total : ℕ}

theorem entryOf_cons : entryOf (f :: old) s k = (if f.scope = s then f.entry k else 0) + entryOf old s k := by
  rw [entryOf, List.filter_cons]
  split <;> simp_all [entryOf]

theorem entryOf_eq_zero (h : ∀ f ∈ old, f.scope ≠ s) : entryOf old s k = 0 := by
  rw [entryOf, List.filter_eq_nil_iff.mpr (by simpa using h)]
  rfl

theorem entryOf_of_mem (ho : Ordered old) (hf : f ∈ old) : entryOf old f.scope k = f.entry k := by
  induction old
  case nil           => cases hf
  case cons g old hi =>
    have ⟨hlt, _⟩ := List.pairwise_cons.mp ho.sorted
    rw [entryOf_cons]
    rcases List.mem_cons.mp hf with rfl | hf
    · rw [if_pos rfl, entryOf_eq_zero fun h hh => (hlt h hh).ne', add_zero]
    · rw [if_neg (hlt f hf).ne, zero_add, hi ho.tail hf]

-- A round takes the tables of the smallest scope.
theorem distance_round (hs : s ∈ scopes) (ho : ∀ k, optEntry o k = entryOf old s k)
    (hn : ∀ k, optEntry n k = entryOf new s k)
    (hrest : ∀ t ≠ s, ∀ k, entryDiff old new t k = entryDiff old' new' t k)
    (hzero : ∀ k, entryDiff old' new' s k = 0) :
    distance scopes old new =
      (spread (2 ^ popcount s) fun k => optEntry n k - optEntry o k) + distance scopes old' new' := by
  have hself : spread (2 ^ popcount s) (entryDiff old' new' s) = 0 :=
    spread_eq_zero_iff.mpr fun i _ j _ => by rw [hzero, hzero]
  have hd : (fun k => optEntry n k - optEntry o k) = entryDiff old new s := by
    funext k
    rw [ho, hn, entryDiff]
  rw [distance, distance, ← Finset.add_sum_erase scopes _ hs, ← Finset.add_sum_erase scopes _ hs, hself,
    zero_add, hd]
  refine congrArg _ (Finset.sum_congr rfl fun t ht => ?_)
  rw [funext (hrest t (Finset.ne_of_mem_erase ht))]

theorem distance_take_old (ho : Ordered (f :: old)) (hn : ∀ g ∈ new, f.scope < g.scope) (hs : f.scope ∈ scopes) :
    distance scopes (f :: old) new =
      (spread (2 ^ popcount f.scope) fun k => optEntry none k - optEntry (some f) k) +
        distance scopes old new := by
  have hlt := (List.pairwise_cons.mp ho.sorted).left
  have hold (k : ℕ) : entryOf old f.scope k = 0 := entryOf_eq_zero fun g hg => (hlt g hg).ne'
  have hnew (k : ℕ) : entryOf new f.scope k = 0 := entryOf_eq_zero fun g hg => (hn g hg).ne'
  refine distance_round hs (fun k => ?_) (fun k => ?_) (fun t ht k => ?_) fun k => ?_
  · simp [optEntry, entryOf_cons, hold]
  · simp [optEntry, hnew]
  · simp [entryDiff, entryOf_cons, ht.symm]
  · simp [entryDiff, hold, hnew]

theorem distance_take_new (hn : Ordered (f :: new)) (ho : ∀ g ∈ old, f.scope < g.scope) (hs : f.scope ∈ scopes) :
    distance scopes old (f :: new) =
      (spread (2 ^ popcount f.scope) fun k => optEntry (some f) k - optEntry none k) +
        distance scopes old new := by
  have hlt := (List.pairwise_cons.mp hn.sorted).left
  have hnew (k : ℕ) : entryOf new f.scope k = 0 := entryOf_eq_zero fun g hg => (hlt g hg).ne'
  have hold (k : ℕ) : entryOf old f.scope k = 0 := entryOf_eq_zero fun g hg => (ho g hg).ne'
  refine distance_round hs (fun k => ?_) (fun k => ?_) (fun t ht k => ?_) fun k => ?_
  · simp [optEntry, hold]
  · simp [optEntry, entryOf_cons, hnew]
  · simp [entryDiff, entryOf_cons, ht.symm]
  · simp [entryDiff, hold, hnew]

theorem distance_take_both {g : Factor} (ho : Ordered (f :: old)) (hn : Ordered (g :: new))
    (hfg : f.scope = g.scope) (hs : f.scope ∈ scopes) :
    distance scopes (f :: old) (g :: new) =
      (spread (2 ^ popcount f.scope) fun k => optEntry (some g) k - optEntry (some f) k) +
        distance scopes old new := by
  have hold (k : ℕ) : entryOf old f.scope k = 0 :=
    entryOf_eq_zero fun h hh => ((List.pairwise_cons.mp ho.sorted).left h hh).ne'
  have hnew (k : ℕ) : entryOf new f.scope k = 0 :=
    entryOf_eq_zero fun h hh => (hfg ▸ (List.pairwise_cons.mp hn.sorted).left h hh : f.scope < h.scope).ne'
  refine distance_round hs (fun k => ?_) (fun k => ?_) (fun t ht k => ?_) fun k => ?_
  · simp [optEntry, entryOf_cons, hold]
  · simp [optEntry, entryOf_cons, hnew, ← hfg]
  · simp [entryDiff, entryOf_cons, ht.symm, ← hfg]
  · simp [entryDiff, hold, hnew]

theorem Ordered.all_gt {g : Factor} (h : Ordered (f :: old)) (hg : g.scope < f.scope) :
    ∀ d ∈ f :: old, g.scope < d.scope :=
  List.forall_mem_cons.mpr ⟨hg, fun d hd => hg.trans ((List.pairwise_cons.mp h.sorted).left d hd)⟩

def Sized (tables : List Factor) : Prop := ∀ f ∈ tables, f.values.length = 2 ^ popcount f.scope

theorem localRange_sized {count : ℕ} (hany : o.isSome ∨ n.isSome)
    (ho : ∀ f ∈ o, f.values.length = 2 ^ count) (hn : ∀ f ∈ n, f.values.length = 2 ^ count)
    (hwo : ∀ f ∈ o, ∀ v ∈ f.values, v < 2 ^ 128) (hwn : ∀ f ∈ n, ∀ v ∈ f.values, v < 2 ^ 128) :
    localRange o n = .ok (spread (2 ^ count) fun k => optEntry n k - optEntry o k) :=
  localRange_ok (Nat.two_pow_pos count).ne' hany ho hn hwo hwn

theorem movementFrom_eq (h : movementFrom fuel old new span = .ok total) (ho : Ordered old) (hn : Ordered new)
    (hwo : Words old) (hwn : Words new) (hlo : Sized old) (hln : Sized new)
    (hso : ∀ f ∈ old, f.scope ∈ scopes) (hsn : ∀ f ∈ new, f.scope ∈ scopes) :
    total = span + distance scopes old new := by
  fun_induction movementFrom fuel old new span
  case case1 fuel span =>
    cases h
    have hz : distance scopes [] [] = 0 :=
      Finset.sum_eq_zero fun s _ => spread_eq_zero_iff.mpr fun _ _ _ _ => rfl
    rw [hz, add_zero]
  case case2 => cases h
  case case3 fuel o old span hi =>
    obtain ⟨hl, hlo⟩ := List.forall_mem_cons.mp hlo
    obtain ⟨hs, hso⟩ := List.forall_mem_cons.mp hso
    have hr := localRange_sized (.inl rfl) (by simpa using hl) (by simp) hwo.head words_none
    rw [hr, ok_bind] at h
    simp only [bind_eq_ok, checkedAdd_eq_ok] at h
    obtain ⟨_, ⟨_, rfl⟩, h⟩ := h
    rw [hi _ h ho.tail hn hwo.tail hwn hlo hln hso hsn, distance_take_old ho (by simp) hs, add_assoc]
  case case4 fuel n new span hi =>
    obtain ⟨hl, hln⟩ := List.forall_mem_cons.mp hln
    obtain ⟨hs, hsn⟩ := List.forall_mem_cons.mp hsn
    have hr := localRange_sized (.inr rfl) (by simp) (by simpa using hl) words_none hwn.head
    rw [hr, ok_bind] at h
    simp only [bind_eq_ok, checkedAdd_eq_ok] at h
    obtain ⟨_, ⟨_, rfl⟩, h⟩ := h
    rw [hi _ h ho hn.tail hwo hwn.tail hlo hln hso hsn, distance_take_new hn (by simp) hs, add_assoc]
  case case5 fuel o old n new span takeOld takeNew hi =>
    obtain ⟨hlo', hlos⟩ := List.forall_mem_cons.mp hlo
    obtain ⟨hso', hsos⟩ := List.forall_mem_cons.mp hso
    obtain ⟨hln', hlns⟩ := List.forall_mem_cons.mp hln
    obtain ⟨hsn', hsns⟩ := List.forall_mem_cons.mp hsn
    rcases lt_trichotomy o.scope n.scope with hlt | heq | hgt
    · have hto : takeOld := hlt.le
      have htn : ¬ takeNew := not_le.mpr hlt
      simp only [if_pos hto, if_neg htn] at hi h
      have hr := localRange_sized (.inl rfl) (by simpa using hlo') (by simp) hwo.head words_none
      rw [hr, ok_bind] at h
      simp only [bind_eq_ok, checkedAdd_eq_ok] at h
      obtain ⟨_, ⟨_, rfl⟩, h⟩ := h
      rw [hi _ h ho.tail hn hwo.tail hwn hlos hln hsos hsn, distance_take_old ho (hn.all_gt hlt) hso', add_assoc]
    · have hto : takeOld := heq.le
      have htn : takeNew := heq.ge
      simp only [if_pos hto, if_pos htn] at hi h
      have hr := localRange_sized (.inl rfl) (by simpa using hlo') (by simpa [heq] using hln')
        hwo.head hwn.head
      rw [hr, ok_bind] at h
      simp only [bind_eq_ok, checkedAdd_eq_ok] at h
      obtain ⟨_, ⟨_, rfl⟩, h⟩ := h
      rw [hi _ h ho.tail hn.tail hwo.tail hwn.tail hlos hlns hsos hsns, distance_take_both ho hn heq hso',
        add_assoc]
    · have hto : ¬ takeOld := not_le.mpr hgt
      have htn : takeNew := hgt.le
      simp only [if_neg hto, if_pos htn] at hi h
      have hr := localRange_sized (.inr rfl) (by simp) (by simpa using hln') words_none hwn.head
      rw [hr, ok_bind] at h
      simp only [bind_eq_ok, checkedAdd_eq_ok] at h
      obtain ⟨_, ⟨_, rfl⟩, h⟩ := h
      rw [hi _ h ho hn.tail hwo hwn.tail hlo hlns hso hsns, distance_take_new hn (ho.all_gt hgt) hsn', add_assoc]

end Value

section Distance

variable {scopes : Finset ℕ}

theorem distance_comm : distance scopes old new = distance scopes new old :=
  Finset.sum_congr rfl fun _ _ => spread_sub_comm

theorem distance_triangle : distance scopes old new ≤ distance scopes old mid + distance scopes mid new := by
  rw [distance, distance, distance, ← Finset.sum_add_distrib]
  refine Finset.sum_le_sum fun s _ => ?_
  have hadd : entryDiff old new s = fun k => entryDiff old mid s k + entryDiff mid new s k := by
    funext k
    simp only [entryDiff]
    omega
  rw [hadd]
  exact spread_add_le

-- The tables that say something.
def nonzero (tables : List Factor) : List Factor := tables.filter fun f => f.values.any (· ≠ 0)

theorem entryOf_nonzero : entryOf (nonzero old) s k = entryOf old s k := by
  induction old
  case nil           => rfl
  case cons f old hi =>
    rw [entryOf_cons, nonzero, List.filter_cons]
    split
    case isTrue  => rw [entryOf_cons, ← hi, nonzero]
    case isFalse h =>
      have hz : f.entry k = 0 := by
        have hall : ∀ v ∈ f.values, v = 0 := by simpa using h
        rw [Factor.entry]
        by_cases hk : k < f.values.length
        · rw [List.getD_eq_getElem _ _ hk]
          exact hall _ (List.getElem_mem hk)
        · exact List.getD_eq_default _ _ (not_lt.mp hk)
      rw [hz, ite_self, zero_add, ← hi, nonzero]

-- Every scope has an entry that is zero, in its table or for want of one.
theorem Bias.exists_zero (h : Bias events old) (s : ℕ) : ∃ k < 2 ^ popcount s, entryOf old s k = 0 := by
  have ho := (ordered_of_canonical h.canonical).left
  by_cases hs : ∃ f ∈ old, f.scope = s
  case neg =>
    exact ⟨0, Nat.two_pow_pos _, entryOf_eq_zero fun f hf he => hs ⟨f, hf, he⟩⟩
  case pos =>
    obtain ⟨f, hf, rfl⟩ := hs
    have ⟨k, hk, hv⟩ := List.mem_iff_getElem.mp (ho.lowest f hf)
    refine ⟨k, h.length_eq f hf ▸ hk, ?_⟩
    rw [entryOf_of_mem ho hf, Factor.entry, List.getD_eq_getElem _ _ hk, hv]

theorem Bias.entries_eq (ho : Bias events old) (hn : Bias events new)
    (h : spread (2 ^ popcount s) (entryDiff old new s) = 0) (hk : k < 2 ^ popcount s) :
    entryOf old s k = entryOf new s k := by
  have hconst := spread_eq_zero_iff.mp h
  have ⟨i, hi, hoi⟩ := ho.exists_zero s
  have ⟨j, hj, hnj⟩ := hn.exists_zero s
  have h₁ := hconst k hk i hi
  have h₂ := hconst k hk j hj
  simp only [entryDiff, hoi, hnj] at h₁ h₂
  omega

theorem Bias.mem_nonzero {scopes : Finset ℕ} (ho : Bias events old) (hn : Bias events new)
    (hs : ∀ g ∈ old, g.scope ∈ scopes) (h : distance scopes old new = 0) (hf : f ∈ nonzero old) :
    f ∈ nonzero new := by
  obtain ⟨hmem, hany⟩ := List.mem_filter.mp hf
  have heq {k : ℕ} (hk : k < 2 ^ popcount f.scope) : f.entry k = entryOf new f.scope k := by
    rw [← entryOf_of_mem (ordered_of_canonical ho.canonical).left hmem]
    exact ho.entries_eq hn (Finset.sum_eq_zero_iff.mp h f.scope (hs f hmem)) hk
  have hl := ho.length_eq f hmem
  obtain ⟨v, hv, hne⟩ := List.any_eq_true.mp hany
  obtain ⟨k, hk, hkv⟩ := List.mem_iff_getElem.mp hv
  have hex : ∃ g ∈ new, g.scope = f.scope := by
    by_contra hno
    have hz : entryOf new f.scope k = 0 := entryOf_eq_zero fun g hg he => hno ⟨g, hg, he⟩
    rw [← heq (hl ▸ hk), Factor.entry, List.getD_eq_getElem _ _ hk, hkv] at hz
    simp [hz] at hne
  obtain ⟨g, hg, hgs⟩ := hex
  have hlg := hn.length_eq g hg
  have hvalues : g.values = f.values := by
    refine List.ext_getElem (by rw [hlg, hl, hgs]) fun i h₁ h₂ => ?_
    have hi := heq (hl ▸ h₂)
    rw [← hgs, entryOf_of_mem (ordered_of_canonical hn.canonical).left hg, Factor.entry, Factor.entry,
      List.getD_eq_getElem _ _ h₁, List.getD_eq_getElem _ _ h₂] at hi
    exact hi.symm
  obtain rfl : g = f := by
    cases g
    cases f
    simp_all
  exact List.mem_filter.mpr ⟨hg, hany⟩

theorem Bias.sorted_nonzero (h : Bias events old) :
    (nonzero old).Pairwise fun f g => f.scope < g.scope :=
  (ordered_of_canonical h.canonical).left.sorted.filter _

theorem Bias.distance_eq_zero {scopes : Finset ℕ} (ho : Bias events old) (hn : Bias events new)
    (hso : ∀ g ∈ old, g.scope ∈ scopes) (hsn : ∀ g ∈ new, g.scope ∈ scopes) :
    distance scopes old new = 0 ↔ nonzero old = nonzero new := by
  constructor
  · intro h
    have hperm : (nonzero old).Perm (nonzero new) :=
      (List.perm_ext_iff_of_nodup ho.sorted_nonzero.nodup hn.sorted_nonzero.nodup).mpr fun f =>
        ⟨ho.mem_nonzero hn hso h, hn.mem_nonzero ho hsn (distance_comm ▸ h)⟩
    exact hperm.eq_of_pairwise (fun f g _ _ h h' => absurd h' h.asymm) ho.sorted_nonzero hn.sorted_nonzero
  · intro h
    refine Finset.sum_eq_zero fun s _ => spread_eq_zero_iff.mpr fun i _ j _ => ?_
    simp only [entryDiff, ← @entryOf_nonzero old, ← @entryOf_nonzero new, h, sub_self]

end Distance

section Movement

theorem Bias.shaped (h : Bias events old) (he : events ≤ 32) : Shaped old := fun f hf =>
  ⟨(h.scope_lt f hf).trans_le (Nat.pow_le_pow_right (by decide) he), h.length_eq f hf⟩

theorem Bias.movement_eq {scopes : Finset ℕ} (ho : Bias events old) (hn : Bias events new)
    (hso : ∀ f ∈ old, f.scope ∈ scopes) (hsn : ∀ f ∈ new, f.scope ∈ scopes) :
    movement old new = .ok (distance scopes old new) := by
  rcases movement_outcome ho.canonical hn.canonical ho.words hn.words with ⟨total, h⟩ | ⟨_, o, hmo, n, hmn, hs, hl⟩
  · have hto := h
    rw [movement, ho.canonical, hn.canonical, ok_bind, ok_bind] at hto
    have heq := movementFrom_eq hto (ordered_of_canonical ho.canonical).left
      (ordered_of_canonical hn.canonical).left ho.words hn.words ho.length_eq hn.length_eq hso hsn
    rw [h, heq, zero_add]
  · exact absurd (by rw [ho.length_eq o hmo, hn.length_eq n hmn, hs]) hl

def scopesOf (tables : List Factor) : Finset ℕ := (tables.map (·.scope)).toFinset

theorem mem_scopesOf (hf : f ∈ old) : f.scope ∈ scopesOf old :=
  List.mem_toFinset.mpr (List.mem_map_of_mem hf)

-- The movement from one bias to another bounds the change of any two terminal states, and measures
-- how far the biases are apart.
structure Moves (events : ℕ) (old new : List Factor) (span : ℕ) : Prop where
  returns  : movement old new = .ok span
  bounds   : ∀ x < 2 ^ events, ∀ y < 2 ^ events, change old new x - change old new y ≤ span
  symm     : movement new old = .ok span
  zero     : span = 0 ↔ nonzero old = nonzero new
  triangle : ∀ mid, Bias events mid → ∃ a b, movement old mid = .ok a ∧ movement mid new = .ok b ∧ span ≤ a + b

-- Whatever the tables are, `movement` returns or finds two tables of one scope that differ in size.
theorem movement_distance (he : events ≤ 32) (hwo : Words old) (hwn : Words new)
    (ho : canonical old = .ok ()) (hn : canonical new = .ok ()) :
    Outcome old new (movement old new) ∧
      (Bias events old → Bias events new → ∃ span, Moves events old new span) := by
  refine ⟨movement_outcome ho hn hwo hwn, fun ho hn => ?_⟩
  let scopes := scopesOf old ∪ scopesOf new
  have hso : ∀ f ∈ old, f.scope ∈ scopes := fun f hf => Finset.mem_union_left _ (mem_scopesOf hf)
  have hsn : ∀ f ∈ new, f.scope ∈ scopes := fun f hf => Finset.mem_union_right _ (mem_scopesOf hf)
  have hr := ho.movement_eq hn hso hsn
  refine ⟨distance scopes old new, hr, fun x _ y _ => ?_, ?_, ho.distance_eq_zero hn hso hsn, fun mid hm => ?_⟩
  · exact (movement_within hr (ho.shaped he) (hn.shaped he)).sub_le x y
  · rw [hn.movement_eq ho hsn hso, distance_comm]
  · have hall : ∀ tables, (tables = old ∨ tables = mid ∨ tables = new) →
        ∀ f ∈ tables, f.scope ∈ scopesOf old ∪ scopesOf mid ∪ scopesOf new := by
      rintro tables (rfl | rfl | rfl) f hf
      all_goals simp [mem_scopesOf hf]
    have h₁ := hall old (.inl rfl)
    have h₂ := hall mid (.inr (.inl rfl))
    have h₃ := hall new (.inr (.inr rfl))
    refine ⟨_, _, ho.movement_eq hm h₁ h₂, hm.movement_eq hn h₂ h₃, ?_⟩
    have heq : distance scopes old new = distance (scopesOf old ∪ scopesOf mid ∪ scopesOf new) old new :=
      ok.inj (hr.symm.trans (ho.movement_eq hn h₁ h₃))
    rw [heq]
    exact distance_triangle

def sampleOld : List Factor := [⟨1, [0, 5]⟩]

def sampleNew : List Factor := [⟨1, [5, 0]⟩, ⟨3, [0, 0, 0, 7]⟩]

theorem sampleOld_bias : Bias 2 sampleOld := ⟨rfl, by decide, by decide, by decide +kernel⟩

theorem sampleNew_bias : Bias 2 sampleNew := ⟨rfl, by decide, by decide, by decide +kernel⟩

theorem movement_distance_sample : Outcome sampleOld sampleNew (movement sampleOld sampleNew) ∧
    ∃ span, Moves 2 sampleOld sampleNew span :=
  have h := movement_distance (by decide : 2 ≤ 32) sampleOld_bias.words sampleNew_bias.words rfl rfl
  ⟨h.left, h.right sampleOld_bias sampleNew_bias⟩

-- A table of zeros is canonical, and no movement away from a missing one.
theorem zero_movement : ¬ ∀ events ≤ 32, ∀ old new, Bias events old → Bias events new →
    ∀ span, movement old new = .ok span → (span = 0 ↔ old = new) := by
  intro h
  have hz : Bias 2 [⟨1, [0, 0]⟩] := ⟨rfl, by decide, by decide, by decide +kernel⟩
  have hn : Bias 2 [] := ⟨rfl, by decide, by decide, by decide⟩
  exact absurd ((h 2 (by decide) _ _ hn hz 0 rfl).mp rfl) (by decide)

end Movement

end FundedPricingEngine
