import Flurbo.Contracts.FundedPricingEngine.Reserve

-- The local ranges of a change of the bias add up to a bound on its range over all terminal states.

open Evm Except
open FactoredCost (popcount project)

namespace FundedPricingEngine

-- What a change of the bias adds in a terminal state.
def change (old new : List Factor) (x : ℕ) : ℤ := liability new x - liability old x

-- Tables whose entries cover the local states of their scopes.
def Shaped (tables : List Factor) : Prop :=
  ∀ f ∈ tables, f.scope < 2 ^ 32 ∧ f.values.length = 2 ^ popcount f.scope

-- All values of `f` lie within a range of the given size.
def Within (f : ℕ → ℤ) (size : ℤ) : Prop := ∃ low, ∀ x, low ≤ f x ∧ f x ≤ low + size

theorem Within.zero : Within (fun _ => 0) 0 := ⟨0, by simp⟩

theorem Within.add {f g : ℕ → ℤ} {a b : ℤ} (hf : Within f a) (hg : Within g b) :
    Within (fun x => f x + g x) (a + b) := by
  have ⟨l, hf⟩ := hf
  have ⟨m, hg⟩ := hg
  refine ⟨l + m, fun x => ?_⟩
  have := hf x
  have := hg x
  dsimp only
  omega

theorem Within.mono {f : ℕ → ℤ} {a b : ℤ} (h : Within f a) (hab : a ≤ b) : Within f b :=
  have ⟨low, h⟩ := h
  ⟨low, fun x => ⟨(h x).left, (h x).right.trans (by omega)⟩⟩

theorem Within.sub_le {f : ℕ → ℤ} {a : ℤ} (h : Within f a) (x y : ℕ) : f x - f y ≤ a := by
  have ⟨l, h⟩ := h
  have := h x
  have := h y
  omega

-- The change that one table makes, if it is there.
def part (f : Option Factor) (x : ℕ) : ℤ := (f.map (·.valueAt x : Factor → ℕ)).getD 0

variable {old new : List Factor} {o n : Option Factor} {f : Factor} {span r s : ℕ} {fuel x : ℕ}

theorem foldl_low (deltas : List ℤ) (m : ℤ) :
    deltas.foldl (fun low delta => if delta < low then delta else low) m ≤ m ∧
      ∀ d ∈ deltas, deltas.foldl (fun low delta => if delta < low then delta else low) m ≤ d := by
  induction deltas generalizing m
  case nil               => simp
  case cons d deltas hi =>
    have hv : (if d < m then d else m) = min m d := by split <;> omega
    have ⟨h₁, h₂⟩ := hi (min m d)
    rw [List.foldl_cons, hv]
    exact ⟨by omega, List.forall_mem_cons.mpr ⟨by omega, h₂⟩⟩

theorem foldl_high (deltas : List ℤ) (m : ℤ) :
    m ≤ deltas.foldl (fun high delta => if delta > high then delta else high) m ∧
      ∀ d ∈ deltas, d ≤ deltas.foldl (fun high delta => if delta > high then delta else high) m := by
  induction deltas generalizing m
  case nil               => simp
  case cons d deltas hi =>
    have hv : (if d > m then d else m) = max m d := by split <;> omega
    have ⟨h₁, h₂⟩ := hi (max m d)
    rw [List.foldl_cons, hv]
    exact ⟨by omega, List.forall_mem_cons.mpr ⟨by omega, h₂⟩⟩

theorem entryOrZero_eq_ok {k : ℕ} {v : ℤ} (h : entryOrZero o k = .ok v) :
    v = (o.map fun f => (f.values.getD k 0 : ℤ)).getD 0 := by
  cases o
  case none   => cases h; rfl
  case some f =>
    simp only [entryOrZero, bind_eq_ok, nth_eq_ok_getD, pure_eq_ok, ok.injEq] at h
    obtain ⟨_, ⟨_, rfl⟩, rfl⟩ := h
    rfl

-- The tables that one round of the loop takes are of one scope.
structure Aligned (o n : Option Factor) (s : ℕ) : Prop where
  lt  : s < 2 ^ 32
  any : o.isSome ∨ n.isSome
  old : ∀ f, o = some f → f.scope = s ∧ f.values.length = 2 ^ popcount s
  new : ∀ f, n = some f → f.scope = s ∧ f.values.length = 2 ^ popcount s

theorem Aligned.part_eq {g : Option Factor} {s : ℕ} (hg : ∀ f, g = some f → f.scope = s) (x : ℕ) :
    part g x = (g.map fun f => (f.values.getD (project s x) 0 : ℤ)).getD 0 := by
  cases g
  case none   => rfl
  case some f => simp [part, Factor.valueAt, hg f rfl]

theorem localRange_within (h : localRange o n = .ok r) (ha : Aligned o n s) :
    Within (fun x => part n x - part o x) r := by
  have hcount : (((o <|> n).map fun f => f.values.length).getD 0) = 2 ^ popcount s := by
    cases o
    case some f => simp [(ha.old f rfl).right]
    case none   =>
      cases n
      case none   => simpa using ha.any
      case some f => simp [(ha.new f rfl).right]
  simp only [localRange, hcount, bind_eq_ok, revertIf_eq_ok, pure_eq_ok, ok.injEq] at h
  obtain ⟨_, _, deltas, hd, _, _, rfl⟩ := h
  obtain ⟨hl, hd⟩ := mapM_range_eq_ok.mp hd
  obtain ⟨_, hlow⟩ := foldl_low deltas (2 ^ 255 - 1)
  obtain ⟨_, hhigh⟩ := foldl_high deltas (-2 ^ 255)
  refine ⟨deltas.foldl (fun low delta => if delta < low then delta else low) (2 ^ 255 - 1), fun x => ?_⟩
  have hx : project s x < deltas.length := hl ▸ FactoredCost.project_lt ha.lt x
  have hdelta := hd (project s x) hx
  simp only [bind_eq_ok, ok.injEq] at hdelta
  obtain ⟨a, ha', b, hb', hab⟩ := hdelta
  have hm := List.getElem_mem hx
  have := hlow _ hm
  have := hhigh _ hm
  dsimp only
  rw [Aligned.part_eq (fun f hf => (ha.new f hf).left), Aligned.part_eq (fun f hf => (ha.old f hf).left),
    ← entryOrZero_eq_ok ha', ← entryOrZero_eq_ok hb', hab]
  omega

theorem liability_cons (f : Factor) (tables : List Factor) (x : ℕ) :
    liability (f :: tables) x = f.valueAt x + liability tables x := by
  simp [liability]

-- One round: the tables that it takes, and what is left.
theorem change_within {old' new' : List Factor} {total : ℕ} (hr : localRange o n = .ok r)
    (ha : Aligned o n s) (ho : ∀ x, (liability old x : ℤ) = part o x + liability old' x)
    (hn : ∀ x, (liability new x : ℤ) = part n x + liability new' x)
    (hrest : span + r ≤ total ∧ Within (change old' new') (total - (span + r : ℕ) : ℤ)) :
    span ≤ total ∧ Within (change old new) (total - span : ℤ) := by
  have hw := (localRange_within hr ha).add hrest.right
  have hsum : (fun x => part n x - part o x + change old' new' x) = change old new := by
    funext x
    simp only [change, ho, hn]
    omega
  have hsize : (r : ℤ) + (total - (span + r : ℕ)) = total - span := by omega
  rw [hsum, hsize] at hw
  exact ⟨by omega, hw⟩

theorem Shaped.cons (h : Shaped (f :: old)) :
    (f.scope < 2 ^ 32 ∧ f.values.length = 2 ^ popcount f.scope) ∧ Shaped old :=
  List.forall_mem_cons.mp h

theorem movementFrom_within {total : ℕ} (h : movementFrom fuel old new span = .ok total)
    (ho : Shaped old) (hn : Shaped new) :
    span ≤ total ∧ Within (change old new) (total - span : ℤ) := by
  -- The recursion takes a table of the smaller scope from either list, or one from both.
  fun_induction movementFrom fuel old new span
  case case1 fuel span =>
    cases h
    have hzero : change [] [] = fun _ => 0 := by funext x; simp [change]
    rw [hzero, sub_self]
    exact ⟨le_rfl, Within.zero⟩
  case case2 => cases h
  case case3 fuel o old span hi =>
    simp only [bind_eq_ok, checkedAdd_eq_ok] at h
    obtain ⟨r, hr, _, ⟨_, rfl⟩, h⟩ := h
    obtain ⟨⟨hlt, hl⟩, hos⟩ := ho.cons
    have ha : Aligned (some o) none o.scope := ⟨hlt, .inl rfl, by rintro f ⟨⟩; exact ⟨rfl, hl⟩, by simp⟩
    exact change_within hr ha (fun x => by simp [liability_cons, part]) (fun x => by simp [part])
      (hi _ h hos hn)
  case case4 fuel n new span hi =>
    simp only [bind_eq_ok, checkedAdd_eq_ok] at h
    obtain ⟨r, hr, _, ⟨_, rfl⟩, h⟩ := h
    obtain ⟨⟨hlt, hl⟩, hns⟩ := hn.cons
    have ha : Aligned none (some n) n.scope := ⟨hlt, .inr rfl, by simp, by rintro f ⟨⟩; exact ⟨rfl, hl⟩⟩
    exact change_within hr ha (fun x => by simp [part]) (fun x => by simp [liability_cons, part])
      (hi _ h ho hns)
  case case5 fuel o old n new span takeOld takeNew hi =>
    simp only [bind_eq_ok, checkedAdd_eq_ok] at h
    obtain ⟨r, hr, _, ⟨_, rfl⟩, h⟩ := h
    have hi := hi _ h
    obtain ⟨⟨hlto, hlo⟩, hos⟩ := ho.cons
    obtain ⟨⟨hltn, hln⟩, hns⟩ := hn.cons
    rcases lt_trichotomy o.scope n.scope with hs | hs | hs
    · have hto : takeOld := hs.le
      have htn : ¬ takeNew := not_le.mpr hs
      rw [if_pos hto, if_neg htn] at hr
      rw [if_pos hto, if_neg htn] at hi
      have ha : Aligned (some o) none o.scope :=
        ⟨hlto, .inl rfl, by rintro f ⟨⟩; exact ⟨rfl, hlo⟩, by simp⟩
      exact change_within hr ha (fun x => by simp [liability_cons, part]) (fun x => by simp [part])
        (hi hos hn)
    · have hto : takeOld := hs.le
      have htn : takeNew := hs.ge
      rw [if_pos hto, if_pos htn] at hr
      rw [if_pos hto, if_pos htn] at hi
      have ha : Aligned (some o) (some n) o.scope :=
        ⟨hlto, .inl rfl, by rintro f ⟨⟩; exact ⟨rfl, hlo⟩, by rintro f ⟨⟩; exact ⟨hs.symm, hs ▸ hln⟩⟩
      exact change_within hr ha (fun x => by simp [liability_cons, part])
        (fun x => by simp [liability_cons, part]) (hi hos hns)
    · have hto : ¬ takeOld := not_le.mpr hs
      have htn : takeNew := hs.le
      rw [if_neg hto, if_pos htn] at hr
      rw [if_neg hto, if_pos htn] at hi
      have ha : Aligned none (some n) n.scope :=
        ⟨hltn, .inr rfl, by simp, by rintro f ⟨⟩; exact ⟨rfl, hln⟩⟩
      exact change_within hr ha (fun x => by simp [part]) (fun x => by simp [liability_cons, part])
        (hi ho hns)

-- An update whose movement is bounded changes the bias of any two terminal states almost alike.
theorem movement_within {m : ℕ} (h : movement old new = .ok m) (ho : Shaped old) (hn : Shaped new) :
    Within (change old new) m := by
  simp only [movement, bind_eq_ok] at h
  obtain ⟨_, _, _, _, h⟩ := h
  simpa using (movementFrom_within h ho hn).right

end FundedPricingEngine
