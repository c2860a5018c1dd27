import Flurbo.Contracts.FactoredCost.Simulation
import Flurbo.Contracts.FactoredCost.Validate

open Evm Except Elimination

variable {α β γ : Type}

namespace Factor

-- The entry of a table that a terminal state selects.
def valueAt (f : Factor) (state : ℕ) : ℕ :=
  f.values.getD (FactoredCost.project f.scope state) 0

-- A table as a local function of the events' outcomes.
def localFn (g : ℕ → β) (f : Factor) : Local ℕ β where
  scope := f.scope.bitIndices.toFinset
  eval x := g (f.values.getD (Bits.gather f.scope.bitIndices x) 0)
  reads h := by rw [Bits.gather_congr fun i hi => h i (List.mem_toFinset.mpr hi)]

variable {f : Factor} {events b x : ℕ}

theorem localFn_eval (h : f.scope < 2 ^ 32) (g : ℕ → β) (x : ℕ) :
    (f.localFn g).eval x.testBit = g (f.valueAt x) := by
  simp [localFn, valueAt, FactoredCost.project_eq h]

theorem WellFormed.project_lt (h : f.WellFormed events b) (he : events ≤ 32) (x : ℕ) :
    FactoredCost.project f.scope x < f.values.length :=
  h.length_eq ▸ FactoredCost.project_lt (h.scope_lt_word he) x

theorem WellFormed.getElem?_valueAt (h : f.WellFormed events b) (he : events ≤ 32) (x : ℕ) :
    f.values[FactoredCost.project f.scope x]? = some (f.valueAt x) := by
  have hx := h.project_lt he x
  rw [valueAt, List.getD_eq_getElem _ _ hx, List.getElem?_eq_getElem hx]

end Factor

-- The total owed in a terminal state.
def liability (factors : List Factor) (state : ℕ) : ℕ :=
  (factors.map (·.valueAt state)).sum

theorem liability_perm {factors factors' : List Factor} (h : factors.Perm factors') :
    liability factors = liability factors' :=
  funext fun _ => (h.map _).sum_eq

namespace FactoredCost

variable {events b : ℕ} {factors : List Factor} {order : List ℕ}

theorem Valid.scope_lt (h : Valid events b factors order) : ∀ f ∈ factors, f.scope < 2 ^ 32 :=
  fun f hf => (h.wellFormed f hf).scope_lt_word h.events_le

theorem Valid.order_lt (h : Valid events b factors order) : ∀ v ∈ order, v < 32 := by
  intro v hv
  have := List.mem_range.mp (h.order_perm.mem_iff.mp hv)
  exact this.trans_le h.events_le

variable [AddCommMonoid β]

theorem total_localFn (h : ∀ f ∈ factors, f.scope < 2 ^ 32) (g : ℕ → β) (x : ℕ) :
    total (factors.map (·.localFn g)) x.testBit = (factors.map fun f => g (f.valueAt x)).sum := by
  simp only [total, List.map_map]
  congr 1
  exact List.map_congr_left fun f hf => Factor.localFn_eval (h f hf) g x

variable [AddCommMonoid γ] [PartialOrder γ] {E : Prop} {K : Kernel α} {ρ : Reduction β}

-- A table that holds the factor's entries, each standing for its value under `g`.
structure Loaded (I : Interpretation E K ρ γ) (g : ℕ → β) (grade : Factor → γ) (f : Factor)
    (t : Table α) : Prop where
  active : t.active = true
  scope  : t.scope = f.scope
  values : List.Forall₂ (fun v a => I.Rel (grade f) a (g v)) f.values t.values

theorem Loaded.represents {I : Interpretation E K ρ γ} {g : ℕ → β} {grade : Factor → γ} {f : Factor}
    {t : Table α} (h : Loaded I g grade f t) (hf : f.WellFormed events b) (he : events ≤ 32) :
    I.Represents t ⟨grade f, f.localFn g⟩ where
  active := h.active
  lt     := h.scope ▸ hf.scope_lt_word he
  scope  := by simp [Factor.localFn, h.scope]
  values := by
    intro x
    have hx := hf.project_lt he x
    have ht := h.values.length_eq ▸ hx
    rw [h.scope, Factor.localFn_eval (hf.scope_lt_word he), Factor.valueAt,
      List.getD_eq_getElem _ _ hx]
    exact ⟨_, List.getElem?_eq_getElem ht, h.values.get hx ht⟩

theorem Loaded.forall₂_represents {I : Interpretation E K ρ γ} {g : ℕ → β} {grade : Factor → γ}
    {tables : List (Table α)} (h : List.Forall₂ (Loaded I g grade) factors tables)
    (hf : ∀ f ∈ factors, f.WellFormed events b) (he : events ≤ 32) :
    List.Forall₂ (fun t f => I.Represents t ⟨grade f, f.localFn g⟩) tables factors := by
  induction h
  case nil               => exact .nil
  case cons hl _ hi =>
    have ⟨hf, hfs⟩ := List.forall_mem_cons.mp hf
    exact .cons (hl.represents hf he) (hi hfs)

theorem Loaded.forall₂_active {I : Interpretation E K ρ γ} {g : ℕ → β} {grade : Factor → γ}
    {tables : List (Table α)} (h : List.Forall₂ (Loaded I g grade) factors tables) :
    ∀ t ∈ tables, t.active := by
  induction h
  case nil               => simp
  case cons hl _ hi => exact List.forall_mem_cons.mpr ⟨hl.active, hi⟩

-- The evaluator on tables loaded from a validated graph.
theorem Valid.evaluate_holds [CanonicallyOrderedAdd γ] (h : Valid events b factors order) (I : Interpretation E K ρ γ)
    {g : ℕ → β} {grade : Factor → γ} {tables : List (Table α)}
    (ht : List.Forall₂ (Loaded I g grade) factors tables)
    (hw : I.Within ((factors.map grade).sum + events • I.step)) :
    (evaluate K tables order).Holds E
      (I.Rel ((factors.map grade).sum + events • I.step) ·
        (ρ.marginal order (total (factors.map (·.localFn g))) fun _ => false)) := by
  let ms := factors.map fun f => Meaning.mk (grade f) (f.localFn g)
  have hms : List.Forall₂ I.Represents tables ms := by
    rw [List.forall₂_map_right_iff]
    exact Loaded.forall₂_represents ht h.wellFormed h.events_le
  have hactive : tables.filter (·.active) = tables :=
    List.filter_eq_self.mpr <| Loaded.forall₂_active ht
  have hlen : order.length = events := by simpa using h.order_perm.length_eq
  have hg : Meaning.grades ms = (factors.map grade).sum := by
    simp [Meaning.grades, ms, Function.comp_def]
  have hfns : Meaning.fns ms = factors.map (·.localFn g) := by
    simp [Meaning.fns, ms, Function.comp_def]
  have := Interpretation.evaluate_holds (hactive.symm ▸ hms) h.order_lt (by rwa [hg, hlen])
  rwa [hg, hlen, hfns] at this

end FactoredCost
