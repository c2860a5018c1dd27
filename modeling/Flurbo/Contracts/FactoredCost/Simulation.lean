import Flurbo.Contracts.FactoredCost.Basic
import Flurbo.Library.Elimination

open Evm Except Elimination

namespace FactoredCost

variable {α β γ : Type} [AddCommMonoid β] [AddCommMonoid γ]

-- What the entries of the evaluator's tables stand for. An entry is related to its meaning at a
-- grade, which adds up over tables and grows by `step` with each eliminated event. Operations are
-- only required to work within a budget of grades.
structure Interpretation (E : Prop) (K : Kernel α) (ρ : Reduction β) (γ : Type) [AddCommMonoid γ]
    [LE γ] where
  Rel     : γ → α → β → Prop
  Within  : γ → Prop
  step    : γ
  anti    : ∀ {g h}, g ≤ h → Within h → Within g
  zero    : Rel 0 K.zero 0
  add     : ∀ {g h a b x y}, Rel g a x → Rel h b y → Within (g + h) →
              (K.add a b).Holds E (Rel (g + h) · (x + y))
  reduce  : ∀ {g a b x y}, Rel g a x → Rel g b y → Within (g + step) →
              (K.reduce a b).Holds E (Rel (g + step) · (ρ.join x y))

-- The meaning of a table, with its grade.
structure Meaning (β γ : Type) where
  grade : γ
  fn    : Local ℕ β

namespace Meaning

def grades (ms : List (Meaning β γ)) : γ := (ms.map (·.grade)).sum

def fns (ms : List (Meaning β γ)) : List (Local ℕ β) := ms.map (·.fn)

section

omit [AddCommMonoid β]

variable (v : ℕ) (ms : List (Meaning β γ))

theorem grades_filter :
    grades (ms.filter (v ∈ ·.fn.scope)) + grades (ms.filter (v ∉ ·.fn.scope)) = grades ms := by
  induction ms
  case nil          => simp [grades]
  case cons m ms hi =>
    simp only [grades] at hi ⊢
    by_cases hv : v ∈ m.fn.scope
    case pos => simp [hv, ← hi, add_assoc]
    case neg => simp [hv, ← hi, add_left_comm]

end

-- One elimination on the level of meanings.
def eliminate (ρ : Reduction β) (step : γ) (v : ℕ) (ms : List (Meaning β γ)) :
    List (Meaning β γ) :=
  let bucket := ms.filter (v ∈ ·.fn.scope)
  ms.filter (v ∉ ·.fn.scope) ++ [⟨grades bucket + step, ρ.message v (fns bucket)⟩]

variable (ρ : Reduction β) (step : γ) (v : ℕ) (ms : List (Meaning β γ))

theorem grades_eliminate : grades (eliminate ρ step v ms) = grades ms + step := by
  rw [← grades_filter v ms, eliminate]
  simp [grades, add_assoc, add_left_comm]

theorem fns_eliminate : fns (eliminate ρ step v ms) = ρ.eliminate v (fns ms) := by
  simp [fns, eliminate, Reduction.eliminate, List.filter_map, Function.comp_def]

end Meaning

open Meaning

namespace Interpretation

variable [PartialOrder γ] {E : Prop} {K : Kernel α} {ρ : Reduction β} (I : Interpretation E K ρ γ)

structure Represents (t : Table α) (m : Meaning β γ) : Prop where
  active : t.active = true
  lt     : t.scope < 2 ^ 32
  scope  : ∀ i, i ∈ m.fn.scope ↔ t.scope.testBit i
  values : ∀ x : ℕ, ∃ a, t.values[project t.scope x]? = some a ∧ I.Rel m.grade a (m.fn.eval x.testBit)

variable {I} {ts : List (Table α)} {ms : List (Meaning β γ)} {v : ℕ}

-- The events joined by the tables of a bucket.
theorem testBit_joined (bucket : List (Table α)) (bit i : ℕ) :
    (bucket.foldl (fun joined table => joined ||| table.scope) bit).testBit i =
      (bit.testBit i || bucket.any (·.scope.testBit i)) := by
  induction bucket generalizing bit
  case nil         => simp
  case cons t ts hi => simp [hi, Nat.testBit_or, Bool.or_assoc]

theorem joined_lt (bucket : List (Table α)) (h : ∀ t ∈ bucket, t.scope < 2 ^ 32) {bit : ℕ}
    (hb : bit < 2 ^ 32) :
    bucket.foldl (fun joined table => joined ||| table.scope) bit < 2 ^ 32 := by
  induction bucket generalizing bit
  case nil          => exact hb
  case cons t ts hi =>
    exact hi (fun t ht => h t (by simp [ht])) (Nat.or_lt_two_pow hb (h t (by simp)))

theorem mentions_iff {t : Table α} {m : Meaning β γ} (h : I.Represents t m) :
    t.mentions (2 ^ v) ↔ v ∈ m.fn.scope := by
  simp [Table.mentions, h.active, h.scope, ← Bits.and_two_pow_ne_zero]

theorem forall₂_mentions (h : List.Forall₂ I.Represents ts ms) :
    List.Forall₂ I.Represents (ts.filter (·.mentions (2 ^ v))) (ms.filter (v ∈ ·.fn.scope)) :=
  List.rel_filter (fun _ _ h => by simp [mentions_iff h]) h

theorem forall₂_not_mentions (h : List.Forall₂ I.Represents ts ms) :
    List.Forall₂ I.Represents (ts.filter (!·.mentions (2 ^ v))) (ms.filter (v ∉ ·.fn.scope)) :=
  List.rel_filter (fun _ _ h => by simp [← mentions_iff h]) h

theorem any_testBit_iff (h : List.Forall₂ I.Represents ts ms) (i : ℕ) :
    ts.any (·.scope.testBit i) ↔ i ∈ scopes (fns ms) := by
  induction h
  case nil                => simp [fns, scopes]
  case cons t m _ _ h _ hi => simp_all [fns, scopes, h.scope]

theorem scope_lt (h : List.Forall₂ I.Represents ts ms) : ∀ t ∈ ts, t.scope < 2 ^ 32 := by
  induction h
  case nil              => simp
  case cons h _ hi => exact List.forall_mem_cons.mpr ⟨h.lt, hi⟩

-- The scope of the message that replaces the bucket of an event.
theorem testBit_remaining (h : List.Forall₂ I.Represents ts ms) (hv : v < 32) (i : ℕ) :
    (ts.foldl (fun joined table => joined ||| table.scope) (2 ^ v) &&&
      Bits.complement 32 (2 ^ v)).testBit i ↔ i ∈ (ρ.message v (fns ms)).scope := by
  have hlt := joined_lt ts (scope_lt h) (Nat.pow_lt_pow_right (by decide) hv)
  rw [Bits.testBit_and_complement hlt, testBit_joined, Reduction.message, Finset.mem_erase,
    ← any_testBit_iff h]
  by_cases hi : v = i
  case pos => simp [hi]
  case neg => simp [hi, Ne.symm hi]

section Budget

variable [CanonicallyOrderedAdd γ]

theorem bucketSum_holds (h : List.Forall₂ I.Represents ts ms) (hw : I.Within (grades ms))
    (state : ℕ) :
    (bucketSum K ts state).Holds E (I.Rel (grades ms) · (total (fns ms) state.testBit)) := by
  -- The accumulator stands for the tables added so far.
  suffices hs : ∀ (g : γ) (a : α) (x : β), I.Rel g a x → I.Within (g + grades ms) →
      (ts.foldlM (fun s (t : Table α) => do K.add s (← nth t.values (project t.scope state))) a).Holds E
        (I.Rel (g + grades ms) · (x + total (fns ms) state.testBit)) by
    simpa [bucketSum] using hs 0 K.zero 0 I.zero (by simpa using hw)
  clear hw
  induction h
  case nil => intro g a x hr _; simpa [grades, fns] using hr
  case cons t m ts ms ht _ hi =>
    intro g a x hr hw
    have ⟨b, hb, hbr⟩ := ht.values state
    rw [show grades (m :: ms) = m.grade + grades ms by simp [grades], ← add_assoc] at hw ⊢
    rw [show total (fns (m :: ms)) state.testBit = m.fn.eval state.testBit + total (fns ms) state.testBit
      by simp [fns], ← add_assoc, List.foldlM_cons]
    refine Holds.bind (P := (I.Rel (g + m.grade) · (x + m.fn.eval state.testBit))) ?_
      fun c hc => hi _ c _ hc hw
    rw [nth_eq_ok.mpr hb, ok_bind]
    exact I.add hr hbr <| I.anti le_self_add hw

-- The entries of the message that replaces the bucket of an event.
theorem message_holds (h : List.Forall₂ I.Represents ts ms) (hw : I.Within (grades ms + I.step))
    (hv : v < 32) {remaining : ℕ}
    (hr : remaining = ts.foldl (fun joined table => joined ||| table.scope) (2 ^ v) &&&
      Bits.complement 32 (2 ^ v)) :
    ((List.range (2 ^ popcount remaining)).mapM fun loc => do
        K.reduce (← bucketSum K ts (expand remaining loc))
          (← bucketSum K ts (expand remaining loc ||| 2 ^ v))).Holds E fun values =>
      I.Represents ⟨remaining, true, values⟩ ⟨grades ms + I.step, ρ.message v (fns ms)⟩ := by
  have hlt : remaining < 2 ^ 32 := by
    have := joined_lt ts (scope_lt h) (Nat.pow_lt_pow_right (by decide) hv)
    exact hr ▸ Nat.and_le_left.trans_lt this
  have hscope (i : ℕ) := hr ▸ testBit_remaining (ρ := ρ) h hv i
  have hbucket := I.anti (le_self_add (a := grades ms) (b := I.step)) hw
  have hentry (loc : ℕ) : (do
        K.reduce (← bucketSum K ts (expand remaining loc))
          (← bucketSum K ts (expand remaining loc ||| 2 ^ v))).Holds E fun a =>
      ∀ x, project remaining x = loc →
        I.Rel (grades ms + I.step) a ((ρ.message v (fns ms)).eval x.testBit) := by
    refine Holds.bind (bucketSum_holds h hbucket _) fun a ha => ?_
    refine Holds.bind (bucketSum_holds h hbucket _) fun b hb => ?_
    refine (I.reduce ha hb hw).mono fun c hc x hx => ?_
    -- Within the bucket's scope the expanded state is `x`, with the event set to either branch.
    have hbits (i : ℕ) (hi : i ∈ scopes (fns ms)) :
        (expand remaining loc).testBit i = Function.update x.testBit v false i := by
      rw [← hx, testBit_expand_project hlt]
      by_cases hiv : i = v
      case pos =>
        have : ¬ remaining.testBit v := by simp [hscope, Reduction.message]
        simp [hiv, this]
      case neg =>
        have : remaining.testBit i := (hscope i).mpr (Finset.mem_erase.mpr ⟨hiv, hi⟩)
        simp [hiv, this]
    have h₀ := total_congr hbits
    have h₁ : total (fns ms) (expand remaining loc ||| 2 ^ v).testBit =
        total (fns ms) (Function.update x.testBit v true) := by
      apply total_congr
      intro i hi
      have := hbits i hi
      rw [Nat.testBit_or, this, Nat.testBit_two_pow]
      by_cases hiv : i = v
      case pos => simp [hiv]
      case neg => simp [hiv, Ne.symm hiv]
    rw [h₀, h₁] at hc
    exact hc
  refine (Holds.mapM fun loc _ => hentry loc).mono fun values hvs => ?_
  refine ⟨rfl, hlt, fun i => (hscope i).symm, fun x => ?_⟩
  have hx : project remaining x < (List.range (2 ^ popcount remaining)).length := by
    rw [List.length_range]
    exact project_lt hlt x
  have hget := hvs.get hx (hvs.length_eq ▸ hx)
  exact ⟨_, List.getElem?_eq_getElem _, hget x (by simp)⟩

-- The active tables after an elimination, on lists where only those are listed.
theorem filter_active_consumed (tables : List (Table α)) (bit : ℕ) :
    (tables.map fun t => if t.mentions bit then { t with active := false } else t).filter (·.active) =
      (tables.filter (·.active)).filter (!·.mentions bit) := by
  induction tables
  case nil         => rfl
  case cons t ts hi =>
    cases ha : t.active <;> cases hm : t.mentions bit <;> simp_all [Table.mentions]

theorem filter_mentions (tables : List (Table α)) (bit : ℕ) :
    tables.filter (·.mentions bit) = (tables.filter (·.active)).filter (·.mentions bit) := by
  simp [List.filter_filter, Table.mentions, Bool.and_comm]

theorem eliminate_holds (h : List.Forall₂ I.Represents (ts.filter (·.active)) ms)
    (hw : I.Within (grades ms + I.step)) (hv : v < 32) :
    (FactoredCost.eliminate K ts (1 <<< v)).Holds E fun ts' =>
      List.Forall₂ I.Represents (ts'.filter (·.active)) (Meaning.eliminate ρ I.step v ms) := by
  have hb : grades (ms.filter (v ∈ ·.fn.scope)) + I.step ≤ grades ms + I.step := by
    rw [← grades_filter v ms, add_right_comm]
    exact le_self_add
  have hm := message_holds (forall₂_mentions h) (I.anti hb hw) hv rfl
  simp only [FactoredCost.eliminate, Nat.one_shiftLeft, filter_mentions ts]
  refine Holds.bind hm fun values hm => ?_
  simp only [pure_eq_ok, holds_ok, List.filter_append, filter_active_consumed]
  exact List.rel_append (forall₂_not_mentions h) (by simpa using hm)

theorem foldlM_eliminate_holds {order : List ℕ}
    (h : List.Forall₂ I.Represents (ts.filter (·.active)) ms) (ho : ∀ v ∈ order, v < 32)
    (hw : I.Within (grades ms + order.length • I.step)) :
    (order.foldlM (fun tables v => FactoredCost.eliminate K tables (1 <<< v)) ts).Holds E fun ts' =>
      ∃ ms', List.Forall₂ I.Represents (ts'.filter (·.active)) ms' ∧
        grades ms' = grades ms + order.length • I.step ∧
        total (fns ms') = ρ.marginal order (total (fns ms)) := by
  induction order generalizing ts ms
  case nil             => exact ⟨ms, h, by simp, rfl⟩
  case cons v order hi =>
    have ⟨hv, ho⟩ := List.forall_mem_cons.mp ho
    have hg : grades ms + (v :: order).length • I.step =
        grades (Meaning.eliminate ρ I.step v ms) + order.length • I.step := by
      rw [grades_eliminate, List.length_cons, succ_nsmul', add_assoc]
    have hs : grades ms + I.step ≤ grades ms + (v :: order).length • I.step := by
      rw [List.length_cons, succ_nsmul', ← add_assoc]
      exact le_self_add
    rw [List.foldlM_cons]
    refine Holds.bind (eliminate_holds h (I.anti hs hw) hv) fun ts' h' => ?_
    refine (hi h' ho (hg ▸ hw)).mono fun _ ⟨ms', h₁, h₂, h₃⟩ => ⟨ms', h₁, hg ▸ h₂, ?_⟩
    rw [h₃, fns_eliminate, Reduction.total_eliminate, Reduction.marginal]

-- The evaluator computes the marginal of the combined tables over all eliminated events.
theorem evaluate_holds {order : List ℕ} (h : List.Forall₂ I.Represents (ts.filter (·.active)) ms)
    (ho : ∀ v ∈ order, v < 32) (hw : I.Within (grades ms + order.length • I.step)) :
    (evaluate K ts order).Holds E
      (I.Rel (grades ms + order.length • I.step) ·
        (ρ.marginal order (total (fns ms)) fun _ => false)) := by
  unfold evaluate
  refine Holds.bind (foldlM_eliminate_holds h ho hw) fun ts' ⟨ms', h₁, h₂, h₃⟩ => ?_
  have hsum := bucketSum_holds h₁ (h₂ ▸ hw) 0
  have hz : Nat.testBit 0 = fun _ => false := by funext i; simp
  rw [h₂, h₃, hz] at hsum
  -- The last sum reads entry 0 of every table, the one of the state 0.
  have hread : bucketSum K (ts'.filter (·.active)) 0 =
      (ts'.filter (·.active)).foldlM (fun s (t : Table α) => do K.add s (← nth t.values 0)) K.zero :=
    foldlM_congr (fun _ t ht => by rw [project_state_zero (scope_lt h₁ t ht)]) _
  exact hread ▸ hsum

end Budget

end Interpretation

end FactoredCost
