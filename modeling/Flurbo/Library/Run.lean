import Flurbo.Library.Fallible

-- Runs of a system whose actions either succeed or leave the state as it was.

namespace Run

variable {σ α ε : Type*} (step : σ → α → Except ε σ)

def attempt (s : σ) (a : α) : σ :=
  match step s a with
  | .ok s'   => s'
  | .error _ => s

def run (s : σ) (as : List α) : σ :=
  as.foldl (attempt step) s

variable {step} {s s' : σ} {a : α} {as : List α} {I : σ → Prop}

@[simp]
theorem run_nil : run step s [] = s := rfl

@[simp]
theorem run_cons : run step s (a :: as) = run step (attempt step s a) as := rfl

@[simp]
theorem run_append {as bs : List α} : run step s (as ++ bs) = run step (run step s as) bs := by
  simp [run]

theorem attempt_ok (h : step s a = .ok s') : attempt step s a = s' := by
  simp [attempt, h]

theorem attempt_cases (hi : I s) (hs : ∀ s', step s a = .ok s' → I s') : I (attempt step s a) := by
  unfold attempt
  split
  case h_1 s' h => exact hs s' h
  case h_2      => exact hi

-- What every successful action preserves holds throughout a run.
theorem run_invariant (h₀ : I s) (hs : ∀ s s' a, a ∈ as → I s → step s a = .ok s' → I s') :
    I (run step s as) := by
  induction as generalizing s
  case nil          => exact h₀
  case cons a as hi =>
    apply hi
    · exact attempt_cases h₀ fun s' => hs s s' a (by simp) h₀
    · exact fun s s' b hb => hs s s' b (by simp [hb])

-- Systems whose steps agree wherever the invariant holds have the same runs.
theorem run_congr {step' : σ → α → Except ε σ} (h₀ : I s)
    (hs : ∀ s s' a, a ∈ as → I s → step s a = .ok s' → I s')
    (he : ∀ s a, a ∈ as → I s → step s a = step' s a) : run step s as = run step' s as := by
  induction as generalizing s
  case nil          => rfl
  case cons a as hi =>
    have ha : attempt step s a = attempt step' s a := by
      rw [attempt, attempt, he s a List.mem_cons_self h₀]
    rw [run_cons, run_cons, ← ha]
    apply hi
    · exact attempt_cases h₀ fun s' => hs s s' a List.mem_cons_self h₀
    · exact fun s s' b hb => hs s s' b (List.mem_cons_of_mem a hb)
    · exact fun s b hb => he s b (List.mem_cons_of_mem a hb)

-- What holds of every action of a run, in the state that it is taken in.
def Along (step : σ → α → Except ε σ) (P : σ → α → Prop) (s : σ) : List α → Prop
  | []      => True
  | a :: as => P s a ∧ Along step P (attempt step s a) as

instance decidableAlong {P : σ → α → Prop} [∀ s a, Decidable (P s a)] :
    ∀ (s : σ) (as : List α), Decidable (Along step P s as)
  | _, []      => inferInstanceAs (Decidable True)
  | s, a :: as =>
    have : Decidable (Along step P (attempt step s a) as) := decidableAlong (attempt step s a) as
    inferInstanceAs (Decidable (P s a ∧ Along step P (attempt step s a) as))

-- What is preserved by every successful action that meets a condition holds throughout the runs
-- whose actions all meet it.
theorem run_invariant_along {P : σ → α → Prop} (hp : Along step P s as) (h₀ : I s)
    (hs : ∀ s s' a, P s a → I s → step s a = .ok s' → I s') : I (run step s as) := by
  induction as generalizing s
  case nil          => exact h₀
  case cons a as hi => exact hi hp.right <| attempt_cases h₀ fun s' => hs s s' a hp.left h₀

theorem Along.of_forall {P : σ → α → Prop} (h : ∀ a ∈ as, ∀ s, P s a) : Along step P s as := by
  induction as generalizing s
  case nil          => trivial
  case cons a as hi =>
    exact ⟨h a List.mem_cons_self s, hi fun b hb => h b (List.mem_cons_of_mem a hb)⟩

theorem Along.append {P : σ → α → Prop} {bs : List α} :
    Along step P s (as ++ bs) ↔ Along step P s as ∧ Along step P (run step s as) bs := by
  induction as generalizing s
  case nil          => simp [Along]
  case cons a as hi => simp [Along, hi, and_assoc]

-- Every action of a run is taken after those before it.
theorem Along.iff_append {P : σ → α → Prop} :
    Along step P s as ↔ ∀ bs a cs, as = bs ++ a :: cs → P (run step s bs) a := by
  constructor
  · rintro h bs a cs rfl
    exact (append.mp h).right.left
  · intro h
    induction as generalizing s
    case nil          => trivial
    case cons a as hi =>
      exact ⟨h [] a as rfl, hi fun bs b cs he => h (a :: bs) b cs (by rw [he, List.cons_append])⟩

-- The successful actions of a run with the states around them, in order.
def history (step : σ → α → Except ε σ) (s : σ) : List α → List (σ × α × σ)
  | []      => []
  | a :: as =>
    match step s a with
    | .ok s'   => (s, a, s') :: history step s' as
    | .error _ => history step s as

-- The successful actions are those of the run, each taken in a state that satisfies the invariant.
theorem mem_history {e : σ × α × σ} (h : e ∈ history step s as) (h₀ : I s)
    (hs : ∀ s s' a, a ∈ as → I s → step s a = .ok s' → I s') :
    I e.1 ∧ e.2.1 ∈ as ∧ step e.1 e.2.1 = .ok e.2.2 := by
  induction as generalizing s
  case nil          => cases h
  case cons a as hi =>
    have hs' := fun s s' b hb => hs s s' b (List.mem_cons_of_mem a hb)
    rw [history] at h
    split at h
    case h_1 s' ha =>
      rcases List.mem_cons.mp h with rfl | h
      · exact ⟨h₀, by simp, ha⟩
      · have ⟨h₁, h₂, h₃⟩ := hi h (hs s s' a (by simp) h₀ ha) hs'
        exact ⟨h₁, by simp [h₂], h₃⟩
    case h_2       =>
      have ⟨h₁, h₂, h₃⟩ := hi h h₀ hs'
      exact ⟨h₁, by simp [h₂], h₃⟩

-- What holds at first and after every successful action, of the state and of the actions so far,
-- holds of the state that a run ends in and of its history.
theorem history_invariant {J : σ → List (σ × α × σ) → Prop} (h₀ : J s [])
    (hs : ∀ s es s' a, a ∈ as → J s es → step s a = .ok s' → J s' (es ++ [(s, a, s')])) :
    J (run step s as) (history step s as) := by
  suffices h : ∀ es, J s es → J (run step s as) (es ++ history step s as) from h [] h₀
  clear h₀
  induction as generalizing s
  case nil          => exact fun es h => by rwa [history, List.append_nil]
  case cons a as hi =>
    intro es h
    have hi := hi (s := attempt step s a) fun s es s' b hb => hs s es s' b (List.mem_cons_of_mem a hb)
    rw [run_cons, history]
    cases ha : step s a
    case error e =>
      have he : attempt step s a = s := by rw [attempt, ha]
      rw [he] at hi ⊢
      exact hi es h
    case ok s' =>
      rw [attempt_ok ha] at hi ⊢
      have := hi _ (hs s es s' a List.mem_cons_self h ha)
      rwa [List.append_assoc] at this

end Run
