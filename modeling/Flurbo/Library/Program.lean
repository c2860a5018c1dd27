import Flurbo.Library.Run
import Mathlib.Logic.Function.Basic

-- Programs that issue commands to a shared store and continue with the replies, any number of them
-- at once. A command fails, or takes effect, or takes effect although its caller sees a failure.

inductive Program {κ : Type} (Reply : κ → Type) (ε α : Type) : Type
  | done (a : α)
  | fail (e : ε)
  | ask (c : κ) (next : Except ε (Reply c) → Program Reply ε α)

namespace Program

variable {σ κ ε ρ δ α β : Type} {Reply : κ → Type}

protected def bind : Program Reply ε α → (α → Program Reply ε β) → Program Reply ε β
  | done a, f     => f a
  | fail e, _     => fail e
  | ask c next, f => ask c fun r => (next r).bind f

instance instMonad : Monad (Program Reply ε) where
  pure := done
  bind := Program.bind

def call (c : κ) : Program Reply ε (Reply c) :=
  ask c fun
    | .ok r    => done r
    | .error e => fail e

-- What follows a program whether it throws or not.
def ensure (p : Program Reply ε α) (q : Program Reply ε Unit) : Program Reply ε α :=
  match p with
  | done a     => q.bind fun _ => done a
  | fail e     => q.bind fun _ => fail e
  | ask c next => ask c fun r => (next r).ensure q

-- What follows a program that throws.
def recover (p : Program Reply ε α) (q : ε → Program Reply ε α) : Program Reply ε α :=
  match p with
  | done a     => done a
  | fail e     => q e
  | ask c next => ask c fun r => (next r).recover q

inductive Fate
  | done | failed | lost
  deriving DecidableEq, Repr

-- How the store answers commands, what a broken connection throws, what a request runs, and how the
-- store changes by itself. What the store does not know is answered by the environment.
structure Service (σ : Type) {κ : Type} (Reply : κ → Type) (ε ρ δ : Type) where
  perform : σ → (c : κ) → Reply c → σ × Reply c
  broken  : ε
  code    : ℕ → ρ → Program Reply ε Unit
  drift   : σ → δ → σ

structure World (σ : Type) {κ : Type} (Reply : κ → Type) (ε : Type) where
  store    : σ
  requests : ℕ → Option (Program Reply ε Unit)

inductive Event {κ : Type} (Reply : κ → Type) (ρ δ : Type)
  | start (n : ℕ) (q : ρ)
  | proceed (n : ℕ) (fate : Fate) (answers : (c : κ) → Reply c)
  | crash (n : ℕ)
  | drift (d : δ)

def World.initial (s : σ) : World σ Reply ε := ⟨s, fun _ => none⟩

section Step

variable (v : Service σ Reply ε ρ δ)

def Service.resume (n : ℕ) (fate : Fate) (answers : (c : κ) → Reply c) (w : World σ Reply ε) :
    Program Reply ε Unit → Except Unit (World σ Reply ε)
  | ask c next =>
    let result := v.perform w.store c (answers c)
    let reply  := if fate = .done then .ok result.2 else .error v.broken
    .ok {
      store    := if fate = .failed then w.store else result.1
      requests := Function.update w.requests n (some (next reply)) }
  | _          => .error ()

def Service.step (w : World σ Reply ε) : Event Reply ρ δ → Except Unit (World σ Reply ε)
  | .start n q              =>
    if (w.requests n).isSome then .error ()
    else .ok { w with requests := Function.update w.requests n (some (v.code n q)) }
  | .proceed n fate answers =>
    match w.requests n with
    | some p => v.resume n fate answers w p
    | none   => .error ()
  | .crash n                => .ok { w with requests := Function.update w.requests n none }
  | .drift d                => .ok { w with store := v.drift w.store d }

end Step

-- The invariant of the store, and what a request relies on the others for. Commands may be
-- restricted to those that are `permitted` where they are performed.
structure Discipline (σ κ : Type) where
  invariant : σ → Prop
  rely      : ℕ → σ → σ → Prop
  permitted : σ → κ → Prop
  refl      : ∀ n s, rely n s s
  trans     : ∀ n s₁ s₂ s₃, rely n s₁ s₂ → rely n s₂ s₃ → rely n s₁ s₃

section Safe

variable (v : Service σ Reply ε ρ δ) (d : Discipline σ κ) (n : ℕ)

-- What one change of the store by request `n` owes to the others.
def Discipline.Keeps (s s' : σ) : Prop :=
  d.invariant s' ∧ ∀ m, m ≠ n → d.rely m s s'

-- Whatever the other requests do within what is relied on, every command of the program keeps the
-- invariant and respects what they rely on.
def Safe : Program Reply ε α → (Except ε α → σ → Prop) → σ → Prop
  | done a, post, s     => ∀ s', d.rely n s s' → d.invariant s' → post (.ok a) s'
  | fail e, post, s     => ∀ s', d.rely n s s' → d.invariant s' → post (.error e) s'
  | ask c next, post, s =>
    ∀ s', d.rely n s s' → d.invariant s' →
      Safe (next (.error v.broken)) post s' ∧
      (d.permitted s' c → ∀ r,
        d.Keeps n s' (v.perform s' c r).1 ∧
        Safe (next (.ok (v.perform s' c r).2)) post (v.perform s' c r).1 ∧
        Safe (next (.error v.broken)) post (v.perform s' c r).1)

variable {v d n} {s s' : σ} {p : Program Reply ε α} {post post' : Except ε α → σ → Prop}

theorem Safe.stable (h : Safe v d n p post s) (hr : d.rely n s s') : Safe v d n p post s' := by
  cases p
  case done => exact fun s'' hr' => h s'' (d.trans n s s' s'' hr hr')
  case fail => exact fun s'' hr' => h s'' (d.trans n s s' s'' hr hr')
  case ask  => exact fun s'' hr' => h s'' (d.trans n s s' s'' hr hr')

theorem Safe.of_forall (h : ∀ s', d.rely n s s' → d.invariant s' → Safe v d n p post s') :
    Safe v d n p post s := by
  cases p
  case done => exact fun s' hr hi => h s' hr hi s' (d.refl n s') hi
  case fail => exact fun s' hr hi => h s' hr hi s' (d.refl n s') hi
  case ask  => exact fun s' hr hi => h s' hr hi s' (d.refl n s') hi

theorem Safe.mono (h : Safe v d n p post s)
    (hp : ∀ r s, (∀ s', d.rely n s s' → d.invariant s' → post r s') →
      ∀ s', d.rely n s s' → d.invariant s' → post' r s') : Safe v d n p post' s := by
  induction p generalizing s
  case done        => exact hp _ _ h
  case fail        => exact hp _ _ h
  case ask next ih =>
    intro s' hr hi
    have ⟨hf, ha⟩ := h s' hr hi
    refine ⟨ih _ hf, fun hc r => ?_⟩
    have ⟨hk, hn, hl⟩ := ha hc r
    exact ⟨hk, ih _ hn, ih _ hl⟩

theorem Safe.weaken (h : Safe v d n p post s) (hp : ∀ r s, d.invariant s → post r s → post' r s) :
    Safe v d n p post' s :=
  h.mono fun r _ hc s' hr hi => hp r s' hi (hc s' hr hi)

-- What no step of anyone takes back still holds at the end.
theorem Safe.of_grows {G : σ → σ → Prop} (htrans : ∀ s₁ s₂ s₃, G s₁ s₂ → G s₂ s₃ → G s₁ s₃)
    (hr : ∀ s s', d.rely n s s' → G s s') (hp : ∀ s c r, G s (v.perform s c r).1) {s₀ : σ} (h₀ : G s₀ s)
    (h : Safe v d n p post s) : Safe v d n p (fun r s' => post r s' ∧ G s₀ s') s := by
  induction p generalizing s
  case done        => exact fun s' hs hi => ⟨h s' hs hi, htrans _ _ _ h₀ (hr _ _ hs)⟩
  case fail        => exact fun s' hs hi => ⟨h s' hs hi, htrans _ _ _ h₀ (hr _ _ hs)⟩
  case ask next ih =>
    intro s' hs hi
    have h₁ := htrans _ _ _ h₀ (hr _ _ hs)
    have ⟨hf, ha⟩ := h s' hs hi
    refine ⟨ih _ h₁ hf, fun hc r => ?_⟩
    have h₂ := htrans _ _ _ h₁ (hp s' _ r)
    have ⟨hk, hn, hl⟩ := ha hc r
    exact ⟨hk, ih _ h₂ hn, ih _ h₂ hl⟩

theorem Safe.of_pure {a : α} (h : ∀ s', d.rely n s s' → d.invariant s' → post (.ok a) s') :
    Safe v d n (pure a) post s := h

theorem Safe.of_fail {e : ε} (h : ∀ s', d.rely n s s' → d.invariant s' → post (.error e) s') :
    Safe v d n (fail e) post s := h

theorem Safe.of_bind {f : α → Program Reply ε β} {post : Except ε β → σ → Prop}
    (h : Safe v d n p (fun
      | .ok a    => Safe v d n (f a) post
      | .error e => post (.error e)) s) : Safe v d n (p >>= f) post s := by
  induction p generalizing s
  case done        => exact of_forall h
  case fail        => exact h
  case ask next ih =>
    intro s' hr hi
    have ⟨hf, ha⟩ := h s' hr hi
    refine ⟨ih _ hf, fun hc r => ?_⟩
    have ⟨hk, hn, hl⟩ := ha hc r
    exact ⟨hk, ih _ hn, ih _ hl⟩

-- A command, with what is known where it is performed.
theorem Safe.of_call {c : κ} {post : Except ε (Reply c) → σ → Prop}
    (hf : ∀ s', d.rely n s s' → d.invariant s' → post (.error v.broken) s')
    (h : ∀ s', d.rely n s s' → d.invariant s' → d.permitted s' c → ∀ r,
      d.Keeps n s' (v.perform s' c r).1 ∧
      ∀ s'', d.rely n (v.perform s' c r).1 s'' → d.invariant s'' →
        post (.ok (v.perform s' c r).2) s'' ∧ post (.error v.broken) s'') :
    Safe v d n (call c) post s := by
  intro s' hr hi
  refine ⟨fun s'' hr' => hf s'' (d.trans n s s' s'' hr hr'), fun hc r => ?_⟩
  have ⟨hk, hp⟩ := h s' hr hi hc r
  exact ⟨hk, fun s'' hr' hi' => (hp s'' hr' hi').left, fun s'' hr' hi' => (hp s'' hr' hi').right⟩

-- A clean-up that throws replaces the result.
theorem Safe.of_ensure {q : Program Reply ε Unit}
    (h : Safe v d n p (fun r => Safe v d n q fun
      | .ok _    => post r
      | .error e => post (.error e)) s) : Safe v d n (p.ensure q) post s := by
  induction p generalizing s
  case done a      =>
    refine of_forall fun s' hr hi => of_bind <| (h s' hr hi).mono fun r s hc s' hr hi => ?_
    cases r
    case error => exact hc s' hr hi
    case ok    => exact of_pure fun s'' hr' => hc s'' (d.trans n s s' s'' hr hr')
  case fail        =>
    refine of_forall fun s' hr hi => of_bind <| (h s' hr hi).mono fun r s hc s' hr hi => ?_
    cases r
    case error => exact hc s' hr hi
    case ok    => exact of_fail fun s'' hr' => hc s'' (d.trans n s s' s'' hr hr')
  case ask next ih =>
    intro s' hr hi
    have ⟨hf, ha⟩ := h s' hr hi
    refine ⟨ih _ hf, fun hc r => ?_⟩
    have ⟨hk, hn, hl⟩ := ha hc r
    exact ⟨hk, ih _ hn, ih _ hl⟩

theorem Safe.of_recover {q : ε → Program Reply ε α}
    (h : Safe v d n p (fun
      | .ok a    => post (.ok a)
      | .error e => Safe v d n (q e) post) s) : Safe v d n (p.recover q) post s := by
  induction p generalizing s
  case done        => exact h
  case fail        => exact of_forall h
  case ask next ih =>
    intro s' hr hi
    have ⟨hf, ha⟩ := h s' hr hi
    refine ⟨ih _ hf, fun hc r => ?_⟩
    have ⟨hk, hn, hl⟩ := ha hc r
    exact ⟨hk, ih _ hn, ih _ hl⟩

-- What a program returns. Failures are free.
def Returns (q : α → σ → Prop) : Except ε α → σ → Prop
  | .ok a, s    => q a s
  | .error _, _ => True

-- An order that the store grows in, whoever changes it.
structure Service.Grows (v : Service σ Reply ε ρ δ) (d : Discipline σ κ) (G : σ → σ → Prop) : Prop where
  refl    : ∀ s, G s s
  trans   : ∀ s₁ s₂ s₃, G s₁ s₂ → G s₂ s₃ → G s₁ s₃
  rely    : ∀ n s s', d.rely n s s' → G s s'
  perform : ∀ s c r, G s (v.perform s c r).1

variable {G : σ → σ → Prop} {q q' : α → σ → Prop}

theorem Safe.returns_bind (hG : v.Grows d G) {f : α → Program Reply ε β} {q' : β → σ → Prop}
    (h : Safe v d n p (Returns q) s)
    (hf : ∀ a s', G s s' → d.invariant s' → q a s' → Safe v d n (f a) (Returns q') s') :
    Safe v d n (p >>= f) (Returns q') s := by
  have hg := h.of_grows hG.trans (hG.rely n) hG.perform (hG.refl s)
  refine of_bind <| hg.weaken fun r s' hi hr => ?_
  cases r
  case error => exact trivial
  case ok a  => exact hf a s' hr.right hi hr.left

theorem Safe.returns_pure {a : α} (h : ∀ s', d.rely n s s' → q a s') :
    Safe v d n (pure a) (Returns q) s :=
  of_pure fun s' hr _ => h s' hr

theorem Safe.returns_fail {e : ε} : Safe v d n (fail e : Program Reply ε α) (Returns q) s :=
  of_fail fun _ _ _ => trivial

-- One command, with what is still known of its reply when the others have moved on.
theorem Safe.returns_call {c : κ} {q : Reply c → σ → Prop}
    (hk : ∀ s' r, d.rely n s s' → d.invariant s' → d.permitted s' c → d.Keeps n s' (v.perform s' c r).1)
    (hq : ∀ s' r, d.rely n s s' → d.invariant s' → d.permitted s' c →
      q (v.perform s' c r).2 (v.perform s' c r).1)
    (hs : ∀ r s₁ s₂, d.rely n s₁ s₂ → q r s₁ → q r s₂) : Safe v d n (call c) (Returns q) s := by
  refine of_call (fun _ _ _ => trivial) fun s' hr hi hc r => ?_
  exact ⟨hk s' r hr hi hc, fun s'' hr' _ => ⟨hs _ _ _ hr' (hq s' r hr hi hc), trivial⟩⟩

-- A program whose failure is taken for a value.
theorem Safe.returns_recover (hG : v.Grows d G) {a : α} (h : Safe v d n p (Returns q) s)
    (ha : ∀ s', G s s' → q a s') (hs : ∀ a s₁ s₂, d.rely n s₁ s₂ → q a s₁ → q a s₂) :
    Safe v d n (p.recover fun _ => pure a) (Returns q) s := by
  have hg := h.of_grows hG.trans (hG.rely n) hG.perform (hG.refl s)
  refine of_recover <| hg.weaken fun r s' _ hr => ?_
  cases r
  case error => exact returns_pure fun s'' hr' => hs a s' s'' hr' (ha s' hr.right)
  case ok a  => exact hr.left

end Safe

-- Every store that a run reaches satisfies the invariant, if every request is safe from the start and
-- the store's own changes are among those that the requests put up with.
section World

variable (v : Service σ Reply ε ρ δ) (d : Discipline σ κ)

structure Service.Obeys : Prop where
  code  : ∀ n q s, d.invariant s → Safe v d n (v.code n q) (fun _ _ => True) s
  drift : ∀ s e, d.invariant s → d.invariant (v.drift s e) ∧ ∀ n, d.rely n s (v.drift s e)

-- The next command of a request is permitted, unless it fails.
def Discipline.Allows (s : σ) (fate : Fate) : Option (Program Reply ε Unit) → Prop
  | some (ask c _) => fate = .failed ∨ d.permitted s c
  | _              => True

def Discipline.Permits (w : World σ Reply ε) : Event Reply ρ δ → Prop
  | .proceed n fate _ => d.Allows w.store fate (w.requests n)
  | _                 => True

instance decidableAllows [∀ s c, Decidable (d.permitted s c)] (s : σ) (fate : Fate) :
    ∀ p : Option (Program Reply ε Unit), Decidable (d.Allows s fate p)
  | some (ask c _)  => inferInstanceAs (Decidable (fate = .failed ∨ d.permitted s c))
  | some (done _)   => .isTrue trivial
  | some (fail _)   => .isTrue trivial
  | none            => .isTrue trivial

instance decidablePermits [∀ s c, Decidable (d.permitted s c)] (w : World σ Reply ε) :
    ∀ e : Event Reply ρ δ, Decidable (d.Permits w e)
  | .proceed n fate _ => inferInstanceAs (Decidable (d.Allows w.store fate (w.requests n)))
  | .start ..         => .isTrue trivial
  | .crash _          => .isTrue trivial
  | .drift _          => .isTrue trivial

structure World.Sound (w : World σ Reply ε) : Prop where
  invariant : d.invariant w.store
  safe      : ∀ n p, w.requests n = some p → Safe v d n p (fun _ _ => True) w.store

variable {v d} {w w' : World σ Reply ε} {e : Event Reply ρ δ} {es : List (Event Reply ρ δ)}
variable {s : σ} {n : ℕ}

theorem World.Sound.initial (h : d.invariant s) : World.Sound v d (.initial s) :=
  ⟨h, nofun⟩

-- A request that moved on, and the store that it left.
theorem World.Sound.update {p : Option (Program Reply ε Unit)} (hi : d.invariant s)
    (hn : ∀ q, p = some q → Safe v d n q (fun _ _ => True) s)
    (hm : ∀ m q, m ≠ n → w.requests m = some q → Safe v d m q (fun _ _ => True) s) :
    World.Sound v d ⟨s, Function.update w.requests n p⟩ := by
  refine ⟨hi, fun m q h => ?_⟩
  replace h : Function.update w.requests n p m = some q := h
  by_cases hmn : m = n
  · subst hmn
    rw [Function.update_self] at h
    exact hn q h
  · rw [Function.update_of_ne hmn] at h
    exact hm m q hmn h

theorem World.Sound.resume {fate : Fate} {answers : (c : κ) → Reply c}
    {p : Program Reply ε Unit} (hw : World.Sound v d w) (hn : w.requests n = some p)
    (hp : d.Permits w (Event.proceed (ρ := ρ) (δ := δ) n fate answers))
    (h : v.resume n fate answers w p = .ok w') : World.Sound v d w' := by
  cases p
  case done => cases h
  case fail => cases h
  case ask c next =>
    cases h
    have ⟨hf, ha⟩ := hw.safe n _ hn w.store (d.refl n w.store) hw.invariant
    rw [Discipline.Permits, hn] at hp
    by_cases hfate : fate = .failed
    case pos =>
      subst hfate
      exact .update hw.invariant (by simpa using hf) fun m q _ hq => hw.safe m q hq
    case neg =>
      have ⟨⟨hi, hk⟩, hd, hl⟩ := ha (hp.resolve_left hfate) (answers c)
      simp only [if_neg hfate]
      refine .update hi ?_ fun m q hmn hq => (hw.safe m q hq).stable (hk m hmn)
      rintro q hq
      cases hq
      split
      · exact hd
      · exact hl

theorem World.Sound.step (hv : v.Obeys d) (hw : World.Sound v d w) (hp : d.Permits w e)
    (h : v.step w e = .ok w') : World.Sound v d w' := by
  cases e
  case start n q              =>
    rw [Service.step] at h
    split at h
    case isTrue  => cases h
    case isFalse =>
      cases h
      refine .update hw.invariant ?_ fun m q _ hq => hw.safe m q hq
      rintro p hp
      cases hp
      exact hv.code n q w.store hw.invariant
  case proceed n fate answers =>
    rw [Service.step] at h
    split at h
    case h_1 p hn => exact hw.resume hn hp h
    case h_2      => cases h
  case crash n                =>
    cases h
    exact .update hw.invariant nofun fun m q _ hq => hw.safe m q hq
  case drift e                =>
    cases h
    have ⟨hi, hk⟩ := hv.drift w.store e hw.invariant
    exact ⟨hi, fun m p hm => (hw.safe m p hm).stable (hk m)⟩

-- Every step is one that all other requests put up with.
theorem World.Sound.step_rely (hv : v.Obeys d) (hw : World.Sound v d w) (hp : d.Permits w e)
    (h : v.step w e = .ok w') : ∃ n, d.rely n w.store w'.store := by
  cases e
  case start n q              =>
    rw [Service.step] at h
    split at h <;> cases h
    exact ⟨0, d.refl 0 w.store⟩
  case proceed n fate answers =>
    rw [Service.step] at h
    split at h
    case h_2      => cases h
    case h_1 p hn =>
      cases p
      case done => cases h
      case fail => cases h
      case ask c next =>
        cases h
        rw [Discipline.Permits, hn] at hp
        refine ⟨n + 1, ?_⟩
        by_cases hfate : fate = .failed
        · simp only [if_pos hfate]
          exact d.refl _ _
        · simp only [if_neg hfate]
          have ⟨_, ha⟩ := hw.safe n _ hn w.store (d.refl n w.store) hw.invariant
          exact (ha (hp.resolve_left hfate) (answers c)).left.right (n + 1) (Nat.succ_ne_self n)
  case crash                  => cases h; exact ⟨0, d.refl 0 w.store⟩
  case drift e                => cases h; exact ⟨0, (hv.drift w.store e hw.invariant).right 0⟩

theorem World.Sound.run_rely {R : σ → σ → Prop} (hR : ∀ n s s', d.rely n s s' → R s s')
    (hrefl : ∀ s, R s s) (htrans : ∀ s₁ s₂ s₃, R s₁ s₂ → R s₂ s₃ → R s₁ s₃) (hv : v.Obeys d)
    (hw : World.Sound v d w) (hp : Run.Along v.step d.Permits w es) :
    R w.store (Run.run v.step w es).store := by
  refine (Run.run_invariant_along (I := fun w' => World.Sound v d w' ∧ R w.store w'.store) hp
    ⟨hw, hrefl _⟩ fun w₁ w₂ e hp ⟨hw₁, hr⟩ h => ⟨hw₁.step hv hp h, ?_⟩).right
  have ⟨n, hn⟩ := hw₁.step_rely hv hp h
  exact htrans _ _ _ hr (hR n _ _ hn)

theorem World.Sound.run (hv : v.Obeys d) (hw : World.Sound v d w)
    (hp : Run.Along v.step d.Permits w es) : World.Sound v d (Run.run v.step w es) :=
  Run.run_invariant_along hp hw fun _ _ _ hp hw h => hw.step hv hp h

theorem Discipline.Permits.of_forall (h : ∀ s c, d.permitted s c) (w : World σ Reply ε)
    (e : Event Reply ρ δ) : d.Permits w e := by
  cases e
  case proceed n fate answers =>
    rw [Discipline.Permits, Discipline.Allows.eq_def]
    split
    · exact .inr (h _ _)
    · trivial
  all_goals trivial

end World

-- A program by itself: no other request is under way, no command fails, and the environment answers
-- what it is allowed to.
section Alone

variable (v : Service σ Reply ε ρ δ) (allowed : σ → (c : κ) → Reply c → Prop)

def Ends : Program Reply ε α → (Except ε α → σ → Prop) → σ → Prop
  | done a, post, s     => post (.ok a) s
  | fail e, post, s     => post (.error e) s
  | ask c next, post, s =>
    ∀ r, allowed s c r → Ends (next (.ok (v.perform s c r).2)) post (v.perform s c r).1

variable {v allowed} {s : σ} {p : Program Reply ε α} {f : α → Program Reply ε β}
  {post post' : Except ε α → σ → Prop}

theorem Ends.mono (h : Ends v allowed p post s) (hp : ∀ r s, post r s → post' r s) : Ends v allowed p post' s := by
  induction p generalizing s
  case done        => exact hp _ _ h
  case fail        => exact hp _ _ h
  case ask next ih => exact fun r hr => ih _ (h r hr)

theorem Ends.bind {post : Except ε β → σ → Prop} (h : Ends v allowed p (fun
    | .ok a, s    => Ends v allowed (f a) post s
    | .error e, s => post (.error e) s) s) : Ends v allowed (p >>= f) post s := by
  induction p generalizing s
  case done        => exact h
  case fail        => exact h
  case ask next ih => exact fun r hr => ih _ (h r hr)

-- A program that may always be answered does end.
theorem Ends.exists (ha : ∀ s c, ∃ r, allowed s c r) (h : Ends v allowed p post s)
    (h' : Ends v allowed p post' s) : ∃ r s', post r s' ∧ post' r s' := by
  induction p generalizing s
  case done a        => exact ⟨_, s, h, h'⟩
  case fail e        => exact ⟨_, s, h, h'⟩
  case ask c next ih =>
    have ⟨r, hr⟩ := ha s c
    exact ih _ (h r hr) (h' r hr)

end Alone

end Program
