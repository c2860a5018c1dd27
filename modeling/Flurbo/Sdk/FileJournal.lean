import Flurbo.Library.Run
import Flurbo.Sdk.Transaction

-- The lock file of a state directory, which the processes that use the directory create, read and
-- remove. Every operation on it is one step.

open Except

namespace Sdk.FileJournal

-- Once a process is gone another one may get its pid.
structure Process where
  key  : ℕ
  pid  : ℕ
  host : String
  deriving DecidableEq, Repr

structure Options where
  lockTimeoutMs : ℤ
  staleMs       : ℤ
  deriving DecidableEq

structure Held where
  pid  : ℕ
  host : String
  time : ℤ
  deriving DecidableEq, Repr

-- The number tells a lock file from those before it. Until it is written it is empty.
structure LockFile where
  file : ℕ
  held : Option Held
  deriving DecidableEq, Repr

-- What a call of `locked` or `withLock` does next.
inductive Phase
  | opening
  | writing (file : ℕ)
  | reading
  | judging (file : ℕ) (held : Held)
  | removing (file : ℕ)
  | waiting
  | inside (file : ℕ)
  deriving DecidableEq, Repr

-- The lock file that a call has created.
def Phase.file : Phase → Option ℕ
  | writing file | inside file => some file
  | _                          => none

structure Call where
  process  : Process
  deadline : ℤ
  staleMs  : ℤ
  phase    : Phase
  deriving DecidableEq, Repr

structure State where
  lock  : Option LockFile
  files : ℕ
  live  : List Process
  calls : ℕ → Option Call

def State.initial : State := ⟨none, 0, [], fun _ => none⟩

-- An operation on the file may fail because somebody else uses it, or otherwise.
inductive Fault
  | transient | other
  deriving DecidableEq, Repr

-- Events carry the number of the call and the readings of the clock of its host.
inductive Event
  | spawn (p : Process)
  | crash (p : Process)
  | call (n : ℕ) (p : Process) (o : Options) (now : ℤ)
  | create (n : ℕ) (fault : Option Fault)
  | write (n : ℕ) (fault : Option Fault) (now : ℤ)
  | read (n : ℕ) (fault : Option Fault)
  | judge (n : ℕ) (now now' : ℤ)
  | unlink (n : ℕ) (fault : Option Fault)
  | wait (n : ℕ) (now : ℤ)
  | release (n : ℕ) (fault : Option Fault)
  deriving DecidableEq

namespace State

variable (s : State)

def alive (host : String) (pid : ℕ) : Bool := s.live.any fun p => p.host = host ∧ p.pid = pid

def set (n : ℕ) (c : Option Call) : State := { s with calls := Function.update s.calls n c }

def enter (n : ℕ) (c : Call) (phase : Phase) : State := s.set n (some { c with phase })

end State

-- A lock is stale if its owner is gone, which can be told on the same host only, or after a long time.
def stale (s : State) (c : Call) (held : Held) (now now' : ℤ) : Bool :=
  let orphaned := held.host = c.process.host ∧ ¬ s.alive held.host held.pid
  now - held.time > c.staleMs ∧ (orphaned ∨ now' - held.time > c.staleMs * 4)

-- The operations of `acquire` and `release`. A file that is written is not the lock any more if it has
-- been removed meanwhile.
def next (s : State) (n : ℕ) (c : Call) : Phase → Event → Except Refusal State
  | .opening, .create _ fault            =>
    match fault, s.lock with
    | some .other, _     => return s.set n none
    | some .transient, _ => return s.enter n c .reading
    | none, some _       => return s.enter n c .reading
    | none, none         =>
      return { s.enter n c (.writing s.files) with lock := some ⟨s.files, none⟩, files := s.files + 1 }
  | .writing file, .write _ fault now    =>
    match fault with
    | some .other     => return s.set n none
    | some .transient => return s.enter n c .reading
    | none            =>
      let held : Held := ⟨c.process.pid, c.process.host, now⟩
      return { s.enter n c (.inside file) with
               lock := s.lock.map fun f => if f.file = file then { f with held := some held } else f }
  | .reading, .read _ fault              =>
    match fault, s.lock with
    | none, some ⟨file, some held⟩ => return s.enter n c (.judging file held)
    | _, _                         => return s.enter n c .waiting
  | .judging file held, .judge _ now now' =>
    return s.enter n c (if stale s c held now now' then .removing file else .waiting)
  | .removing _, .unlink _ fault         =>
    match fault, s.lock with
    | none, some _ => return { s.enter n c .opening with lock := none }
    | _, _         => return s.enter n c .waiting
  | .waiting, .wait _ now                =>
    return if now > c.deadline then s.set n none else s.enter n c .opening
  | .inside _, .release _ fault          =>
    return { s.set n none with lock := if fault.isSome then s.lock else none }
  | _, _                                 => .error .outOfTurn

def Event.call? : Event → Option ℕ
  | spawn _ | crash _ | call .. => none
  | create n _ | write n .. | read n _ | judge n .. | unlink n _ | wait n _ | release n _ => some n

def step (s : State) (event : Event) : Except Refusal State :=
  match event with
  | .spawn p        => do
    refuseIf (s.alive p.host p.pid) .outOfTurn
    return { s with live := p :: s.live }
  | .crash p        =>
    return { s with live := s.live.filter (· ≠ p), calls := fun n => (s.calls n).filter (·.process ≠ p) }
  | .call n p o now => do
    refuseIf (p ∉ s.live ∨ (s.calls n).isSome) .outOfTurn
    return s.set n (some ⟨p, now + o.lockTimeoutMs, o.staleMs, .opening⟩)
  | event           =>
    match event.call? with
    | none   => .error .outOfTurn
    | some n =>
      match s.calls n with
      | none   => .error .outOfTurn
      | some c => next s n c c.phase event

section Steps

variable {s s' : State} {event : Event} {n m : ℕ} {c d : Call} {f : LockFile}

-- The event removes the lock file `f` because a call has found a stale one.
def Takes (s : State) (event : Event) (f : LockFile) : Prop :=
  ∃ n c file, event = .unlink n none ∧ s.calls n = some c ∧ c.phase = .removing file ∧ s.lock = some f

theorem Takes.lock (h : Takes s event f) : s.lock = some f := by
  obtain ⟨_, _, _, _, _, _, hl⟩ := h
  exact hl

-- What a successful step did. A quiet one leaves the file alone, and its call has created none.
inductive Stepped (s : State) (event : Event) : State → Prop
  | spawn (p : Process) : Stepped s event { s with live := p :: s.live }
  | crash (p : Process) : Stepped s event
      { s with live := s.live.filter (· ≠ p), calls := fun n => (s.calls n).filter (·.process ≠ p) }
  | quiet (n : ℕ) (t : Option Call) (ht : t.bind (·.phase.file) = none) : Stepped s event (s.set n t)
  | create (n : ℕ) (c : Call) (hl : s.lock = none) : Stepped s event
      { s.enter n c (.writing s.files) with lock := some ⟨s.files, none⟩, files := s.files + 1 }
  | write (n : ℕ) (c : Call) (file : ℕ) (held : Held) (hc : s.calls n = some c)
    (hp : c.phase = .writing file) : Stepped s event
      { s.enter n c (.inside file) with
        lock := s.lock.map fun f => if f.file = file then { f with held := some held } else f }
  | take (n : ℕ) (c : Call) (f : LockFile) (hf : Takes s event f) :
    Stepped s event { s.enter n c .opening with lock := none }
  | release (n : ℕ) (c : Call) (file : ℕ) (hc : s.calls n = some c) (hp : c.phase = .inside file) :
    Stepped s event { s.set n none with lock := none }

theorem next_eq_ok (he : event.call? = some n) (hc : s.calls n = some c)
    (h : next s n c c.phase event = .ok s') : Stepped s event s' := by
  unfold next at h
  split at h
  case h_1 hp                =>
    split at h
    case h_1             => cases h; exact .quiet n none rfl
    case h_2             => cases h; exact .quiet n _ rfl
    case h_3             => cases h; exact .quiet n _ rfl
    case h_4 hl          => cases h; exact .create n c hl
  case h_2 file _ fault now hp =>
    split at h
    case h_1             => cases h; exact .quiet n none rfl
    case h_2             => cases h; exact .quiet n _ rfl
    case h_3             => cases h; exact .write n c file _ hc hp
  case h_3 hp                =>
    split at h
    case h_1             => cases h; exact .quiet n _ rfl
    case h_2             => cases h; exact .quiet n _ rfl
  case h_4 hp                =>
    cases h
    refine .quiet n _ ?_
    split <;> rfl
  case h_5 file k fault hp   =>
    split at h
    case h_1 f hl        => cases h; cases he; exact .take n c f ⟨n, c, file, rfl, hc, hp, hl⟩
    case h_2             => cases h; exact .quiet n _ rfl
  case h_6 hp                =>
    split at h
    case isTrue          => cases h; exact .quiet n none rfl
    case isFalse         => cases h; exact .quiet n _ rfl
  case h_7 file _ fault hp   =>
    cases h
    split
    case isTrue          => exact .quiet n none rfl
    case isFalse         => exact .release n c file hc hp
  case h_8                   => cases h

theorem step_eq_ok (h : step s event = .ok s') : Stepped s event s' := by
  unfold step at h
  split at h
  case h_1 p        =>
    simp only [bind_eq_ok, pure_eq_ok, ok.injEq] at h
    obtain ⟨_, _, rfl⟩ := h
    exact .spawn p
  case h_2 p        => cases h; exact .crash p
  case h_3 n p o now =>
    simp only [bind_eq_ok, pure_eq_ok, ok.injEq] at h
    obtain ⟨_, _, rfl⟩ := h
    exact .quiet n _ rfl
  case h_4          =>
    split at h
    case h_1        => cases h
    case h_2 n he   =>
      split at h
      case h_1      => cases h
      case h_2 c hc => exact next_eq_ok he hc h

end Steps

section Safety

variable {s s' : State} {event : Event} {n m : ℕ} {c d : Call} {f : LockFile}

-- At most one call is inside, and the lock file that its release would remove is its own.
structure Safe (s : State) : Prop where
  exclusive : ∀ n m c d f g, s.calls n = some c → s.calls m = some d → c.phase = .inside f →
    d.phase = .inside g → n = m
  own       : ∀ n c file, s.calls n = some c → c.phase = .inside file → ∀ f, s.lock = some f → f.file = file

-- The lock file that a call has created.
def State.file (s : State) (n : ℕ) : Option ℕ := (s.calls n).bind (·.phase.file)

-- What a call has created is the lock, and no other call has created it.
structure Owned (s : State) : Prop where
  lock   : ∀ n file, s.file n = some file → s.lock.map (·.file) = some file
  unique : ∀ n m file, s.file n = some file → s.file m = some file → n = m

theorem file_of_calls (hc : s.calls n = some c) : s.file n = c.phase.file := by
  rw [State.file, hc]
  rfl

theorem file_set {t : Option Call} :
    (s.set n t).file m = if m = n then t.bind (·.phase.file) else s.file m := by
  by_cases h : m = n
  · subst h
    simp [State.file, State.set]
  · simp [State.file, State.set, h]

theorem Owned.initial : Owned State.initial :=
  ⟨fun _ _ h => (by cases h), fun _ _ _ h => (by cases h)⟩

theorem Owned.safe (h : Owned s) : Safe s where
  exclusive n m c d f g hc hd hf hg := by
    have hcf : s.file n = some f := by rw [file_of_calls hc, hf]; rfl
    have hdg : s.file m = some g := by rw [file_of_calls hd, hg]; rfl
    cases (h.lock n f hcf).symm.trans (h.lock m g hdg)
    exact h.unique n m f hcf hdg
  own n c file hc hp f hf := by
    have := h.lock n file (by rw [file_of_calls hc, hp]; rfl)
    simpa [hf] using this

-- Calls may lose their files as long as the lock stays.
theorem Owned.lose (h : Owned s) (hl : s'.lock.map (·.file) = s.lock.map (·.file))
    (hf : ∀ n file, s'.file n = some file → s.file n = some file) : Owned s' where
  lock n file hn        := hl.trans (h.lock n file (hf n file hn))
  unique n m file hn hm := h.unique n m file (hf n file hn) (hf m file hm)

theorem Owned.of_none (hf : ∀ n, s.file n = none) : Owned s where
  lock n file hn       := by cases (hf n).symm.trans hn
  unique n m file hn _ := by cases (hf n).symm.trans hn

-- The lock file that a call finds stale is removed only if no call that is under way has created it.
def Spares (s : State) (event : Event) : Prop :=
  ∀ f, Takes s event f → ∀ n, s.file n ≠ some f.file

theorem Owned.step (h : Owned s) (hs : Stepped s event s') (hspares : Spares s event) : Owned s' := by
  cases hs
  case spawn p                   => exact h.lose rfl fun _ _ hn => hn
  case crash p                   =>
    refine h.lose rfl fun n file hn => ?_
    obtain ⟨c, hc, hf⟩ := Option.bind_eq_some_iff.mp hn
    rw [file_of_calls (Option.filter_eq_some_iff.mp hc).left]
    exact hf
  case quiet n t ht              =>
    refine h.lose rfl fun m file hm => ?_
    rw [file_set, ht] at hm
    split at hm
    · cases hm
    · exact hm
  case create n c hl             =>
    have hnone (m : ℕ) : s.file m = none := by
      by_contra hm
      obtain ⟨file, hm⟩ := Option.ne_none_iff_exists'.mp hm
      have := h.lock m file hm
      simp [hl] at this
    have hfile (m file : ℕ) (hm : (s.enter n c (.writing s.files)).file m = some file) :
        m = n ∧ s.files = file := by
      rw [State.enter, file_set, hnone] at hm
      split at hm
      case isTrue he => cases hm; exact ⟨he, rfl⟩
      case isFalse   => cases hm
    exact ⟨fun m file hm => congrArg some (hfile m file hm).right,
      fun m k file hm hk => (hfile m file hm).left.trans (hfile k file hk).left.symm⟩
  case write n c file held hc hp =>
    refine h.lose ?_ fun m file' hm => ?_
    · cases s.lock
      case none   => rfl
      case some f =>
        simp only [Option.map_some]
        split <;> rfl
    · have hfile : (s.enter n c (.inside file)).file m = s.file m := by
        rw [State.enter, file_set]
        split
        case isTrue he => rw [he, file_of_calls hc, hp]; rfl
        case isFalse   => rfl
      exact hfile.symm.trans hm
  case take n c f ht             =>
    refine .of_none fun m => ?_
    have hfile : (s.enter n c .opening).file m = if m = n then none else s.file m := file_set
    refine hfile.trans ?_
    split
    case isTrue  => rfl
    case isFalse =>
      by_contra hm
      obtain ⟨file, hm⟩ := Option.ne_none_iff_exists'.mp hm
      have hlock := h.lock m file hm
      rw [ht.lock] at hlock
      exact hspares f ht m (hm.trans hlock.symm)
  case release n c file hc hp    =>
    refine .of_none fun m => ?_
    have hfile : (s.set n none).file m = if m = n then none else s.file m := file_set
    refine hfile.trans ?_
    split
    case isTrue     => rfl
    case isFalse he =>
      by_contra hm
      obtain ⟨file', hm⟩ := Option.ne_none_iff_exists'.mp hm
      have hn : s.file n = some file := by rw [file_of_calls hc, hp]; rfl
      cases (h.lock n file hn).symm.trans (h.lock m file' hm)
      exact he (h.unique m n file hm hn)

-- Without a lock a call gets inside, whoever else is.
theorem enters (hc : s.calls n = some c) (hp : c.phase = .opening) (hl : s.lock = none) {g : ℕ}
    (hd : s.calls m = some d) (hg : d.phase = .inside g) (hne : m ≠ n) :
    ¬ Safe (Run.run step s [.create n none, .write n none 0]) := by
  have hcreate : step s (.create n none) = .ok
      { s.enter n c (.writing s.files) with lock := some ⟨s.files, none⟩, files := s.files + 1 } := by
    simp [step, Event.call?, hc, next, hp, hl, pure, Except.pure]
  have hwrite : step { s.enter n c (.writing s.files) with lock := some ⟨s.files, none⟩, files := s.files + 1 }
      (.write n none 0) = .ok { s.enter n c (.inside s.files) with
        lock := some ⟨s.files, some ⟨c.process.pid, c.process.host, 0⟩⟩, files := s.files + 1 } := by
    simp [step, Event.call?, State.enter, State.set, next, pure, Except.pure]
  intro h
  rw [Run.run_cons, Run.attempt_ok hcreate, Run.run_cons, Run.attempt_ok hwrite, Run.run_nil] at h
  refine hne (h.exclusive m n d { c with phase := .inside s.files } g s.files ?_ ?_ hg rfl)
  · simp [State.enter, State.set, hne, hd]
  · simp [State.enter, State.set]

-- If the file of a call is removed, two calls may get inside.
theorem not_spares (hs : step s event = .ok s') (h : ¬ Spares s event) :
    ∃ later, ¬ Safe (Run.run step s' later) := by
  simp only [Spares, not_forall, not_not] at h
  obtain ⟨f, ⟨n, c, file, rfl, hc, hp, hl⟩, m, hm⟩ := h
  obtain ⟨d, hd, hf⟩ := Option.bind_eq_some_iff.mp hm
  have hne : m ≠ n := by
    rintro rfl
    cases hc.symm.trans hd
    rw [hp] at hf
    cases hf
  have hs' : s' = { s.enter n c .opening with lock := none } := by
    simpa [step, Event.call?, hc, next, hp, hl, pure, Except.pure, eq_comm] using hs
  have hn : s'.calls n = some { c with phase := .opening } := by simp [hs', State.enter, State.set]
  have hm : s'.calls m = some d := by simp [hs', State.enter, State.set, hne, hd]
  have hnone : s'.lock = none := by rw [hs']
  cases hphase : d.phase
  case inside g  => exact ⟨_, enters hn rfl hnone hm hphase hne⟩
  case writing g =>
    have hwrite : step s' (.write m none 0) = .ok { s'.enter m d (.inside g) with lock := none } := by
      simp [step, Event.call?, hm, next, hphase, hnone, pure, Except.pure]
    refine ⟨[.write m none 0, .create n none, .write n none 0], ?_⟩
    rw [Run.run_cons, Run.attempt_ok hwrite]
    refine enters (c := { c with phase := .opening }) (d := { d with phase := .inside g }) ?_ rfl rfl ?_ rfl hne
    · simp [State.enter, State.set, hne.symm, hn]
    · simp [State.enter, State.set]
  all_goals rw [hphase] at hf; cases hf

-- As long as every file that is taken for stale has been given up, at most one call is inside, and it
-- removes its own file only.
theorem lock_exclusive (events : List Event) (h : Run.Along step Spares State.initial events) :
    let s := Run.run step State.initial events
    Safe s ∧ ∀ event s', step s event = .ok s' → ¬ Spares s event → ∃ later, ¬ Safe (Run.run step s' later) :=
  ⟨Owned.safe <| Run.run_invariant_along h .initial fun _ _ _ hspares hi hs => hi.step (step_eq_ok hs) hspares,
    fun _ _ => not_spares⟩

def Event.isUnlink : Event → Bool
  | unlink .. => true
  | _         => false

theorem Spares.of_not_unlink (h : event.isUnlink = false) : Spares s event := by
  rintro f ⟨n, c, file, rfl, _⟩
  cases h

-- The call that an event opens.
def Event.opens : Event → Option ℕ
  | call n .. => some n
  | _         => none

theorem next_calls {phase : Phase} (h : next s n c phase event = .ok s') (hm : m ≠ n) : s'.calls m = s.calls m := by
  have hset (t : Option Call) : (s.set n t).calls m = s.calls m := Function.update_of_ne hm _ _
  unfold next at h
  split at h
  case h_1 => split at h <;> cases h <;> exact hset _
  case h_2 => split at h <;> cases h <;> exact hset _
  case h_3 => split at h <;> cases h <;> exact hset _
  case h_4 => cases h; exact hset _
  case h_5 => split at h <;> cases h <;> exact hset _
  case h_6 => split at h <;> cases h <;> exact hset _
  case h_7 => cases h; exact hset _
  case h_8 => cases h

theorem step_calls (h : step s event = .ok s') (he : event.opens ≠ some m) (hm : s.calls m = none) :
    s'.calls m = none := by
  unfold step at h
  split at h
  case h_1          =>
    simp only [bind_eq_ok, pure_eq_ok, ok.injEq] at h
    obtain ⟨_, _, rfl⟩ := h
    exact hm
  case h_2          => cases h; simp [hm]
  case h_3 n p o now =>
    simp only [bind_eq_ok, pure_eq_ok, ok.injEq] at h
    obtain ⟨_, _, rfl⟩ := h
    have hne : m ≠ n := fun hn => he (congrArg some hn.symm)
    exact (Function.update_of_ne hne _ _).trans hm
  case h_4          =>
    split at h
    case h_1        => cases h
    case h_2 n _    =>
      split at h
      case h_1      => cases h
      case h_2 c hc =>
        have hne : m ≠ n := by
          rintro rfl
          cases hm.symm.trans hc
        exact (next_calls h hne).trans hm

-- A call that was not opened is not under way.
theorem file_of_not_opened {events : List Event} (h : ∀ event ∈ events, event.opens ≠ some n) :
    (Run.run step State.initial events).file n = none := by
  have hn : (Run.run step State.initial events).calls n = none :=
    Run.run_invariant (I := fun s : State => s.calls n = none) rfl fun _ _ event he hi hs =>
      step_calls hs (h event he) hi
  rw [State.file, hn]
  rfl

end Safety

section Samples

def processes (key : ℕ) : Process := ⟨key, 10 + key, "host"⟩

def options : Options := ⟨20_000, 30_000⟩

-- A call waits until another has released the lock. Its process dies inside, and a third one finds the
-- lock stale.
def stranded : List Event :=
  [.spawn (processes 0), .spawn (processes 1), .call 0 (processes 0) options 0, .create 0 none,
    .write 0 none 0, .call 1 (processes 1) options 1, .create 1 none, .read 1 none, .judge 1 2 2,
    .release 0 none, .wait 1 3, .create 1 none, .write 1 none 4, .crash (processes 1),
    .spawn (processes 2), .call 2 (processes 2) options 40_000, .create 2 none, .read 2 none,
    .judge 2 40_000 40_000]

-- The third one removes it and gets inside.
def relieved : List Event := stranded ++ .unlink 2 none :: [.create 2 none, .write 2 none 40_001]

theorem stranded_spares : Spares (Run.run step State.initial stranded) (.unlink 2 none) := by
  intro f _ n hn
  have hfew : ∀ n < 3, (Run.run step State.initial stranded).file n = none := by decide +kernel
  have hopens : ∀ event ∈ stranded, ∀ n ∈ event.opens, n < 3 := by decide
  by_cases hlt : n < 3
  case pos => cases hn.symm.trans (hfew n hlt)
  case neg => cases hn.symm.trans (file_of_not_opened fun event he h => hlt (hopens event he n h))

-- A process dies inside. Two others find its lock stale, and the second one removes that of the first.
def removedTwice : List Event :=
  [.spawn (processes 0), .call 0 (processes 0) options 0, .create 0 none, .write 0 none 0,
    .crash (processes 0), .spawn (processes 1), .spawn (processes 2),
    .call 1 (processes 1) options 40_000, .call 2 (processes 2) options 40_000,
    .create 1 none, .read 1 none, .judge 1 40_000 40_000,
    .create 2 none, .read 2 none, .judge 2 40_000 40_000,
    .unlink 2 none, .create 2 none, .write 2 none 40_001,
    .unlink 1 none, .create 1 none, .write 1 none 40_002]

theorem lock_exclusive_relieved :
    let s := Run.run step State.initial relieved
    (∃ f, Takes (Run.run step State.initial stranded) (.unlink 2 none) f) ∧
      s.calls 2 = some ⟨processes 2, 60_000, 30_000, .inside 2⟩ ∧ Safe s ∧
      ∀ event s', step s event = .ok s' → ¬ Spares s event → ∃ later, ¬ Safe (Run.run step s' later) := by
  have hquiet : ∀ events : List Event, (∀ event ∈ events, event.isUnlink = false) → ∀ s,
      Run.Along step Spares s events :=
    fun events h _ => .of_forall fun event he _ => .of_not_unlink (h event he)
  have hspares : Run.Along step Spares State.initial relieved :=
    Run.Along.append.mpr ⟨hquiet stranded (by decide) _, stranded_spares, hquiet _ (by decide) _⟩
  exact ⟨⟨⟨1, some ⟨11, "host", 4⟩⟩, 2, _, 1, rfl, rfl, rfl, rfl⟩, by decide +kernel, lock_exclusive relieved hspares⟩

theorem two_inside :
    ¬ ∀ (events : List Event) (n m : ℕ) (c d : Call) (f g : ℕ),
      let s := Run.run step State.initial events
      s.calls n = some c → s.calls m = some d → c.phase = .inside f → d.phase = .inside g →
        c.process = d.process := by
  intro h
  have h₁ : (Run.run step State.initial removedTwice).calls 1 =
      some ⟨processes 1, 60_000, 30_000, .inside 2⟩ := by decide +kernel
  have h₂ : (Run.run step State.initial removedTwice).calls 2 =
      some ⟨processes 2, 60_000, 30_000, .inside 1⟩ := by decide +kernel
  have := h removedTwice 1 2 _ _ 2 1 h₁ h₂ rfl rfl
  exact absurd this (by decide)

end Samples

end Sdk.FileJournal
