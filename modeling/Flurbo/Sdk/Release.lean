import Flurbo.Sdk.Chain

-- What the chain shows of entries whose reservation has been released.

open Evm Except

namespace Sdk

variable {o : Options} {w w' : World} {c c' : Chain} {tx : SignedTransaction} {e x : JournalEntry}
  {update : Update} {task : Task} {st : JournalStatus} {timestamp : ℤ} {event : Event}
  {txs : List (Option SignedTransaction × Bool)} {happening : Happening}

section Facts

-- What the chain shows once and for all of the bytes of an entry that is final.
def Chain.Shows (c : Chain) (tx : SignedTransaction) : JournalStatus → Prop
  | .confirmed | .mismatch | .replaced => tx.nonce < c.latest
  | .reverted                          => c.Contains tx false
  | .expired                           =>
    ¬ c.Contains tx true ∧ ∃ d, tx.data.deadline? = some d ∧ d < c.head.timestamp
  | _                                  => True

-- The bytes had not been executed when the given block was the head.
def Chain.Late (c : Chain) (tx : SignedTransaction) (head : Block) : Prop :=
  c.Contains tx true → ∀ d, tx.data.deadline? = some d → head.timestamp ≤ d

theorem Chain.Extends.shows (h : c.Extends c' timestamp txs) (hs : c.Shows tx st) :
    c'.Shows tx st := by
  have hlt (hn : tx.nonce < c.latest) : tx.nonce < c'.latest := hn.trans_le h.latest
  cases st
  case confirmed => exact hlt hs
  case mismatch  => exact hlt hs
  case replaced  => exact hlt hs
  case reverted  => exact h.keeps _ _ hs
  case expired   =>
    obtain ⟨hn, d, hd, ht⟩ := hs
    have hlate : d < timestamp := ht.trans_le h.time
    refine ⟨fun hc => ?_, d, hd, h.head ▸ hlate⟩
    rcases h.adds _ _ hc with hc | ⟨_, _, hp⟩
    · exact hn hc
    · exact absurd (hp rfl d hd) (not_le.mpr hlate)
  all_goals trivial

theorem Chain.Extends.late {head : Block} (h : c.Extends c' timestamp txs) (hl : c.Late tx head)
    (ht : head.timestamp ≤ c.head.timestamp) : c'.Late tx head := by
  intro hc d hd
  rcases h.adds _ _ hc with hc | ⟨_, _, hp⟩
  · exact hl hc d hd
  · exact (ht.trans h.time).trans (hp rfl d hd)

end Facts

section Tasks

def Update.status : Update → JournalStatus
  | verified status ..   => status
  | released status ..   => status
  | seen _               => .broadcast

-- What a call of `reconcileEntry` has learnt so far.
def Task.Informed (c : Chain) : Task → Prop
  | .receipt _ head             => head.timestamp ≤ c.head.timestamp
  | .transaction e head         =>
    head.timestamp ≤ c.head.timestamp ∧ ∀ tx, e.rawTransaction = some tx → c.Late tx head
  | .nonce e head none _        =>
    head.timestamp ≤ c.head.timestamp ∧ ∀ tx, e.rawTransaction = some tx → c.Late tx head
  | .nonce e _ (some r) found   =>
    found ∧ ∀ tx, e.rawTransaction = some tx → c.Contains tx r.success
  | .settle e update            => ∀ tx, e.rawTransaction = some tx → c.Shows tx update.status
  | _                           => True

theorem Chain.Extends.informed (h : c.Extends c' timestamp txs) (ht : task.Informed c) :
    task.Informed c' := by
  have hle {head : Block} (hh : head.timestamp ≤ c.head.timestamp) :
      head.timestamp ≤ c'.head.timestamp := hh.trans (h.time.trans_eq h.head.symm)
  cases task
  case receipt e head         => exact hle ht
  case transaction e head     => exact ⟨hle ht.left, fun tx he => h.late (ht.right tx he) ht.left⟩
  case nonce e head r found   =>
    cases r
    case none => exact ⟨hle ht.left, fun tx he => h.late (ht.right tx he) ht.left⟩
    case some => exact ⟨ht.left, fun tx he => h.keeps _ _ (ht.right tx he)⟩
  case settle e update        => exact fun tx he => h.shows (ht tx he)
  all_goals trivial

theorem verifyReceipt_status {wallet : Address} {r : Receipt} {allowance : ℕ} {now : ℤ} :
    (verifyReceipt wallet e r allowance now).status = .confirmed ∨
      (verifyReceipt wallet e r allowance now).status = .mismatch := by
  unfold verifyReceipt
  split
  · exact .inl rfl
  · exact .inr rfl

-- The decision rests on what the chain has shown, with the latest count as it is now.
theorem release_shows {head : Block} {r : Option Receipt} {found : Bool} (hp : e.Proper)
    (ht : (Task.nonce e head r found).Informed c) (htx : e.rawTransaction = some tx)
    (h : recoveryStep e.status e.nonce e.deadline
      ⟨found, (r.filter (head.number ≥ ·.blockNumber + 1)).map (·.success), c.latest⟩ head.timestamp =
        (st, .release)) : c.Shows tx st := by
  rcases recoveryStep_release h with ⟨rfl, _⟩ | ⟨rfl, hb⟩ | ⟨rfl, _, hn⟩ | ⟨rfl, hf, hd⟩
  · trivial
  · obtain ⟨r', hr, hfailed⟩ := Option.map_eq_some_iff.mp hb
    obtain ⟨rfl, _⟩ := Option.filter_eq_some_iff.mp hr
    have hc := ht.right tx htx
    rwa [hfailed] at hc
  · rw [hp.nonce, htx] at hn
    simpa [Chain.Shows] using hn
  · have hc : tx.data = e.data := congrArg (·.data) (hp.content tx htx)
    obtain ⟨d, hdl, hlt⟩ : ∃ d, tx.data.deadline? = some d ∧ d < head.timestamp := by
      rw [hp.deadline, ← hc] at hd
      cases hdl : tx.data.deadline? <;> simp_all
    cases r
    case some r => exact absurd ht.left (by simp [show found = false from hf])
    case none   =>
      exact ⟨fun hx => absurd (ht.right tx htx hx d hdl) (not_le.mpr hlt), d, hdl, hlt.trans_le ht.left⟩

theorem reconcile_informed {wallet : Address} {head : Block} {r : Option Receipt} {found : Bool}
    {allowance : ℕ} {now : ℤ} (ho : c.Ordered) (hp : e.Proper)
    (ht : (Task.nonce e head r found).Informed c)
    (h : reconcile wallet e head r found c.latest allowance now = some task) : task.Informed c := by
  simp only [reconcile] at h
  split at h
  case h_1    =>
    cases h
    intro tx htx
    have hlt : tx.nonce < c.latest := ho.lt (ht.right tx htx)
    rcases verifyReceipt_status with hs | hs <;> rw [hs] <;> exact hlt
  case h_2 hr =>
    cases h
    exact fun tx htx => release_shows hp ht htx (Prod.ext rfl hr)
  case h_3    => cases h; trivial
  case h_4    =>
    split at h
    case isTrue  => cases h; exact fun _ _ => trivial
    case isFalse => cases h
  case h_5    => cases h

end Tasks

section Worlds

variable {s s' : System} {id : String} {j j' : Journal} {f : JournalEntry → JournalEntry}

-- What holds of the journal and of the calls under way, as far as the chain is concerned.
structure Informed (w : World) : Prop where
  careful : Careful w.system
  ordered : w.chain.Ordered
  entries : ∀ e ∈ w.system.journal, ∀ tx, e.rawTransaction = some tx → w.chain.Shows tx e.status
  tasks   : ∀ n task, w.system.tasks n = some task → task.Informed w.chain

theorem Informed.initial {clock : ℤ} {head : Block} {first : ℕ} :
    Informed (World.initial clock head first) :=
  ⟨.initial, .initial, List.forall_mem_nil _, fun _ _ h => by cases h⟩

theorem Informed.extend (h : Informed w) (hc : w.chain.Extends c' timestamp txs) :
    Informed { w with chain := c' } :=
  ⟨h.careful, hc.ordered h.ordered, fun e he tx htx => hc.shows (h.entries e he tx htx),
    fun n task hn => hc.informed (h.tasks n task hn)⟩

-- An entry that still has the status it was read with still has the bytes it was read with.
theorem raw_eq_of_status (he : e.Proper) (hx : x.Proper) (hf : e.isFinal = false) (h : e.Evolves x)
    (hs : x.status = e.status) : x.rawTransaction = e.rawTransaction := by
  cases hraw : e.rawTransaction
  case some tx => exact h.raw tx hraw
  case none    =>
    by_contra hn
    have hplanned : ¬ (e.status = .signed ∨ e.status = .broadcast) := fun hs => by
      simpa [hraw] using he.signed hs
    have hunfinished : e.status ∈ JournalStatus.unfinished := by simpa [JournalEntry.isFinal] using hf
    simp only [JournalStatus.unfinished, List.mem_cons, List.not_mem_nil, or_false] at hunfinished
    exact hn <| hx.unsigned <| .inl <| hs.trans <| hunfinished.resolve_right hplanned

theorem apply_status : (update.apply x).status = update.status := by
  cases update <;> rfl

theorem apply_raw : (update.apply x).rawTransaction = x.rawTransaction := by
  cases update <;> rfl

section Journal

-- What holds of the bytes of all entries by their status, and of the updates that are decided.
variable {P : SignedTransaction → JournalStatus → Prop}

theorem onEntry_holds (h : ∀ e ∈ j, ∀ tx, e.rawTransaction = some tx → P tx e.status)
    (hf : ∀ x, findEntry id j = some x → ∀ tx, (f x).rawTransaction = some tx → P tx (f x).status) :
    ∀ e ∈ onEntry id f j, ∀ tx, e.rawTransaction = some tx → P tx e.status := by
  intro e he
  rcases Records.change_mem he with he | ⟨x, hx, rfl⟩
  · exact h e he
  · exact hf x hx

theorem journal_holds {event : Event} (hP : ∀ tx st, st ∈ JournalStatus.unfinished → P tx st)
    (hc : Careful s) (h : ∀ e ∈ s.journal, ∀ tx, e.rawTransaction = some tx → P tx e.status)
    (ht : ∀ n e u, s.tasks n = some (.settle e u) → ∀ tx, e.rawTransaction = some tx → P tx u.status)
    (hs : Sdk.Stepped o s event s') :
    ∀ e ∈ s'.journal, ∀ tx, e.rawTransaction = some tx → P tx e.status := by
  cases hs
  case plan hp       =>
    obtain ⟨_, _, _, _, rfl⟩ := plan_eq_ok hp
    intro e he tx htx
    rcases List.mem_append.mp he with he | he
    · exact h e he tx htx
    · rw [List.mem_singleton.mp he] at htx
      cases htx
  case sign hs       =>
    cases sign_eq_ok hs
    case none                => exact h
    case abandoned x _ hf hp =>
      refine onEntry_holds h fun y hy tx htx => ?_
      cases hf.symm.trans hy
      have hnone := (hc.proper x (Records.find_mem hf)).unsigned (.inl hp)
      cases hnone.symm.trans htx
    case signed              =>
      exact onEntry_holds h fun _ _ tx _ => hP tx .signed (by simp [JournalStatus.unfinished])
  case mark e _ _ _  =>
    refine onEntry_holds h fun x hx tx htx => ?_
    have hxs := h x (Records.find_mem hx) tx
    simp only [JournalEntry.markSent] at htx ⊢
    split
    case isTrue      => exact hP tx .broadcast (by simp [JournalStatus.unfinished])
    case isFalse hne => rw [if_neg hne] at htx; exact hxs htx
  case settle e u hn =>
    obtain ⟨⟨hfinal, _⟩, hproper, y, hy, hev⟩ := hc.follows hn
    refine onEntry_holds h fun x hx tx htx => ?_
    cases hy.symm.trans hx
    have hyp := hc.proper y (Records.find_mem hy)
    simp only [settleEntry] at htx ⊢
    split
    case isFalse hne => rw [if_neg hne] at htx; exact h y (Records.find_mem hy) tx htx
    case isTrue heq  =>
      rw [if_pos heq, apply_raw, raw_eq_of_status hproper hyp hfinal hev heq] at htx
      rw [apply_status]
      exact ht _ _ _ hn tx htx
  all_goals exact h

end Journal

theorem shows_unfinished (h : st ∈ JournalStatus.unfinished) : c.Shows tx st := by
  simp only [JournalStatus.unfinished, List.mem_cons, List.not_mem_nil, or_false] at h
  rcases h with rfl | rfl | rfl <;> trivial

theorem set_tasks {Q : Task → Prop} {n : ℕ} {t : Option Task}
    (h : ∀ m task, s.tasks m = some task → Q task) (ht : ∀ task, t = some task → Q task) :
    ∀ m task, (s.set n t).tasks m = some task → Q task := by
  intro m task hm
  by_cases hmn : m = n
  · subst hmn
    exact ht task (by simpa [System.set] using hm)
  · exact h m task (by simpa [System.set, Function.update_of_ne hmn] using hm)

-- What the receipt read shows, or that there is none.
theorem lookUp_informed {n : ℕ} {head : Block} {r : Option Receipt}
    (hn : w.system.tasks n = some (.receipt e head)) (ha : w.answers (.receipt n r))
    (ht : head.timestamp ≤ w.chain.head.timestamp) : (lookUp e head r).Informed w.chain := by
  simp only [World.answers, World.bytes, hn, Option.bind_some, Task.entry] at ha
  unfold lookUp
  cases hraw : e.rawTransaction
  case none    => exact ⟨ht, fun tx htx => by cases hraw.symm.trans htx⟩
  case some tx =>
    simp only [hraw, Option.all_some, decide_eq_true_eq] at ha
    cases r
    case none   =>
      refine ⟨ht, fun tx' htx hc => ?_⟩
      cases hraw.symm.trans htx
      have hfind : w.chain.find tx = none := by simpa using ha.symm
      exact absurd hc (Chain.find_none hfind)
    case some r =>
      refine ⟨rfl, fun tx' htx => ?_⟩
      cases hraw.symm.trans htx
      obtain ⟨m, hm, he⟩ := Option.map_eq_some_iff.mp ha.symm
      have hsuccess : m.success = r.success := congrArg Prod.fst he
      exact hsuccess ▸ Chain.find_some hm

theorem Informed.after {event : Event} (h : Informed w) (ha : w.answers event)
    (hs : Sdk.Stepped o w.system event s) : Informed { w with system := s } := by
  refine ⟨hs.careful h.careful, h.ordered,
    journal_holds (fun _ _ => shows_unfinished) h.careful h.entries (fun n e u => h.tasks n (.settle e u)) hs, ?_⟩
  cases hs
  case plan                           => exact h.tasks
  case sign                           =>
    refine set_tasks (s := w.system) h.tasks fun task ht => ?_
    obtain ⟨_, _, rfl⟩ := Option.map_eq_some_iff.mp ht
    trivial
  case send e accepted hn             =>
    refine set_tasks h.tasks fun task ht => ?_
    split at ht <;> cases ht
    trivial
  case read                           =>
    refine set_tasks (s := w.system) h.tasks fun task ht => ?_
    obtain ⟨_, _, rfl⟩ := Option.map_eq_some_iff.mp ht
    trivial
  case block n e head hn              =>
    refine set_tasks h.tasks fun task ht => ?_
    cases ht
    have heq : head = w.chain.head := by simpa [World.answers] using ha
    rw [heq]
    exact le_refl w.chain.head.timestamp
  case receipt n e head r hn          =>
    have hi := lookUp_informed hn ha (h.tasks _ _ hn)
    exact set_tasks h.tasks fun task ht => by cases ht; exact hi
  case transaction n e head found hn  =>
    have hi := h.tasks _ _ hn
    exact set_tasks h.tasks fun task ht => by cases ht; exact hi
  case nonce e head r found latest allowance now _ hn =>
    refine set_tasks (s := w.system) h.tasks fun task ht => ?_
    have heq : latest = w.chain.latest := by simpa [World.answers] using ha
    rw [heq] at ht
    exact reconcile_informed h.ordered (h.careful.known _ _ hn) (h.tasks _ _ hn) ht
  all_goals exact set_tasks (s := w.system) h.tasks fun task ht => by cases ht

theorem Informed.step (h : Informed w) (hs : World.Stepped o w happening w') : Informed w' := by
  cases hs
  case runtime event system ha hs =>
    have hc : w.chain.Extends (w.sending event) _ _ := World.sending_extends
    exact (h.after ha hs).extend hc
  case block hc _                 => exact h.extend hc
  case receive                    => exact h.extend (.of_eq rfl rfl rfl)
  case evict                      => exact h.extend (.of_eq rfl rfl rfl)

end Worlds

section Unexecuted

variable {s : System}

-- No block takes an entry's own bytes after they were looked up in vain and before the count of used
-- nonces is read.
def Undisturbed (w : World) : Happening → Prop
  | .block _ txs => ∀ n e head, w.system.tasks n = some (.nonce e head none false) →
                      ∀ tx, e.rawTransaction = some tx → ∀ success, (some tx, success) ∉ txs
  | _            => True

-- Whether a block takes none of the journal's bytes.
def Happening.foreign : Happening → Bool
  | .block _ txs => txs.all (·.1.isNone)
  | _            => true

theorem Undisturbed.of_foreign (h : happening.foreign) : Undisturbed w happening := by
  cases happening
  case block timestamp txs =>
    intro n e head hn tx htx success hm
    simpa using List.all_eq_true.mp h _ hm
  all_goals trivial

-- Bytes under a nonce that counts as used by others are not executed.
def Chain.Spares (c : Chain) (tx : SignedTransaction) (st : JournalStatus) : Prop :=
  st = .replaced → ¬ c.Contains tx true

def Task.Sparing (c : Chain) : Task → Prop
  | .settle e update       => ∀ tx, e.rawTransaction = some tx → c.Spares tx update.status
  | .nonce e _ none false  => ∀ tx, e.rawTransaction = some tx → ¬ c.Contains tx true
  | _                      => True

structure Unexecuted (w : World) : Prop where
  entries : ∀ e ∈ w.system.journal, ∀ tx, e.rawTransaction = some tx → w.chain.Spares tx e.status
  tasks   : ∀ n task, w.system.tasks n = some task → task.Sparing w.chain

theorem Unexecuted.initial {clock : ℤ} {head : Block} {first : ℕ} :
    Unexecuted (World.initial clock head first) :=
  ⟨List.forall_mem_nil _, fun _ _ h => by cases h⟩

theorem Chain.Extends.spares (h : c.Extends c' timestamp txs) (hs : c.Spares tx st) (hc : c.Shows tx st) :
    c'.Spares tx st := by
  rintro rfl hx
  rcases h.adds _ _ hx with hx | ⟨_, hle, _⟩
  · exact hs rfl hx
  · exact absurd hc (not_lt.mpr hle)

theorem Unexecuted.extend (h : Unexecuted w) (hi : Informed w) (hc : w.chain.Extends c' timestamp txs)
    (hu : Undisturbed w (.block timestamp txs)) : Unexecuted { w with chain := c' } := by
  refine ⟨fun e he tx htx => hc.spares (h.entries e he tx htx) (hi.entries e he tx htx), fun n task hn => ?_⟩
  have ht := h.tasks n task hn
  unfold Task.Sparing at ht ⊢
  split
  case h_1 e update => exact fun tx htx => hc.spares (ht tx htx) (hi.tasks n _ hn tx htx)
  case h_2 e head   =>
    intro tx htx hx
    rcases hc.adds _ _ hx with hx | ⟨hm, _⟩
    · exact ht tx htx hx
    · exact hu n e head hn tx htx true hm
  case h_3          => trivial

theorem Task.Sparing.of_missing {head : Block} {r : Option Receipt} {found : Bool}
    (ht : (Task.nonce e head r found).Sparing c) (hi : (Task.nonce e head r found).Informed c)
    (hf : found = false) (htx : e.rawTransaction = some tx) : ¬ c.Contains tx true := by
  subst hf
  cases r
  case none   => exact ht tx htx
  case some r => cases hi.left

-- Only bytes that were not found are taken to be replaced.
theorem reconcile_sparing {wallet : Address} {head : Block} {r : Option Receipt} {found : Bool}
    {latest allowance : ℕ} {now : ℤ} (hi : (Task.nonce e head r found).Informed c)
    (ht : (Task.nonce e head r found).Sparing c)
    (h : reconcile wallet e head r found latest allowance now = some task) : task.Sparing c := by
  simp only [reconcile] at h
  split at h
  case h_1    =>
    cases h
    intro tx htx hs
    rcases verifyReceipt_status with hv | hv <;> cases hv.symm.trans hs
  case h_2 hr =>
    cases h
    intro tx htx hs
    rcases recoveryStep_release (Prod.ext rfl hr) with ⟨h₁, _⟩ | ⟨h₁, _⟩ | ⟨_, hf, _⟩ | ⟨h₁, _⟩
    case inr.inr.inl => exact ht.of_missing hi hf htx
    all_goals cases h₁.symm.trans hs
  case h_3    => cases h; trivial
  case h_4    =>
    split at h
    case isTrue  => cases h; exact fun _ _ hs => by cases hs
    case isFalse => cases h
  case h_5    => cases h

theorem lookUp_sparing {head : Block} {r : Option Receipt} : (lookUp e head r).Sparing c := by
  unfold lookUp
  cases hraw : e.rawTransaction
  case none    => exact fun tx htx => by cases hraw.symm.trans htx
  case some tx => cases r <;> trivial

theorem Unexecuted.after {event : Event} (h : Unexecuted w) (hi : Informed w) (ha : w.answers event)
    (hs : Sdk.Stepped o w.system event s) : Unexecuted { w with system := s } := by
  refine ⟨journal_holds (fun tx st hst => ?_) hi.careful h.entries (fun n e u => h.tasks n (.settle e u)) hs, ?_⟩
  · rintro rfl
    simp [JournalStatus.unfinished] at hst
  cases hs
  case plan                           => exact h.tasks
  case sign                           =>
    refine set_tasks (s := w.system) h.tasks fun task ht => ?_
    obtain ⟨_, _, rfl⟩ := Option.map_eq_some_iff.mp ht
    trivial
  case send e accepted hn             =>
    refine set_tasks h.tasks fun task ht => ?_
    split at ht <;> cases ht
    trivial
  case read                           =>
    refine set_tasks (s := w.system) h.tasks fun task ht => ?_
    obtain ⟨_, _, rfl⟩ := Option.map_eq_some_iff.mp ht
    trivial
  case block                          => exact set_tasks h.tasks fun task ht => by cases ht; trivial
  case receipt                        =>
    exact set_tasks h.tasks fun task ht => by cases ht; exact lookUp_sparing
  case transaction n e head found hn  =>
    refine set_tasks h.tasks fun task ht => ?_
    cases ht
    cases found
    case true  => trivial
    case false =>
      intro tx htx hx
      simp only [World.answers, World.bytes, hn, Option.bind_some, Task.entry, htx, Option.all_some,
        decide_eq_true_eq] at ha
      exact absurd (ha.left (Chain.find_isSome hx)) (by simp)
  case nonce e head r found latest allowance now _ hn =>
    refine set_tasks (s := w.system) h.tasks fun task ht => ?_
    exact reconcile_sparing (hi.tasks _ _ hn) (h.tasks _ _ hn) ht
  all_goals exact set_tasks (s := w.system) h.tasks fun task ht => by cases ht

theorem Unexecuted.step (h : Unexecuted w) (hi : Informed w) (hu : Undisturbed w happening)
    (hs : World.Stepped o w happening w') : Unexecuted w' := by
  have hnone : ∀ t, Undisturbed w (.block t []) := fun _ _ _ _ _ _ _ _ => List.not_mem_nil
  cases hs
  case runtime event system ha hs =>
    have hc : w.chain.Extends (w.sending event) _ _ := World.sending_extends
    exact (h.after hi ha hs).extend (hi.after ha hs) hc fun _ _ _ _ _ _ _ => List.not_mem_nil
  case block hc _                 => exact h.extend hi hc hu
  case receive                    => exact h.extend hi (.of_eq rfl rfl rfl) (hnone _)
  case evict                      => exact h.extend hi (.of_eq rfl rfl rfl) (hnone _)

variable {earlier later : List Happening}

theorem Unexecuted.run (h : Unexecuted w) (hi : Informed w)
    (hu : Run.Along (World.step o) Undisturbed w earlier) :
    Informed (Run.run (World.step o) w earlier) ∧ Unexecuted (Run.run (World.step o) w earlier) :=
  Run.run_invariant_along (I := fun w => Informed w ∧ Unexecuted w) hu ⟨hi, h⟩ fun _ _ _ hu h hs =>
    have hs := World.step_eq_ok hs
    ⟨h.left.step hs, h.right.step h.left hu hs⟩

-- The bytes of the entry are in a block that executed them.
def Chain.Executed (c : Chain) (e : JournalEntry) : Prop :=
  ∃ tx, e.rawTransaction = some tx ∧ c.Contains tx true

def released : List JournalStatus := [.replaced, .expired, .reverted, .abandoned]

theorem Unexecuted.not_executed (h : Unexecuted w) (hi : Informed w) (he : e ∈ w.system.journal)
    (hs : e.status ∈ released) : ¬ w.chain.Executed e := by
  rintro ⟨tx, htx, hx⟩
  have hshows := hi.entries e he tx htx
  simp only [released, List.mem_cons, List.not_mem_nil, or_false] at hs
  rcases hs with hs | hs | hs | hs
  · exact h.entries e he tx htx hs hx
  · rw [hs] at hshows
    exact hshows.left hx
  · rw [hs] at hshows
    cases hi.ordered.unique hshows hx
  · have hnone := (hi.careful.proper e he).unsigned (.inr hs)
    cases hnone.symm.trans htx

theorem Informed.grows (hi : Informed w) (hs : World.Stepped o w happening w') :
    Grows w.system.journal w'.system.journal := by
  cases hs
  case runtime event system _ hs => exact hs.grows hi.careful
  all_goals exact .refl .refl

theorem world_grows (hi : Informed w) :
    Grows w.system.journal (Run.run (World.step o) w later).system.journal := by
  refine (Run.run_invariant (I := fun w' => Informed w' ∧ Grows w.system.journal w'.system.journal)
    ⟨hi, .refl .refl⟩ fun w₁ w₂ _ _ h hs => ?_).right
  have hs := World.step_eq_ok hs
  exact ⟨h.left.step hs, h.right.trans .trans (h.left.grows hs)⟩

-- What has been released stays released, and is not and never will be executed. What was abandoned is
-- never signed.
theorem released_never_executed (o : Options) (clock : ℤ) (head : Block) (first : ℕ)
    (earlier later : List Happening)
    (hu : Run.Along (World.step o) Undisturbed (World.initial clock head first) (earlier ++ later)) :
    let w := Run.run (World.step o) (World.initial clock head first) earlier
    let w' := Run.run (World.step o) w later
    ∀ (i : ℕ) (e : JournalEntry), w.system.journal[i]? = some e → e.status ∈ released →
      ¬ w'.chain.Executed e ∧
        ∃ e' : JournalEntry, w'.system.journal[i]? = some e' ∧ e'.status = e.status ∧
          e'.rawTransaction = e.rawTransaction ∧ (e.status = .abandoned → e.rawTransaction = none) := by
  intro w w' i e he hs
  obtain ⟨hu₁, hu₂⟩ := Run.Along.append.mp hu
  obtain ⟨hi, hx⟩ := Unexecuted.initial.run .initial hu₁
  obtain ⟨hi', hx'⟩ := hx.run hi hu₂
  have hf : e.isFinal := by
    simp only [released, List.mem_cons, List.not_mem_nil, or_false] at hs
    rcases hs with hs | hs | hs | hs <;> simp [JournalEntry.isFinal, hs, JournalStatus.unfinished]
  have hg : Grows w.system.journal w'.system.journal := world_grows hi
  obtain ⟨e', he', hev⟩ := hg.getElem? he
  obtain ⟨_, hstatus, _, hraw⟩ := hev.final hf
  have hne := hx'.not_executed hi' (List.mem_of_getElem? he') (hstatus ▸ hs)
  refine ⟨?_, e', he', hstatus, hraw, fun ha => ?_⟩
  · rintro ⟨tx, htx, hc⟩
    exact hne ⟨tx, hraw.trans htx, hc⟩
  · exact (hi.careful.proper e (List.mem_of_getElem? he)).unsigned (.inr ha)

end Unexecuted

end Sdk

namespace Sdk.Pilot

-- A runtime of the pilot market, with a purchase that it plans.

def policy : PolicyConfig where
  markets               := ["pilot"]
  maxQuantityAtoms      := 5_000_000
  maxTradeCostAtoms     := 3_000_000
  maxSlippageBps        := 50
  totalAtoms            := 10_000_000
  windows               := [⟨3600, 4_000_000⟩]
  maxPositionAtoms      := 8_000_000
  maxWorstCaseLossAtoms := 6_000_000
  maxFeeWei             := 10 ^ 18
  reserveWei            := 10 ^ 17
  quoteMaxAgeSeconds    := 30
  minSecondsBeforeClose := 900
  maxPending            := 2
  allowSell             := false
  allowRedeem           := false

def options : Options := ⟨7, policy⟩

def deployment : Deployment := ⟨"pilot", 10143, 1, 10_000, 2⟩

def head : Block := ⟨10, 100⟩

def purchase (deadline : ℤ) : Plan :=
  ⟨deployment, .buy ⟨3, 8⟩ 1_000_000 500_000 deadline, "decision", some head, 50⟩

def planView : PlanView := ⟨true, some 100_000, ⟨10, 1⟩, 10 ^ 18, head, false, [], fun _ => 0⟩

def planned (p : Plan) (id : String) (now : ℤ) : Happening :=
  .runtime (.plan p planView ⟨now, now, now⟩ id ⟨1, "host"⟩)

def signed (task : ℕ) (id : String) (pending : ℕ) (now : ℤ) : Happening :=
  .runtime (.sign task ⟨none, none, pending, now⟩ id deployment)

-- The bytes that are signed for a plan.
def bytes (data : Call) (target : Address) (nonce : ℕ) : SignedTransaction :=
  ⟨⟨target, data⟩, nonce, 120_000, 10, 1⟩

def purchased : SignedTransaction := bytes (.buy ⟨3, 8⟩ 1_000_000 500_000 400) 1 0

-- Another runtime reconciles the entry between its signature and its broadcast. The bytes are included
-- after they were looked up, and the nonce counts as used by others.
def overtaken : List Happening :=
  [planned (purchase 400) "entry" 100, signed 0 "entry" 0 101, .runtime (.read 1 "entry" 102 2),
    .runtime (.block 1 head), .runtime (.receipt 1 none), .runtime (.transaction 1 false),
    .runtime (.send 0 true), .block 103 [(some purchased, true)], .runtime (.nonce 1 1 0 104),
    .runtime (.settle 1)]

-- The bytes are lost, and the wallet uses their nonce otherwise.
def outbid : List Happening :=
  [planned (purchase 400) "entry" 100, signed 0 "entry" 0 101, .runtime (.send 0 false),
    .block 103 [(none, true)], .runtime (.read 1 "entry" 104 2), .runtime (.block 1 ⟨11, 103⟩),
    .runtime (.receipt 1 none), .runtime (.transaction 1 false), .runtime (.nonce 1 1 0 104),
    .runtime (.settle 1)]

end Sdk.Pilot

open Sdk Pilot in
theorem Sdk.released_never_executed_pilot :
    let w := Run.run (World.step options) (World.initial 100 head 0) outbid
    let w' := Run.run (World.step options) w [.block 105 []]
    w.system.journal.map (·.status) = [.replaced] ∧
      ∀ (i : ℕ) (e : JournalEntry), w.system.journal[i]? = some e → e.status ∈ released →
        ¬ w'.chain.Executed e ∧
          ∃ e' : JournalEntry, w'.system.journal[i]? = some e' ∧ e'.status = e.status ∧
            e'.rawTransaction = e.rawTransaction ∧ (e.status = .abandoned → e.rawTransaction = none) :=
  ⟨by decide +kernel, released_never_executed options 100 head 0 outbid [.block 105 []]
    (.of_forall fun a ha _ => .of_foreign ((by decide : ∀ a ∈ outbid ++ [.block 105 []], a.foreign) a ha))⟩

open Sdk Pilot in
theorem Sdk.replaced_and_executed :
    ¬ ∀ (o : Options) (clock : ℤ) (head : Block) (first : ℕ) (events : List Happening),
      let w := Run.run (World.step o) (World.initial clock head first) events
      ∀ e ∈ w.system.journal, e.status ∈ released → ¬ w.chain.Executed e := by
  intro h
  obtain ⟨e, he, hs, hraw⟩ :
      ∃ e ∈ (Run.run (World.step options) (World.initial 100 head 0) overtaken).system.journal,
        e.status = .replaced ∧ e.rawTransaction = some purchased := by decide +kernel
  have hmined :
      ∃ m ∈ (Run.run (World.step options) (World.initial 100 head 0) overtaken).chain.mined,
        m.tx = some purchased ∧ m.success = true := by decide +kernel
  have hreleased : e.status ∈ released := by rw [hs]; decide
  exact h options 100 head 0 overtaken e he hreleased ⟨purchased, hraw, hmined⟩
