import Flurbo.Sdk.Evolution

-- The spending that a journal reserves, over whole runs of its runtimes.

open Evm Except

namespace Sdk

variable {o : Options} {s s' : System} {event : Event} {e x y : JournalEntry} {j j' : Journal}
  {policy : PolicyConfig}

section Budget

variable {keep keep' : ℤ → Bool}

-- The spending of the entries whose planning time is kept.
def spendIn (keep : ℤ → Bool) (j : Journal) : ℕ :=
  (j.map fun e => if keep e.plannedAt then e.spendOf else 0).sum

theorem totalSpend_filter :
    totalSpend ((policyEntries j).filter (keep ·.plannedAt)) = spendIn keep j := by
  induction j
  case nil         => rfl
  case cons e j hi =>
    rw [policyEntries, List.map_cons, List.filter_cons]
    by_cases h : keep e.plannedAt
    · rw [if_pos h, totalSpend, List.map_cons, List.sum_cons, spendIn, List.map_cons, List.sum_cons, if_pos h]
      exact congrArg _ hi
    · rw [if_neg h, spendIn, List.map_cons, List.sum_cons, if_neg h, Nat.zero_add]
      exact hi

theorem spendSince_eq {since : ℤ} :
    spendSince since (policyEntries j) = spendIn (fun t => t ≥ since) j := by
  rw [← totalSpend_filter]
  rfl

theorem totalSpend_eq : totalSpend (policyEntries j) = spendIn (fun _ => true) j := by
  rw [← totalSpend_filter, List.filter_true]

theorem spendIn_append : spendIn keep (j ++ j') = spendIn keep j + spendIn keep j' := by
  simp [spendIn]

theorem spendIn_singleton : spendIn keep [e] = if keep e.plannedAt then e.spendOf else 0 := by
  simp [spendIn]

theorem spendIn_evolves (h : List.Forall₂ JournalEntry.Evolves j j') : spendIn keep j' ≤ spendIn keep j := by
  induction h
  case nil               => exact le_rfl
  case cons e x _ _ he _ hi =>
    have hs := he.spend
    simp only [spendIn, List.map_cons, List.sum_cons, he.plannedAt] at hi ⊢
    split <;> omega

theorem spendIn_keep (h : ∀ t, keep t → keep' t) : spendIn keep j ≤ spendIn keep' j := by
  induction j
  case nil         => exact le_rfl
  case cons e j hi =>
    have ht := h e.plannedAt
    simp only [spendIn, List.map_cons, List.sum_cons] at hi ⊢
    split <;> split <;> simp_all
    omega

theorem pendingCount_evolves (h : List.Forall₂ JournalEntry.Evolves j j') :
    pendingCount (policyEntries j') ≤ pendingCount (policyEntries j) := by
  induction h
  case nil                  => exact le_rfl
  case cons e x m m' he _ hi =>
    have hu : x.status ∈ JournalStatus.unfinished → e.status ∈ JournalStatus.unfinished := by
      intro hx
      by_contra hn
      have hf : e.isFinal := by simpa [JournalEntry.isFinal] using hn
      exact absurd hx (by simpa [JournalEntry.isFinal] using (he.final hf).left)
    simp only [pendingCount, policyEntries, List.map_cons, List.filter_cons] at hi ⊢
    split <;> split <;> simp_all
    omega

theorem pendingCount_append {ps qs : List PolicyEntry} :
    pendingCount (ps ++ qs) = pendingCount ps + pendingCount qs := by
  simp [pendingCount]

-- A purchase fitted into the budgets, towards the entries before it, when it was planned.
structure Fits (policy : PolicyConfig) (j : Journal) (e : JournalEntry) : Prop where
  total  : e.action = .buy → spendIn (fun _ => true) j + e.spendOf ≤ policy.totalAtoms
  window : e.action = .buy → ∀ w ∈ policy.windows,
             spendIn (fun t => t ≥ e.plannedAt - w.seconds) j + e.spendOf ≤ w.atoms

theorem Fits.evolves (h : Fits policy j e) (hj : List.Forall₂ JournalEntry.Evolves j j')
    (he : e.Evolves x) : Fits policy j' x where
  total ha       := (Nat.add_le_add (spendIn_evolves hj) he.spend).trans (h.total (he.action ▸ ha))
  window ha w hw := by
    rw [he.plannedAt]
    exact (Nat.add_le_add (spendIn_evolves hj) he.spend).trans (h.window (he.action ▸ ha) w hw)

-- Both budgets hold at any later time, since a window only loses entries as it moves on.
theorem Fits.total_le (h : Records.Built (Fits policy) j) :
    spendIn (fun _ => true) j ≤ policy.totalAtoms := by
  induction h
  case nil              => exact Nat.zero_le _
  case append j e _ he hi =>
    rw [spendIn_append, spendIn_singleton, if_pos rfl]
    by_cases ha : e.action = .buy
    · exact he.total ha
    · rw [spendOf_not_buy ha]
      exact hi

theorem Fits.window_le {w : SpendWindow} {t : ℤ} (h : Records.Built (Fits policy) j)
    (hw : w ∈ policy.windows) :
    spendIn (fun planned => t - w.seconds ≤ planned ∧ planned ≤ t) j ≤ w.atoms := by
  induction h
  case nil              => exact Nat.zero_le _
  case append j e _ he hi =>
    rw [spendIn_append, spendIn_singleton]
    by_cases ha : e.action = .buy
    · split
      case isFalse   => exact hi
      case isTrue ht =>
        have ht : t - w.seconds ≤ e.plannedAt ∧ e.plannedAt ≤ t := by simpa using ht
        refine (Nat.add_le_add_right (spendIn_keep fun t' ht' => ?_) _).trans (he.window ha w hw)
        simp only [decide_eq_true_eq] at ht' ⊢
        omega
    · rw [spendOf_not_buy ha]
      simpa using hi

end Budget

section Runs

variable {p : Plan} {view : PlanView} {times : PlanTimes} {id : String} {owner : Owner} {clock : ℤ}
  {input : PolicyInput}

theorem evaluatePolicy_eq_nil (h : evaluatePolicy input = []) (ha : input.candidate.action = .buy) :
    totalSpend input.journal + input.candidate.limitAtoms ≤ input.policy.totalAtoms ∧
      ∀ w ∈ input.policy.windows,
        spendSince (input.now - w.seconds) input.journal + input.candidate.limitAtoms ≤ w.atoms := by
  simp only [evaluatePolicy, List.map_eq_nil_iff, List.filter_eq_nil_iff, List.forall_mem_cons] at h
  obtain ⟨_, _, _, _, _, _, _, _, _, _, _, htotal, hwindow, _⟩ := h
  simpa [ha] using And.intro htotal hwindow

theorem evaluatePolicy_pending (h : evaluatePolicy input = []) :
    pendingCount input.journal < input.policy.maxPending := by
  simp only [evaluatePolicy, List.map_eq_nil_iff, List.filter_eq_nil_iff, List.forall_mem_cons] at h
  obtain ⟨_, _, _, _, _, _, _, _, _, _, _, _, _, _, _, _, _, hp, _⟩ := h
  simpa using hp

theorem approvalViolations_pending {gas amount : ℕ} (h : approvalViolations o p view gas j amount = []) :
    pendingCount (policyEntries j) < o.policy.maxPending := by
  simp only [approvalViolations, List.map_eq_nil_iff, List.filter_eq_nil_iff, List.forall_mem_cons] at h
  obtain ⟨_, _, _, _, hp, _⟩ := h
  simpa using hp

theorem plan_fits {gas : ℕ} {tx : TransactionRequest} (h : p.violations o view times gas j = [])
    (ht : times.evaluatedAt ≤ times.plannedAt) :
    Fits o.policy j (p.entry view times gas tx id owner) := by
  have hfit (ha : p.intent.action = .buy) :
      totalSpend (policyEntries j) + p.intent.limitAtoms ≤ o.policy.totalAtoms ∧
        ∀ w ∈ o.policy.windows, spendSince (times.evaluatedAt - w.seconds) (policyEntries j) +
          p.intent.limitAtoms ≤ w.atoms := by
    obtain ⟨claim, hc⟩ : ∃ claim, p.intent.claim? = some claim := by
      cases hi : p.intent <;> simp_all [Intent.action, Intent.claim?]
    rw [Plan.violations, hc] at h
    exact evaluatePolicy_eq_nil h ha
  have hspend (ha : p.intent.action = .buy) :
      (p.entry view times gas tx id owner).spendOf = p.intent.limitAtoms :=
    spendOf_unfinished (by simp [Plan.entry, JournalStatus.unfinished]) ha
  constructor
  case total  =>
    intro ha
    rw [hspend ha, ← totalSpend_eq]
    exact (hfit ha).left
  case window =>
    intro ha w hw
    have hle := (hfit ha).right w hw
    rw [spendSince_eq] at hle
    rw [hspend ha]
    refine (Nat.add_le_add_right (spendIn_keep fun t ht' => ?_) _).trans hle
    have ht' : times.plannedAt - w.seconds ≤ t := of_decide_eq_true ht'
    simp only [decide_eq_true_eq]
    omega

theorem plan_pending {gas : ℕ} (h : p.violations o view times gas j = []) :
    pendingCount (policyEntries j) < o.policy.maxPending := by
  unfold Plan.violations at h
  split at h
  case h_1 => exact approvalViolations_pending h
  case h_2 => exact evaluatePolicy_pending h

-- What the planning of every entry of a journal has checked, and what tasks may still do to it.
structure Reserving (policy : PolicyConfig) (s : System) : Prop where
  careful : Careful s
  built   : Records.Built (Fits policy) s.journal
  pending : pendingCount (policyEntries s.journal) ≤ policy.maxPending

theorem Reserving.initial : Reserving policy (System.initial clock) :=
  ⟨.initial, .nil, Nat.zero_le _⟩

theorem Reserving.evolved (h : Reserving policy s) (hc : Careful s')
    (hj : List.Forall₂ JournalEntry.Evolves s.journal s'.journal) : Reserving policy s' :=
  ⟨hc, h.built.changed (fun hl he hf => hf.evolves hl he) hj, (pendingCount_evolves hj).trans h.pending⟩

theorem Reserving.step (h : Reserving o.policy s) (hs : step o s event = .ok s') :
    Reserving o.policy s' := by
  have hs := step_eq_ok hs
  have hc := hs.careful h.careful
  rcases hs.journal h.careful with hj | ⟨p, view, times, id, owner, ht, hp⟩
  · exact h.evolved hc hj
  · obtain ⟨gas, tx, _, hv, hj⟩ := plan_eq_ok hp
    refine ⟨hc, hj ▸ h.built.append _ _ (plan_fits hv ht), ?_⟩
    have hlt := plan_pending hv
    have hone : pendingCount (policyEntries [p.entry view times gas tx id owner]) ≤ 1 :=
      List.length_filter_le ..
    rw [hj, policyEntries, List.map_append, pendingCount_append]
    exact (Nat.add_le_add_left hone _).trans hlt

variable {events later : List Event}

theorem reserving_run (h : Reserving o.policy s) : Reserving o.policy (Run.run (step o) s events) :=
  Run.run_invariant h fun _ _ _ _ h hs => h.step hs

theorem run_grows (events : List Event) (h : Reserving o.policy s) : Grows s.journal (Run.run (step o) s events).journal := by
  refine (Run.run_invariant (I := fun s' => Reserving o.policy s' ∧ Grows s.journal s'.journal)
    ⟨h, .refl .refl⟩ fun s₁ s₂ _ _ hi hs => ⟨hi.left.step hs, ?_⟩).right
  exact hi.right.trans .trans ((step_eq_ok hs).grows hi.left.careful)

-- Throughout any run of runtimes that share a journal, whatever they are answered and wherever they
-- crash.
structure SpendingReserved (policy : PolicyConfig) (j : Journal) : Prop where
  total   : totalSpend (policyEntries j) ≤ policy.totalAtoms
  windows : ∀ w ∈ policy.windows, ∀ t : ℤ,
              totalSpend ((policyEntries j).filter fun e => t - w.seconds ≤ e.plannedAt ∧ e.plannedAt ≤ t) ≤
                w.atoms
  pending : pendingCount (policyEntries j) ≤ policy.maxPending

theorem Reserving.reserved (h : Reserving policy s) : SpendingReserved policy s.journal where
  total          := totalSpend_eq.trans_le (Fits.total_le h.built)
  windows _ hw _ := totalSpend_filter.trans_le (Fits.window_le h.built hw)
  pending        := h.pending

theorem spending_reserved (o : Options) (clock : ℤ) (events later : List Event) :
    let s := Run.run (step o) (System.initial clock) events
    SpendingReserved o.policy s.journal ∧
      ∀ (i : ℕ) (e : JournalEntry), s.journal[i]? = some e →
        ∃ e' : JournalEntry, (Run.run (step o) s later).journal[i]? = some e' ∧ e'.id = e.id ∧
          e'.spendOf ≤ e.spendOf ∧ (e.isFinal → e'.status = e.status ∧ e'.costAtoms = e.costAtoms) := by
  intro s
  have hs : Reserving o.policy s := reserving_run .initial
  refine ⟨hs.reserved, fun i e he => ?_⟩
  obtain ⟨e', he', h⟩ := (run_grows later hs).getElem? he
  exact ⟨e', he', h.id, h.spend, fun hf => ⟨(h.final hf).right.left, (h.final hf).right.right.left⟩⟩

end Runs

end Sdk
