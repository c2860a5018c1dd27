import Flurbo.Contracts.Resolvers.Bonds

-- The windows in which a case can be asserted, disputed, voted on and finalized.

open Evm Except

namespace Resolvers

variable {D : Dependencies} {ε ρ : Type} {V : Variant D ε ρ} {site : Site} {w w' : World D ε}
  {a : Action D site ρ}

-- The deadlines and the votes of a case whose event is observed until `e`.
structure Timed (r : Resolver) (now e : ℕ) (c : Case) : Prop where
  started  : c.phase ≠ .pending → e ≤ now
  asserted : c.phase = .asserted → e + r.challengePeriod ≤ c.challengeUntil ∧
               c.challengeUntil < e + r.assertionPeriod + r.challengePeriod
  disputed : c.phase = .disputed → e + r.votingPeriod ≤ c.voteUntil ∧
               c.voteUntil < e + r.assertionPeriod + r.challengePeriod + r.votingPeriod
  unvoted  : c.phase = .pending ∨ c.phase = .asserted → ∀ outcome, c.votes outcome = 0
  undecided : c.phase = .disputed → ∀ outcome, c.votes outcome < r.quorum

namespace Timed

variable {r : Resolver} {now now' e : ℕ} {c : Case}

theorem initial : Timed r now e Case.initial where
  started h   := absurd rfl h
  asserted h  := by cases h
  disputed h  := by cases h
  unvoted _ _ := rfl
  undecided h := by cases h

theorem later (h : Timed r now e c) (hn : now ≤ now') : Timed r now' e c where
  started hp := (h.started hp).trans hn
  asserted   := h.asserted
  disputed   := h.disputed
  unvoted    := h.unvoted
  undecided  := h.undecided

theorem finalized {outcome : Outcome} (he : e ≤ now) :
    Timed r now e { c with phase := .finalized, result := outcome } where
  started _   := he
  asserted h  := by cases h
  disputed h  := by cases h
  unvoted h   := by rcases h with h | h <;> cases h
  undecided h := by cases h

end Timed

theorem now_le (hs : Stepped V site w a w') (ht : ∀ t, a.timestamp = some t → w.now ≤ t) :
    w.now ≤ w'.now := by
  cases hs
  case collateral => exact le_rfl
  all_goals exact ht _ rfl

theorem Resolver.quorum_pos {r : Resolver} : 0 < r.quorum := Nat.succ_pos _

-- What a deployed resolver knows of the end of an event.
theorem Resolver.Accepted.end_lt {r : Resolver} (h : r.Accepted) {i e : ℕ}
    (he : r.observationEnds[i]? = some e) :
    e + r.assertionPeriod + r.challengePeriod + r.votingPeriod < 2 ^ 64 :=
  (h.ends i e he).right

theorem timed_step (ha : site.resolver.Accepted) (hs : Stepped V site w a w')
    (ht : ∀ t, a.timestamp = some t → w.now ≤ t)
    (h : ∀ (i : ℕ) c (e : ℕ), w.resolver.cases[i]? = some c → site.resolver.observationEnds[i]? = some e →
      Timed site.resolver w.now e c) (j : ℕ) (c' : Case) (e : ℕ) (hj : w'.resolver.cases[j]? = some c')
    (he : site.resolver.observationEnds[j]? = some e) : Timed site.resolver w'.now e c' := by
  have hle := now_le hs ht
  have hlt := ha.end_lt he
  cases hs
  case bound | delivered | withdrawn | pool | collateral => exact (h j c' e hj he).later hle
  case asserted tx i outcome hash uri c observationEnd token has htaken =>
    rcases set_cases hj with ⟨rfl, rfl⟩ | ⟨_, hj⟩
    · cases he.symm.trans has.end_eq
      have hbefore := has.before
      have hafter := has.after
      refine ⟨fun _ => hafter, fun _ => ?_, fun hp => (by cases hp),
        fun _ => (h j c e has.case_eq he).unvoted (.inl has.phase), fun hp => (by cases hp)⟩
      simp only [Case.assert]
      rw [truncate_of_lt (by omega)]
      omega
    · exact (h j c' e hj he).later hle
  case disputed tx d permit c token ext hd hx htaken =>
    rcases set_cases hj with ⟨rfl, rfl⟩ | ⟨_, hj⟩
    · have hc := h d.eventIndex c e hd.case_eq he
      have hstarted := hc.started (by simp [hd.phase])
      have hbefore := hd.before
      obtain ⟨h₁, h₂⟩ := hc.asserted hd.phase
      refine ⟨fun _ => hstarted.trans hle, fun hp => (by cases hp), fun _ => ?_,
        fun hp => (by rcases hp with hp | hp <;> cases hp), fun _ outcome => ?_⟩
      · simp only [Case.dispute]
        have : w.now ≤ tx.timestamp := hle
        rw [truncate_of_lt (by omega)]
        omega
      · have := hc.unvoted (.inr hd.phase) outcome
        simp only [Case.dispute, this]
        exact Resolver.quorum_pos
    · exact (h j c' e hj he).later hle
  case voted tx i outcome hash uri c hv hq =>
    rcases set_cases hj with ⟨rfl, rfl⟩ | ⟨_, hj⟩
    · have hc := h j c e hv.case_eq he
      refine ⟨fun hp => (hc.started hp).trans hle, hc.asserted, hc.disputed, fun hp => ?_, fun hp o => ?_⟩
      · rcases hp with hp | hp
        · exact absurd (hv.phase.symm.trans hp) (by decide)
        · exact absurd (hv.phase.symm.trans hp) (by decide)
      · have hlt := hc.undecided hv.phase
        by_cases ho : o = outcome
        case pos =>
          have := hlt outcome
          subst ho
          simp only [Case.count, Function.update_self]
          omega
        case neg =>
          simp only [Case.count, Function.update_of_ne ho]
          exact hlt o
    · exact (h j c' e hj he).later hle
  case decided tx i outcome hash uri c s hv hq hf =>
    rw [hf.eq] at hj
    simp only [Storage.mark, List.set_set] at hj
    rcases set_cases hj with ⟨rfl, rfl⟩ | ⟨_, hj⟩
    · exact .finalized <| ((h j c e hv.case_eq he).started (by simp [hv.phase])).trans hle
    · exact (h j c' e hj he).later hle
  case finalized tx i c observationEnd outcome timedOut s hact hc hend hdue hf =>
    rw [hf.eq] at hj
    rcases set_cases hj with ⟨rfl, rfl⟩ | ⟨_, hj⟩
    · cases he.symm.trans hend
      refine .finalized ?_
      by_cases hp : c.phase = .pending
      case pos =>
        simp only [conclusion, hp, true_and, reduceCtorEq, false_and, if_false] at hdue
        split at hdue
        case isTrue hd => exact (Nat.le_add_right _ _).trans hd
        case isFalse   => cases hdue
      case neg => exact ((h j c e hc he).started hp).trans hle
    · exact (h j c' e hj he).later hle

-- When a case can be finalized.
def Due (r : Resolver) (c : Case) (e timestamp : ℕ) : Prop :=
  (c.phase = .pending ∧ e + r.assertionPeriod ≤ timestamp) ∨
    (c.phase = .asserted ∧ c.challengeUntil ≤ timestamp) ∨
    (c.phase = .disputed ∧ c.voteUntil ≤ timestamp)

theorem due_iff {r : Resolver} {c : Case} {e timestamp : ℕ} :
    Due r c e timestamp ↔ ∃ o, conclusion c (e + r.assertionPeriod) timestamp = .ok o := by
  unfold conclusion Due
  split_ifs with h₁ h₂ h₃
  · simp [h₁]
  · simp [h₂]
  · simp [h₃]
  · simp only [exists_false, iff_false]
    tauto

-- Whatever happens, a case can be finalized once all periods are over.
theorem Timed.due {r : Resolver} {now e timestamp : ℕ} {c : Case} (h : Timed r now e c)
    (hp : c.phase ≠ .finalized)
    (ht : e + r.assertionPeriod + r.challengePeriod + r.votingPeriod ≤ timestamp) :
    Due r c e timestamp := by
  cases hc : c.phase
  case pending   => exact .inl ⟨hc, by omega⟩
  case asserted  =>
    have := h.asserted hc
    exact .inr (.inl ⟨hc, by omega⟩)
  case disputed  =>
    have := h.disputed hc
    exact .inr (.inr ⟨hc, by omega⟩)
  case finalized => exact absurd hc hp

-- The actions that change a case.
def Action.concerns (i : ℕ) : Action D site ρ → Bool
  | .call _ (.assertOutcome j _ _ _) => j = i
  | .call _ (.dispute d _)           => d.eventIndex = i
  | .call _ (.vote j _ _ _)          => j = i
  | .call _ (.finalize j)            => j = i
  | _                                => false

-- What holds of the cases in every reachable state.
structure Orderly (site : Site) (w : World D ε) : Prop where
  ledger : Ledger site w
  length : w.resolver.cases.length = site.resolver.eventCount
  timed  : ∀ (i : ℕ) c (e : ℕ), w.resolver.cases[i]? = some c →
             site.resolver.observationEnds[i]? = some e → Timed site.resolver w.now e c

theorem Orderly.step (ha : site.resolver.Accepted) (hT : D.collateral.Confined) (h : Orderly site w)
    (hs : step V site w a = .ok w') : Orderly site w' := by
  have ⟨hs, ht⟩ := step_eq_ok hT ha.bond_pos hs
  exact ⟨h.ledger.step hT hs, (length_step hs).trans h.length, timed_step ha hs ht h.timed⟩

theorem Orderly.initial {token : D.collateral.State} {ext : ε} :
    Orderly site (World.initial site token ext) where
  ledger := Ledger.initial
  length := by simp [World.initial, Storage.initial]
  timed i c e hi _ := by
    have hc : c = Case.initial := List.eq_of_mem_replicate (List.mem_of_getElem? hi)
    exact hc ▸ Timed.initial

theorem Orderly.end_eq (ha : site.resolver.Accepted) (h : Orderly site w) {i : ℕ} {c : Case}
    (hc : w.resolver.cases[i]? = some c) : ∃ e, site.resolver.observationEnds[i]? = some e := by
  have hi := (List.getElem?_eq_some_iff.mp hc).1
  rw [h.length, ← ha.length] at hi
  exact ⟨_, List.getElem?_eq_getElem hi⟩

-- Nothing overflows when a case ends.
theorem Ledger.finish_ok {i : ℕ} {c : Case} {outcome : Outcome} {timedOut : Bool} {s : Storage ε}
    (h : Ledger site w) (hc : w.resolver.cases[i]? = some c)
    (hl : s.lockedBonds = w.resolver.lockedBonds) (ht : s.totalCredits = w.resolver.totalCredits)
    (hcr : s.credits = w.resolver.credits) :
    ∃ s', finish site.resolver i c outcome timedOut s = .ok s' := by
  have hset := staked_set (r := site.resolver) hc Case.initial
  have hz : stake site.resolver Case.initial.phase = 0 := rfl
  have hlocked := h.locked
  have hfunds := h.funds
  have hlt := D.collateral.supply_lt (t := w.token) site.ne
  unfold World.balance at hfunds
  refine Resolvers.finish_ok (by omega) (by omega) fun a => ?_
  rw [hcr, ht]
  exact h.credits_le a

theorem Orderly.finalize_iff (ha : site.resolver.Accepted) (h : Orderly site w) {tx : Tx site} {i : ℕ} :
    (∃ w', Resolvers.step V site w (.call tx (.finalize i)) = .ok w') ↔
      w.now ≤ tx.timestamp ∧ Active w ∧ ∃ c e, w.resolver.cases[i]? = some c ∧
        site.resolver.observationEnds[i]? = some e ∧ Due site.resolver c e tx.timestamp := by
  constructor
  case mp =>
    rintro ⟨w', hw⟩
    simp only [Resolvers.step, perform, finalize, bind_eq_ok, advance_eq_ok, nth_eq_ok,
      assertionDeadline_eq_ok, Prod.exists] at hw
    obtain ⟨_, ⟨hn, rfl⟩, _, hact, c, hc, _, ⟨e, he, _, rfl⟩, outcome, timedOut, hd, _⟩ := hw
    have hact := Active.of_ok hact
    exact ⟨hn, ⟨hact.bound, hact.funded, hact.undelivered⟩, c, e, hc, he, due_iff.mpr ⟨_, hd⟩⟩
  case mpr =>
    rintro ⟨hn, hact, c, e, hc, he, hd⟩
    obtain ⟨⟨outcome, timedOut⟩, hd⟩ := due_iff.mp hd
    have hlt := ha.end_lt he
    obtain ⟨s, hs⟩ : ∃ s, Resolvers.finish site.resolver i c outcome timedOut w.resolver = .ok s :=
      h.ledger.finish_ok hc rfl rfl rfl
    refine ⟨{ w.at tx.timestamp with resolver := s }, ?_⟩
    simp only [Resolvers.step, perform, finalize, bind_eq_ok, advance_eq_ok, nth_eq_ok,
      assertionDeadline_eq_ok, Prod.exists]
    exact ⟨_, ⟨hn, rfl⟩, (), requireActive_eq_ok.mpr ⟨hact.bound, hact.funded, hact.undelivered⟩, c, hc,
      _, ⟨e, he, by omega, rfl⟩, outcome, timedOut, hd, s, hs, rfl⟩

theorem Orderly.vote_iff (ha : site.resolver.Accepted) (h : Orderly site w) {tx : Tx site} {i : ℕ}
    {outcome : Outcome} {hash : ℕ} {uri : List UInt8} :
    (∃ w', Resolvers.step V site w (.call tx (.vote i outcome hash uri)) = .ok w') ↔
      w.now ≤ tx.timestamp ∧ checkEvidence outcome hash uri = .ok () ∧
        tx.sender ∈ site.resolver.reviewers ∧ w.resolver.voted i tx.sender = false ∧
        ∃ c, w.resolver.cases[i]? = some c ∧ c.phase = .disputed ∧ tx.timestamp < c.voteUntil := by
  constructor
  case mp =>
    rintro ⟨w', hw⟩
    simp only [Resolvers.step, perform, vote, bind_eq_ok, advance_eq_ok, revertIf_eq_ok, nth_eq_ok,
      not_or, not_not, not_le, List.contains_iff_mem, Bool.not_eq_true] at hw
    obtain ⟨_, ⟨hn, rfl⟩, _, hev, _, ⟨hr, hv⟩, c, hc, _, ⟨hp, hu⟩, _⟩ := hw
    exact ⟨hn, hev, hr, hv, c, hc, hp, hu⟩
  case mpr =>
    rintro ⟨hn, hev, hr, hv, c, hc, hp, hu⟩
    obtain ⟨e, he⟩ := h.end_eq ha hc
    have hq := (h.timed i c e hc he).undecided hp outcome
    have hqle : site.resolver.quorum ≤ 3 := by
      have := ha.panel
      unfold Resolver.quorum
      omega
    simp only [Resolvers.step, perform, vote, bind_eq_ok, advance_eq_ok, revertIf_eq_ok, nth_eq_ok,
      checkedAdd_eq_ok, pure_eq_ok, ok.injEq, not_or, not_not, not_le, List.contains_iff_mem,
      Bool.not_eq_true]
    have hclose : ∃ s, closeVote site.resolver i (c.count outcome) outcome (c.votes outcome + 1)
        (w.resolver.mark i tx.sender (c.count outcome)) = .ok s := by
      unfold closeVote
      split
      case isFalse => exact ⟨_, rfl⟩
      case isTrue  =>
        have hi := (List.getElem?_eq_some_iff.mp hc).1
        have hset := staked_set (r := site.resolver) hc (c.count outcome)
        have hphase : stake site.resolver (c.count outcome).phase = stake site.resolver c.phase := rfl
        have hl : Ledger site { w with resolver := w.resolver.mark i tx.sender (c.count outcome) } :=
          ⟨h.ledger.locked.trans (by simp only [Storage.mark]; omega), h.ledger.total, h.ledger.funds⟩
        exact hl.finish_ok (by simp [Storage.mark, hi]) rfl rfl rfl
    obtain ⟨s, hs⟩ := hclose
    exact ⟨_, _, ⟨hn, rfl⟩, (), hev, (), ⟨hr, hv⟩, c, hc, (), ⟨hp, hu⟩, _, ⟨by omega, rfl⟩, s, hs, rfl⟩

-- When the calls for a case succeed. `finalize` is possible exactly when nothing else is.
structure Windows (V : Variant D ε ρ) (site : Site) (w : World D ε) : Prop where
  finalize  : ∀ tx i, (∃ w', step V site w (.call tx (.finalize i)) = .ok w') ↔
                w.now ≤ tx.timestamp ∧ Active w ∧ ∃ c e, w.resolver.cases[i]? = some c ∧
                  site.resolver.observationEnds[i]? = some e ∧ Due site.resolver c e tx.timestamp
  vote      : ∀ tx i outcome hash uri,
                (∃ w', step V site w (.call tx (.vote i outcome hash uri)) = .ok w') ↔
                  w.now ≤ tx.timestamp ∧ checkEvidence outcome hash uri = .ok () ∧
                  tx.sender ∈ site.resolver.reviewers ∧ w.resolver.voted i tx.sender = false ∧
                  ∃ c, w.resolver.cases[i]? = some c ∧ c.phase = .disputed ∧ tx.timestamp < c.voteUntil
  exclusive : ∀ tx call i w', step V site w (.call tx call) = .ok w' →
                (Action.call tx call : Action D site ρ).concerns i → call ≠ .finalize i →
                ∀ c e, w.resolver.cases[i]? = some c → site.resolver.observationEnds[i]? = some e →
                  ¬ Due site.resolver c e tx.timestamp
  closes    : ∀ (i : ℕ) c (e timestamp : ℕ), w.resolver.cases[i]? = some c →
                site.resolver.observationEnds[i]? = some e → c.phase ≠ .finalized →
                e + site.resolver.assertionPeriod + site.resolver.challengePeriod +
                  site.resolver.votingPeriod ≤ timestamp → Due site.resolver c e timestamp

theorem Orderly.exclusive (ha : site.resolver.Accepted) (hT : D.collateral.Confined) {tx : Tx site}
    {call : Call ρ} {i : ℕ} (hs : Resolvers.step V site w (.call tx call) = .ok w')
    (hi : (Action.call tx call : Action D site ρ).concerns i) (hn : call ≠ .finalize i) (c : Case) (e : ℕ)
    (hc : w.resolver.cases[i]? = some c) (he : site.resolver.observationEnds[i]? = some e) :
    ¬ Due site.resolver c e tx.timestamp := by
  have ⟨hs, _⟩ := step_eq_ok hT ha.bond_pos hs
  cases hs
  case bound | delivered | withdrawn => cases hi
  case asserted h _      =>
    cases of_decide_eq_true hi
    cases hc.symm.trans h.case_eq
    cases he.symm.trans h.end_eq
    have := h.before
    simp [Due, h.phase]
    omega
  case disputed h _ _    =>
    cases of_decide_eq_true hi
    cases hc.symm.trans h.case_eq
    simpa [Due, h.phase] using h.before
  case voted h _         =>
    cases of_decide_eq_true hi
    cases hc.symm.trans h.case_eq
    simpa [Due, h.phase] using h.before
  case decided h _ _     =>
    cases of_decide_eq_true hi
    cases hc.symm.trans h.case_eq
    simpa [Due, h.phase] using h.before
  case finalized j _ _ _ _ _ _ _ _ _ _ =>
    cases of_decide_eq_true hi
    exact absurd rfl hn

theorem run_orderly (hT : D.collateral.Confined) (ha : site.resolver.Accepted)
    (token : D.collateral.State) (ext : ε) (actions : List (Action D site ρ)) :
    Orderly site (Run.run (step V site) (World.initial site token ext) actions) :=
  Run.run_invariant Orderly.initial fun _ _ _ _ h hs => h.step ha hT hs

-- In every reachable state each case can either be finalized or be disputed or voted on, and a case
-- whose periods are over can be finalized.
theorem windows (hT : D.collateral.Confined) {ext : ε} (h : Deployed D V site.resolver ext)
    (token : D.collateral.State) (actions : List (Action D site ρ)) :
    Windows V site (Run.run (step V site) (World.initial site token ext) actions) := by
  have ha := h.accepted
  have ho := run_orderly (V := V) hT ha token ext actions
  exact ⟨fun _ _ => ho.finalize_iff ha, fun _ _ _ _ _ => ho.vote_iff ha,
    fun _ _ _ _ hs hi hn => Orderly.exclusive ha hT hs hi hn,
    fun i c e _ hc he hp ht => (ho.timed i c e hc he).due hp ht⟩

theorem windows_testnet :
    let V := PilotResolver.variant Dependencies.testnet
    Windows V Testnet.site
      (Run.run (step V Testnet.site) (World.initial Testnet.site Testnet.funds ()) Testnet.actions) :=
  windows (Token.standard_confined 18) Testnet.deployed Testnet.funds Testnet.actions

section Final

variable {i : ℕ} {c : Case}

-- A finalized case never changes.
theorem finalized_step (hs : Stepped V site w a w') (hc : w.resolver.cases[i]? = some c)
    (hp : c.phase = .finalized) : w'.resolver.cases[i]? = some c ∧ a.concerns i = false := by
  have hset {j : ℕ} {cases : List Case} {c' c₀ : Case} (hj : cases[j]? = some c₀)
      (hi : cases[i]? = some c) (hn : c₀.phase ≠ .finalized) :
      (cases.set j c')[i]? = some c ∧ (decide (j = i)) = false := by
    have hne : j ≠ i := by
      rintro rfl
      rw [hi] at hj
      cases hj
      exact hn hp
    rw [List.getElem?_set_ne hne]
    exact ⟨hi, decide_eq_false hne⟩
  cases hs
  case bound | delivered | withdrawn | pool | collateral => exact ⟨hc, rfl⟩
  case asserted h _ => exact hset h.case_eq hc (by simp [h.phase])
  case disputed h _ _ => exact hset h.case_eq hc (by simp [h.phase])
  case voted h _ => exact hset h.case_eq hc (by simp [h.phase])
  case decided h _ hf =>
    rw [hf.eq]
    simp only [Storage.mark, List.set_set]
    exact hset h.case_eq hc (by simp [h.phase])
  case finalized c₀ _ _ _ _ _ hj _ hd hf =>
    rw [hf.eq]
    refine hset hj hc fun hn => ?_
    simp [conclusion, hn] at hd

-- Once a case is finalized it stays as it is, whatever follows, and nothing that concerns it succeeds.
theorem results_final (hT : D.collateral.Confined) {ext : ε} (h : Deployed D V site.resolver ext)
    (token : D.collateral.State) (actions later : List (Action D site ρ)) (i : ℕ) (c : Case) :
    let w := Run.run (step V site) (World.initial site token ext) actions
    w.resolver.cases[i]? = some c → c.phase = .finalized →
      (Run.run (step V site) w later).resolver.cases[i]? = some c ∧
      ∀ e ∈ Run.history (step V site) w later, e.2.1.concerns i = false := by
  intro w hc hp
  have hb := h.accepted.bond_pos
  have hstep (w w' : World D ε) (a : Action D site ρ) (_ : a ∈ later)
      (hc : w.resolver.cases[i]? = some c) (hs : step V site w a = .ok w') :
      w'.resolver.cases[i]? = some c :=
    (finalized_step (step_eq_ok hT hb hs).left hc hp).left
  refine ⟨Run.run_invariant (I := fun w : World D ε => w.resolver.cases[i]? = some c) hc hstep, fun e he => ?_⟩
  have ⟨hi, _, hs⟩ := Run.mem_history (I := fun w : World D ε => w.resolver.cases[i]? = some c) he hc hstep
  exact (finalized_step (step_eq_ok hT hb hs).left hi hp).right

theorem results_final_testnet : ∃ c, c.result = .no ∧ ∀ later,
    (Run.run (step (PilotResolver.variant Dependencies.testnet) Testnet.site)
      (Run.run (step (PilotResolver.variant Dependencies.testnet) Testnet.site)
        (World.initial Testnet.site Testnet.funds ()) Testnet.actions) later).resolver.cases[0]? = some c := by
  have hT : Dependencies.testnet.collateral.Confined := Token.standard_confined 18
  have hc : (Run.run (step (PilotResolver.variant Dependencies.testnet) Testnet.site)
      (World.initial Testnet.site Testnet.funds ()) Testnet.actions).resolver.cases[0]?.map
        (fun c => (c.phase, c.result)) = some (.finalized, .no) := by
    decide +kernel
  obtain ⟨c, hc, he⟩ := Option.map_eq_some_iff.mp hc
  obtain ⟨hp, hr⟩ := Prod.mk.inj he
  exact ⟨c, hr, fun later =>
    (results_final hT Testnet.deployed Testnet.funds Testnet.actions later 0 c hc hp).left⟩

end Final

end Resolvers
