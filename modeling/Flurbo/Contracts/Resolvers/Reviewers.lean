import Flurbo.Contracts.Resolvers.Windows

-- What the result of a case rests on: nobody spoke, nobody disagreed, or a quorum of the reviewers
-- agreed, each of whom has one vote and no part in the case.

open Evm Except

namespace Resolvers

variable {D : Dependencies} {ε ρ : Type} {V : Variant D ε ρ} {site : Site} {w w' : World D ε}
  {a : Action D site ρ} {es : List (Entry D ε ρ site)} {e : Entry D ε ρ site} {i : ℕ} {o o' : Outcome}

-- Who has voted on a case, and who for an outcome of it.

def voterOf (i : ℕ) (p : Outcome → Bool) (e : Entry D ε ρ site) : Option Address :=
  match e.2.1 with
  | .call tx (.vote j outcome _ _) => if j = i ∧ p outcome then some tx.sender else none
  | _                              => none

def voters (i : ℕ) (p : Outcome → Bool) (es : List (Entry D ε ρ site)) : List Address :=
  es.filterMap (voterOf i p)

abbrev everyone : Outcome → Bool := fun _ => true

abbrev only (o : Outcome) : Outcome → Bool := fun outcome => outcome = o

theorem voters_append {p : Outcome → Bool} :
    voters i p (es ++ [e]) = voters i p es ++ (voterOf i p e).toList := by
  rw [voters, List.filterMap_append]
  cases h : voterOf i p e <;> simp [voters, List.filterMap, h]

theorem voters_only_le {o o' : Outcome} (hne : o ≠ o') (i : ℕ) (es : List (Entry D ε ρ site)) :
    (voters i (only o) es).length + (voters i (only o') es).length ≤ (voters i everyone es).length := by
  induction es using List.reverseRecOn
  case nil            => simp [voters]
  case append_singleton es e hi =>
    simp only [voters_append, List.length_append]
    have hlast : (voterOf i (only o) e).toList.length + (voterOf i (only o') e).toList.length ≤
        (voterOf i everyone e).toList.length := by
      unfold voterOf
      split
      case h_2 => simp
      case h_1 tx j outcome hash uri _ =>
        by_cases hj : j = i <;> by_cases ho : outcome = o <;> by_cases ho' : outcome = o' <;>
          simp_all
    omega

theorem voters_only_sublist : (voters i (only o) es).Sublist (voters i everyone es) := by
  induction es
  case nil          => exact List.Sublist.refl _
  case cons e es hi =>
    have he : voterOf i (only o) e = none ∨ voterOf i (only o) e = voterOf i everyone e := by
      unfold voterOf
      split
      case h_2                   => exact .inl rfl
      case h_1 tx j outcome _ _ _ => by_cases h : outcome = o <;> simp [h]
    unfold voters at *
    rcases he with he | he
    · rw [List.filterMap_cons_none he]
      cases hv : voterOf i everyone e
      case none   => rwa [List.filterMap_cons_none hv]
      case some b => rw [List.filterMap_cons_some hv]; exact hi.cons b
    · cases hv : voterOf i everyone e
      case none   => rwa [List.filterMap_cons_none (he.trans hv), List.filterMap_cons_none hv]
      case some b =>
        rw [List.filterMap_cons_some (he.trans hv), List.filterMap_cons_some hv]
        exact hi.cons_cons b

-- Everybody who has voted is a reviewer, and has voted once.
structure Ballots (site : Site) (w : World D ε) (i : ℕ) (es : List (Entry D ε ρ site)) : Prop where
  nodup    : (voters i everyone es).Nodup
  reviewer : ∀ b ∈ voters i everyone es, b ∈ site.resolver.reviewers
  marked   : ∀ b ∈ voters i everyone es, w.resolver.voted i b = true

theorem Ballots.step (h : Ballots site w i es) (hs : Stepped V site w a w') :
    Ballots site w' i (es ++ [(w, a, w')]) := by
  have hnone (hv : voterOf i everyone (w, a, w') = none) (hm : w'.resolver.voted = w.resolver.voted) :
      Ballots site w' i (es ++ [(w, a, w')]) := by
    refine ⟨?_, ?_, ?_⟩ <;> rw [voters_append, hv]
    · simpa using h.nodup
    · simpa using h.reviewer
    · simpa [hm] using h.marked
  have hvote {tx : Tx site} {j : ℕ} {outcome : Outcome} {c : Case} (hv : Voting site tx w j outcome c)
      (he : voterOf i everyone (w, a, w') = if j = i then some tx.sender else none)
      (hm : w'.resolver.voted = (w.resolver.mark j tx.sender (c.count outcome)).voted) :
      Ballots site w' i (es ++ [(w, a, w')]) := by
    have hmark (b : Address) : w'.resolver.voted i b =
        if i = j ∧ b = tx.sender then true else w.resolver.voted i b := by
      rw [hm, Storage.mark]
      by_cases hj : i = j
      case pos =>
        subst hj
        by_cases hb : b = tx.sender
        case pos => simp [hb]
        case neg => simp [hb]
      case neg => simp [hj]
    by_cases hj : j = i
    case neg =>
      refine ⟨?_, ?_, ?_⟩ <;> rw [voters_append, he, if_neg hj]
      · simpa using h.nodup
      · simpa using h.reviewer
      · intro b hb
        rw [hmark, if_neg fun hc => hj hc.left.symm]
        exact h.marked b (by simpa using hb)
    case pos =>
      subst hj
      refine ⟨?_, ?_, ?_⟩ <;> rw [voters_append, he, if_pos rfl]
      · refine List.nodup_append.mpr ⟨h.nodup, by simp, fun b hb b' hb' => ?_⟩
        rintro rfl
        have := h.marked b hb
        simp only [Option.toList_some, List.mem_singleton] at hb'
        rw [hb', hv.unvoted] at this
        cases this
      · intro b hb
        rcases List.mem_append.mp hb with hb | hb
        · exact h.reviewer b hb
        · simp only [Option.toList_some, List.mem_singleton] at hb
          exact hb ▸ hv.reviewer
      · intro b hb
        rw [hmark]
        split
        case isTrue     => rfl
        case isFalse hc =>
          rcases List.mem_append.mp hb with hb | hb
          · exact h.marked b hb
          · simp only [Option.toList_some, List.mem_singleton] at hb
            exact absurd ⟨rfl, hb⟩ hc
  cases hs
  case voted hv _      => exact hvote hv (by simp [voterOf]) rfl
  case decided hv _ hf => exact hvote hv (by simp [voterOf]) (by rw [hf.eq])
  case finalized hf    => exact hnone rfl (by rw [hf.eq])
  all_goals exact hnone rfl rfl

-- Two outcomes cannot both have a quorum.
theorem Ballots.majority (h : Ballots site w i es) (ha : site.resolver.Accepted) (hne : o ≠ o')
    (hq : (voters i (only o) es).length = site.resolver.quorum) :
    (voters i (only o') es).length < site.resolver.quorum := by
  have hle := voters_only_le hne i es
  have hall : (voters i everyone es).length ≤ site.resolver.reviewers.length :=
    (List.subperm_of_subset h.nodup h.reviewer).length_le
  have hpanel := ha.panel
  unfold Resolver.quorum at *
  omega

-- Why a case has its result.
inductive Grounds (r : Resolver) (c : Case) (voters : Outcome → List Address) : Prop
  | unasserted (proposal : c.proposal = .unset) (result : c.result = .void)
  | unchallenged (proposal : c.proposal ≠ .unset) (counter : c.counter = .unset)
    (result : c.result = c.proposal)
  | quorum (counter : c.counter ≠ .unset) (nodup : (voters c.result).Nodup)
    (reviewers : ∀ b ∈ voters c.result, b ∈ r.reviewers) (votes : (voters c.result).length = r.quorum)
    (others : ∀ o, o ≠ c.result → (voters o).length < r.quorum)
  | undecided (counter : c.counter ≠ .unset) (result : c.result = .void)
    (votes : ∀ o, (voters o).length < r.quorum)

-- A case with the votes on it. No reviewer is a party to it, and no party disputes itself.
structure Judged (site : Site) (i : ℕ) (c : Case) (es : List (Entry D ε ρ site)) : Prop where
  votes    : ∀ o, c.votes o = (voters i (only o) es).length
  asserter : c.proposal ≠ .unset → c.asserter ∉ site.resolver.reviewers
  disputer : c.counter ≠ .unset → c.disputer ∉ site.resolver.reviewers ∧ c.disputer ≠ c.asserter ∧
               c.counter ≠ c.proposal
  grounds  : c.phase = .finalized → Grounds site.resolver c fun o => voters i (only o) es

namespace Judged

variable {c c' : Case}

-- The action is no vote on the case, and does not end it.
theorem same (h : Judged site i c es) (he : ∀ o, voterOf i (only o) e = none) :
    Judged site i c (es ++ [e]) := by
  have hv (o : Outcome) : voters i (only o) (es ++ [e]) = voters i (only o) es := by
    rw [voters_append, he, Option.toList_none, List.append_nil]
  refine ⟨fun o => (hv o).symm ▸ h.votes o, h.asserter, h.disputer, fun hp => ?_⟩
  simp only [hv]
  exact h.grounds hp

theorem not_finalized (h : Judged site i c es) (he : ∀ o, voterOf i (only o) e = none)
    (hv : c'.votes = c.votes) (hp : c'.phase ≠ .finalized)
    (ha : c'.proposal ≠ .unset → c'.asserter ∉ site.resolver.reviewers)
    (hd : c'.counter ≠ .unset → c'.disputer ∉ site.resolver.reviewers ∧ c'.disputer ≠ c'.asserter ∧
      c'.counter ≠ c'.proposal) : Judged site i c' (es ++ [e]) where
  votes o     := by rw [hv]; exact (h.same he).votes o
  asserter    := ha
  disputer    := hd
  grounds hp' := absurd hp' hp

end Judged

theorem voterOf_vote {tx : Tx site} {j : ℕ} {outcome : Outcome} {hash : ℕ} {uri : List UInt8} {o : Outcome} :
    voterOf i (only o) ((w, .call tx (.vote j outcome hash uri), w') : Entry D ε ρ site) =
      if j = i ∧ outcome = o then some tx.sender else none := by
  simp [voterOf]

-- The vote that a case counts.
theorem Judged.counted {c : Case} {tx : Tx site} {hash : ℕ} {uri : List UInt8} (h : Judged site i c es) :
    ∀ o', (c.count o).votes o' = (voters i (only o') (es ++
      [((w, .call tx (.vote i o hash uri), w') : Entry D ε ρ site)])).length := by
  intro o'
  rw [voters_append, voterOf_vote, List.length_append, ← h.votes o']
  by_cases ho : o = o'
  case pos => subst ho; simp [Case.count]
  case neg => simp [Case.count, ho, Function.update_of_ne (Ne.symm ho)]

theorem judged_step (hs : Stepped V site w a w')
    (hshape : ∀ (i : ℕ) (c : Case), w.resolver.cases[i]? = some c → c.Shaped)
    (htimed : ∀ (i : ℕ) (c : Case), w.resolver.cases[i]? = some c → ∃ e, Timed site.resolver w.now e c)
    (ha : site.resolver.Accepted) (hb : ∀ i, Ballots site w' i (es ++ [(w, a, w')]))
    (h : ∀ (i : ℕ) (c : Case), w.resolver.cases[i]? = some c → Judged site i c es) (j : ℕ) (c' : Case)
    (hj : w'.resolver.cases[j]? = some c') : Judged site j c' (es ++ [(w, a, w')]) := by
  cases hs
  case bound | delivered | withdrawn | pool | collateral => exact (h j c' hj).same fun _ => rfl
  case asserted tx i outcome hash uri c observationEnd token has htk =>
    rcases set_cases hj with ⟨rfl, rfl⟩ | ⟨_, hj⟩
    · have hcu := ((hshape j c has.case_eq).proposal ((hshape j c has.case_eq).pending has.phase)).left
      exact (h j c has.case_eq).not_finalized (fun _ => rfl) rfl (by simp [Case.assert]) (fun _ => has.sender)
        fun hc => absurd hcu hc
    · exact (h j c' hj).same fun _ => rfl
  case disputed tx d permit c token ext hd hx htk =>
    rcases set_cases hj with ⟨rfl, rfl⟩ | ⟨_, hj⟩
    · have hc := h d.eventIndex c hd.case_eq
      exact hc.not_finalized (fun _ => rfl) rfl (by simp [Case.dispute]) hc.asserter
        fun _ => ⟨hd.sender.left, hd.sender.right, hd.differs⟩
    · exact (h j c' hj).same fun _ => rfl
  case voted tx i outcome hash uri c hv hq =>
    rcases set_cases hj with ⟨rfl, rfl⟩ | ⟨hne, hj⟩
    · have hc := h j c hv.case_eq
      exact ⟨hc.counted, hc.asserter, hc.disputer, fun hp => absurd (hv.phase.symm.trans hp) (by decide)⟩
    · exact (h j c' hj).same fun o => by rw [voterOf_vote, if_neg fun hc => hne hc.left.symm]
  case decided tx i outcome hash uri c s hv hq hf =>
    rw [hf.eq] at hj
    simp only [Storage.mark, List.set_set] at hj
    rcases set_cases hj with ⟨rfl, rfl⟩ | ⟨hne, hj⟩
    · have hc := h j c hv.case_eq
      have hcounter := (hshape j c hv.case_eq).disputed hv.phase
      have hvotes : ∀ p, (c.count outcome).votes p = (voters j (only p) (es ++ [(w,
          .call tx (.vote j outcome hash uri), { w with now := tx.timestamp, resolver := s })])).length :=
        hc.counted
      refine ⟨hvotes, hc.asserter, hc.disputer, fun _ => ?_⟩
      have hb := hb j
      have hlen : (voters j (only outcome) (es ++ [(w, .call tx (.vote j outcome hash uri),
          { w with now := tx.timestamp, resolver := s })])).length = site.resolver.quorum := by
        rw [← hvotes]
        simpa [Case.count] using hq
      exact .quorum hcounter (hb.nodup.sublist voters_only_sublist)
        (fun b hbm => hb.reviewer b (voters_only_sublist.subset hbm)) hlen
        fun o ho => hb.majority ha (Ne.symm ho) hlen
    · exact (h j c' hj).same fun o => by rw [voterOf_vote, if_neg fun hc => hne hc.left.symm]
  case finalized tx i c observationEnd outcome timedOut s hact hc hend hdue hf =>
    rw [hf.eq] at hj
    rcases set_cases hj with ⟨rfl, rfl⟩ | ⟨_, hj⟩
    · have hcase := (h j c hc).same (e := (w, .call tx (.finalize j), { w with
        now := tx.timestamp, resolver := s })) fun _ => rfl
      refine ⟨hcase.votes, hcase.asserter, hcase.disputer, fun _ => ?_⟩
      have hsh := hshape j c hc
      unfold conclusion at hdue
      split_ifs at hdue with h₁ h₂ h₃
      · cases hdue
        exact .unasserted (hsh.pending h₁.left) rfl
      · cases hdue
        have hp : c.proposal ≠ .unset := fun hu => by simpa [h₂.left] using (hsh.proposal hu).right
        have hcu : c.counter = .unset := by
          by_contra hu
          simpa [h₂.left] using hsh.counter hu
        exact .unchallenged hp hcu rfl
      · cases hdue
        obtain ⟨e, ht⟩ := htimed j c hc
        exact .undecided (hsh.disputed h₃.left) rfl fun o => hcase.votes o ▸ ht.undecided h₃.left o
    · exact (h j c' hj).same fun _ => rfl

-- What has happened to the cases, with the votes.
structure Judgements (site : Site) (w : World D ε) (es : List (Entry D ε ρ site)) : Prop where
  case    : ∀ i c, w.resolver.cases[i]? = some c → Judged site i c es
  ballots : ∀ i, Ballots site w i es

-- In every run, every result has its grounds, whoever calls whatever in whatever order.
theorem results_justified (hT : D.collateral.Confined) {ext : ε} (h : Deployed D V site.resolver ext)
    (token : D.collateral.State) (actions : List (Action D site ρ)) :
    Judgements site (Run.run (step V site) (World.initial site token ext) actions)
      (Run.history (step V site) (World.initial site token ext) actions) := by
  have ha := h.accepted
  have hb := ha.bond_pos
  suffices h : let w := Run.run (step V site) (World.initial site token ext) actions
      let es := Run.history (step V site) (World.initial site token ext) actions
      Orderly site w ∧ (∀ i c, w.resolver.cases[i]? = some c → Accounted i c es) ∧ Judgements site w es from
    h.right.right
  refine Run.history_invariant (J := fun w es => Orderly site w ∧
    (∀ i c, w.resolver.cases[i]? = some c → Accounted i c es) ∧ Judgements site w es) ?_ ?_
  · refine ⟨Orderly.initial, fun i c hi => ?_, fun i c hi => ?_, fun i => ?_⟩
    · have hc : c = Case.initial := List.eq_of_mem_replicate (List.mem_of_getElem? hi)
      exact hc ▸ Accounted.initial
    · have hc : c = Case.initial := List.eq_of_mem_replicate (List.mem_of_getElem? hi)
      subst hc
      exact ⟨fun _ => rfl, fun hp => absurd rfl hp, fun hp => absurd rfl hp, fun hp => (by cases hp)⟩
    · exact ⟨List.nodup_nil, fun _ hm => (by cases hm), fun _ hm => (by cases hm)⟩
  · rintro w es w' a - ⟨ho, hacc, hj⟩ hstep
    have ⟨hs, ht⟩ := step_eq_ok hT hb hstep
    have hbal (i : ℕ) := (hj.ballots i).step hs
    refine ⟨ho.step ha hT hstep, accounted_step hb hs hacc, fun i c hc => ?_, hbal⟩
    refine judged_step hs (fun i c hc => (hacc i c hc).shaped) (fun i c hc => ?_) ha hbal hj.case i c hc
    obtain ⟨e, he⟩ := ho.end_eq ha hc
    exact ⟨e, ho.timed i c e hc he⟩

theorem results_justified_testnet :
    let V := PilotResolver.variant Dependencies.testnet
    let w := World.initial Testnet.site Testnet.funds ()
    voters 0 (only .no) (Run.history (step V Testnet.site) w Testnet.actions) = [11, 12] ∧
      Judgements Testnet.site (Run.run (step V Testnet.site) w Testnet.actions)
        (Run.history (step V Testnet.site) w Testnet.actions) :=
  have hT : Dependencies.testnet.collateral.Confined := Token.standard_confined 18
  ⟨by decide +kernel, results_justified hT Testnet.deployed Testnet.funds Testnet.actions⟩

end Resolvers
