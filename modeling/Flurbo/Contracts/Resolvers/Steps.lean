import Flurbo.Contracts.Resolvers.AccountPilotResolver
import Flurbo.Library.Shares

-- What the constructors accept, and what a successful action does.

open Evm Except

-- Transfers leave the balances of all other accounts alone.
structure Token.Confined (T : Token) : Prop where
  transfer     : ∀ {t t' a a' n b}, T.safeTransfer t a a' n = .ok t' → b ≠ a → b ≠ a' →
                   T.balanceOf t' b = T.balanceOf t b
  transferFrom : ∀ {t t' s a a' n b}, T.safeTransferFrom t s a a' n = .ok t' → b ≠ a → b ≠ a' →
                   T.balanceOf t' b = T.balanceOf t b

theorem Token.standard_confined (decimals : ℕ) : (Token.standard decimals).Confined := by
  have h {b b' : Balances} {a a' x : Address} {n : ℕ} (h : b.transfer a a' n = .ok b') (ha : x ≠ a)
      (ha' : x ≠ a') : b'.of x = b.of x := by
    unfold Balances.transfer at h
    split at h
    case isFalse => cases h
    case isTrue  =>
      cases h
      simp [Balances.move, Function.update_of_ne ha, Function.update_of_ne ha']
  exact ⟨h, h⟩

namespace Resolvers

variable {D : Dependencies} {ε ρ : Type}

-- A resolver as it was deployed, with what its kind adds to the storage at first.
inductive Deployed (D : Dependencies) : {ε ρ : Type} → Variant D ε ρ → Resolver → ε → Prop
  | pilot {chain self sender rulesHash c r}
    (h : PilotResolver.construct chain self sender rulesHash c = .ok r) :
    Deployed D (PilotResolver.variant D) r ()
  | account {chain self sender rulesHash c r crypto authority}
    (h : AccountPilotResolver.construct chain self sender rulesHash c authority = .ok r) :
    Deployed D (AccountPilotResolver.variant crypto authority) r fun _ => false

section Construct

variable {refused : List Address} {chain : Chain} {self sender : Address} {rulesHash : ℕ} {c : Config}
  {r : Resolver}

structure Resolver.Accepted (r : Resolver) : Prop where
  events_ge  : 2 ≤ r.eventCount
  events_le  : r.eventCount ≤ 4
  length     : r.observationEnds.length = r.eventCount
  bond_pos   : 0 < r.bond
  panel      : r.reviewers.length = 3 ∨ r.reviewers.length = 5
  nodup      : r.reviewers.Nodup
  ends       : ∀ (i e : ℕ), r.observationEnds[i]? = some e → r.closesAt < e ∧
                 e + r.assertionPeriod + r.challengePeriod + r.votingPeriod < 2 ^ 64

theorem checkReviewers_nodup {known known' reviewers : List Address}
    (h : reviewers.foldlM (fun known reviewer => do
      revertIf (refused.contains reviewer ∨ known.contains reviewer) .invalidConfig
      return reviewer :: known) known = .ok known') :
    reviewers.Nodup ∧ ∀ reviewer ∈ reviewers, reviewer ∉ refused ∧ reviewer ∉ known := by
  induction reviewers generalizing known
  case nil                 => simp
  case cons a reviewers hi =>
    simp only [List.foldlM_cons, bind_eq_ok, revertIf_eq_ok, pure_eq_ok, ok.injEq, not_or] at h
    obtain ⟨_, ⟨_, hn, rfl⟩, h⟩ := h
    simp only [List.contains_iff_mem] at hn
    obtain ⟨hd, hk⟩ := hi h
    refine ⟨List.nodup_cons.mpr ⟨fun ha => ?_, hd⟩, ?_⟩
    · exact (hk a ha).right List.mem_cons_self
    · rintro b (_ | ⟨_, hb⟩)
      · exact hn
      · exact ⟨(hk b hb).left, fun hk' => (hk b hb).right (List.mem_cons_of_mem _ hk')⟩

theorem checkEvents_ends (h : checkEvents c = .ok ()) (hl : c.observationEnds.length = c.eventHashes.length)
    (i e : ℕ) (hi : c.observationEnds[i]? = some e) :
    c.closesAt < e ∧ e + c.assertionPeriod + c.challengePeriod + c.votingPeriod < 2 ^ 64 := by
  have hlt : i < c.eventHashes.length := hl ▸ (List.getElem?_eq_some_iff.mp hi).1
  have hc := forM_mem h (List.mem_range.mpr hlt)
  simp only [bind_eq_ok, nth_eq_ok, hi, Option.some.injEq, revertIf_eq_ok, not_or, not_le] at hc
  obtain ⟨_, _, _, rfl, _, ⟨_, h₁, h₂⟩, _⟩ := hc
  exact ⟨h₁, h₂⟩

theorem construct_accepted (h : construct refused chain self sender rulesHash c = .ok r) :
    r.Accepted ∧ r.self = self ∧ r.creator = sender ∧ r.rulesHash = rulesHash ∧ r.toConfig = c := by
  simp only [construct, bind_eq_ok, revertIf_eq_ok, pure_eq_ok, ok.injEq, not_or, not_lt, not_not,
    not_and_or] at h
  obtain ⟨_, ⟨_, _, _, _, h₁, h₂, h₃, h₄, h₅, _⟩, _, he, known, hr, rfl⟩ := h
  refine ⟨⟨h₁, h₂, h₃.symm, Nat.pos_of_ne_zero h₅, h₄, (checkReviewers_nodup hr).left, ?_⟩,
    rfl, rfl, rfl, rfl⟩
  exact fun i e hi => checkEvents_ends he h₃.symm i e hi

theorem Deployed.accepted {V : Variant D ε ρ} {ext : ε} (h : Deployed D V r ext) : r.Accepted := by
  cases h
  case pilot h   => exact (construct_accepted h).left
  case account h =>
    simp only [AccountPilotResolver.construct, bind_eq_ok] at h
    obtain ⟨_, _, h⟩ := h
    exact (construct_accepted h).left

end Construct

section Functions

variable {site : Site} {tx : Tx site} {w w' : World D ε} {r : Resolver} {c c' : Case} {i : ℕ}
  {outcome : Outcome} {timedOut : Bool} {s s' : Storage ε} {token : D.collateral.State}

-- A bond that came in, and one that went out.

structure Taken (site : Site) (t t' : D.collateral.State) : Prop where
  resolver : D.collateral.balanceOf t' site.resolver.self =
               D.collateral.balanceOf t site.resolver.self + site.resolver.bond
  pool     : D.collateral.balanceOf t' site.pool.self = D.collateral.balanceOf t site.pool.self

structure Repaid (site : Site) (amount : ℕ) (t t' : D.collateral.State) : Prop where
  resolver : D.collateral.balanceOf t' site.resolver.self + amount =
               D.collateral.balanceOf t site.resolver.self
  pool     : D.collateral.balanceOf t' site.pool.self = D.collateral.balanceOf t site.pool.self

theorem requireActive_eq_ok {u : Unit} :
    requireActive w = .ok u ↔ w.resolver.pool ≠ none ∧ w.pool.funded ∧ w.resolver.delivered = false := by
  simp [requireActive, not_or]

theorem takeBond_eq_ok (hT : D.collateral.Confined) (h : takeBond site tx w = .ok w') :
    ∃ token, Taken site w.token token ∧ w' = { w with
      token, resolver := { w.resolver with lockedBonds := w.resolver.lockedBonds + site.resolver.bond } } := by
  simp only [takeBond, bind_eq_ok, revertIf_eq_ok, checkedAdd_eq_ok, pure_eq_ok, ok.injEq, not_not] at h
  obtain ⟨token, ht, _, ⟨_, rfl⟩, _, hs, _, _, _, _, _, ⟨_, rfl⟩, rfl⟩ := h
  exact ⟨token, ⟨hs, hT.transferFrom ht tx.ne_pool.symm site.ne.symm⟩, rfl⟩

theorem assertionDeadline_eq_ok {deadline : ℕ} :
    assertionDeadline r i = .ok deadline ↔ ∃ e, r.observationEnds[i]? = some e ∧
      e + r.assertionPeriod < 2 ^ 64 ∧ e + r.assertionPeriod = deadline := by
  simp [assertionDeadline]

-- Who takes how much of the bonds of a case.
def shares (r : Resolver) (c : Case) (outcome : Outcome) (timedOut : Bool) : List (Address × ℕ) :=
  match c.phase with
  | .asserted => [(c.asserter, r.bond)]
  | .disputed =>
    if ¬ timedOut ∧ outcome = c.proposal then [(c.asserter, r.bond * 2)]
    else if ¬ timedOut ∧ outcome = c.counter then [(c.disputer, r.bond * 2)]
    else [(c.asserter, r.bond), (c.disputer, r.bond)]
  | _         => []

theorem total_shares : Shares.total (shares r c outcome timedOut) = stake r c.phase := by
  unfold shares stake
  cases c.phase <;> simp only []
  case disputed => split_ifs <;> simp [Nat.mul_two]
  all_goals simp

theorem shares_owner {share : Address × ℕ} (h : share ∈ shares r c outcome timedOut) :
    (share.1 = c.asserter ∨ share.1 = c.disputer) ∧ (c.phase = .asserted ∨ c.phase = .disputed) := by
  unfold shares at h
  cases hp : c.phase <;> simp only [hp] at h
  case pending   => cases h
  case finalized => cases h
  case asserted  => exact ⟨.inl (by rw [List.mem_singleton.mp h]), .inl rfl⟩
  case disputed  =>
    refine ⟨?_, .inr rfl⟩
    split_ifs at h
    · exact .inl (by rw [List.mem_singleton.mp h])
    · exact .inr (by rw [List.mem_singleton.mp h])
    · rcases List.mem_cons.mp h with rfl | h
      · exact .inl rfl
      · exact .inr (by rw [List.mem_singleton.mp h])

theorem award_eq_ok {credits credits' : Address → ℕ}
    (hp : c.phase = .asserted ∨ c.phase = .disputed)
    (h : award r c outcome timedOut (stake r c.phase) credits = .ok credits') :
    credits' = Shares.add credits (shares r c outcome timedOut) := by
  have hcredit {f g : Address → ℕ} {a : Address} {n : ℕ} (h : credit f a n = .ok g) :
      g = Shares.add f [(a, n)] := by
    simp only [credit, bind_eq_ok, checkedAdd_eq_ok, pure_eq_ok, ok.injEq] at h
    obtain ⟨_, ⟨_, rfl⟩, rfl⟩ := h
    rfl
  rcases hp with hp | hp
  · simp only [award, shares, stake, hp, true_or, if_true] at h ⊢
    exact hcredit h
  · simp only [award, shares, stake, hp, reduceCtorEq, false_or] at h ⊢
    split_ifs at h ⊢
    · exact hcredit h
    · exact hcredit h
    · simp only [bind_eq_ok] at h
      obtain ⟨mid, h₁, h₂⟩ := h
      rw [hcredit h₂, hcredit h₁]
      rfl

-- The end of a case.
structure Finished (r : Resolver) (i : ℕ) (c : Case) (outcome : Outcome) (timedOut : Bool)
    (s s' : Storage ε) : Prop where
  stake_le : stake r c.phase ≤ s.lockedBonds
  eq       : s' = { s with
               lockedBonds  := s.lockedBonds - stake r c.phase
               totalCredits := s.totalCredits + stake r c.phase
               credits      := Shares.add s.credits (shares r c outcome timedOut)
               cases        := s.cases.set i { c with phase := .finalized, result := outcome } }

theorem stake_pos (hb : 0 < r.bond) : stake r c.phase ≠ 0 ↔ c.phase = .asserted ∨ c.phase = .disputed := by
  unfold stake
  cases c.phase <;> simp
  all_goals omega

theorem settle_eq_ok {credited : ℕ × (Address → ℕ)} (hb : 0 < r.bond)
    (h : settle r c outcome timedOut s = .ok credited) :
    credited = (s.totalCredits + stake r c.phase, Shares.add s.credits (shares r c outcome timedOut)) := by
  simp only [settle] at h
  split at h
  case isTrue hz =>
    simp only [bind_eq_ok, checkedAdd_eq_ok, pure_eq_ok, ok.injEq] at h
    obtain ⟨_, ⟨_, rfl⟩, credits, ha, rfl⟩ := h
    rw [award_eq_ok ((stake_pos hb).mp hz) ha]
  case isFalse hz =>
    have hs : shares r c outcome timedOut = [] := by
      by_contra hn
      obtain ⟨share, hm⟩ := List.exists_mem_of_ne_nil _ hn
      exact hz ((stake_pos hb).mpr (shares_owner hm).right)
    cases h
    rw [hs, not_not.mp hz]
    rfl

theorem finish_eq_ok (hb : 0 < r.bond) (h : finish r i c outcome timedOut s = .ok s') :
    Finished r i c outcome timedOut s s' := by
  simp only [finish, bind_eq_ok, checkedSub_eq_ok, pure_eq_ok, ok.injEq] at h
  obtain ⟨_, ⟨hle, rfl⟩, credited, hc, rfl⟩ := h
  exact ⟨hle, by rw [settle_eq_ok hb hc]⟩

-- Nothing overflows if every account is credited at most what is credited in total.
theorem finish_ok (hle : stake r c.phase ≤ s.lockedBonds)
    (hlt : s.totalCredits + stake r c.phase < 2 ^ 256) (hc : ∀ a, s.credits a ≤ s.totalCredits) :
    ∃ s', finish r i c outcome timedOut s = .ok s' := by
  have hcredit {f : Address → ℕ} {a : Address} {n : ℕ} (h : f a + n < 2 ^ 256) :
      credit f a n = .ok (Function.update f a (f a + n)) := by
    rw [credit, checkedAdd_eq_ok.mpr ⟨h, rfl⟩]
    rfl
  have hsettle : ∃ credited, settle r c outcome timedOut s = .ok credited := by
    unfold settle
    simp only []
    split
    case isFalse   => exact ⟨_, rfl⟩
    case isTrue hz =>
      rw [checkedAdd_eq_ok.mpr ⟨hlt, rfl⟩, ok_bind]
      suffices h : ∃ credits, award r c outcome timedOut (stake r c.phase) s.credits = .ok credits by
        have ⟨credits, h⟩ := h
        exact ⟨_, by rw [h]; rfl⟩
      cases hp : c.phase
      case pending   => simp [stake, hp] at hz
      case finalized => simp [stake, hp] at hz
      case asserted  =>
        have := hc c.asserter
        rw [hp] at hlt
        exact ⟨_, by simp only [award, hp, true_or, if_true]; exact hcredit (by omega)⟩
      case disputed  =>
        have h₁ := hc c.asserter
        have h₂ := hc c.disputer
        simp only [hp, stake] at hlt
        simp only [award, hp, stake, reduceCtorEq, false_or]
        split_ifs
        · exact ⟨_, hcredit (by omega)⟩
        · exact ⟨_, hcredit (by omega)⟩
        · rw [hcredit (by omega), ok_bind]
          refine ⟨_, hcredit ?_⟩
          by_cases he : c.disputer = c.asserter
          case pos => rw [he, Function.update_self]; omega
          case neg => rw [Function.update_of_ne he]; omega
  have ⟨credited, h⟩ := hsettle
  exact ⟨_, by rw [finish, checkedSub_eq_ok.mpr ⟨hle, rfl⟩, ok_bind, h]; rfl⟩

end Functions

section Stepped

def World.at (w : World D ε) (timestamp : ℕ) : World D ε := { w with now := timestamp }

-- The conditions under which the resolver takes the pool as its own.
structure Matching (site : Site) : Prop where
  resolver   : site.pool.resolver = site.resolver.self
  rulesHash  : site.pool.settlementRulesHash = site.resolver.rulesHash
  collateral : site.pool.collateral = site.resolver.collateral
  eventCount : site.pool.eventCount = site.resolver.eventCount
  closesAt   : site.pool.closesAt = site.resolver.closesAt

structure Active (w : World D ε) : Prop where
  bound       : w.resolver.pool ≠ none
  funded      : w.pool.funded
  undelivered : w.resolver.delivered = false

def Case.assert (c : Case) (outcome : Outcome) (asserter : Address) (evidenceHash challengeUntil : ℕ) :
    Case :=
  { c with phase := .asserted, proposal := outcome, asserter, evidenceHash, challengeUntil }

def Case.dispute (c : Case) (alternative : Outcome) (disputer : Address)
    (counterEvidenceHash voteUntil : ℕ) : Case :=
  { c with phase := .disputed, counter := alternative, disputer, counterEvidenceHash, voteUntil }

def Case.count (c : Case) (outcome : Outcome) : Case :=
  { c with votes := Function.update c.votes outcome (c.votes outcome + 1) }

def Storage.mark (s : Storage ε) (i : ℕ) (reviewer : Address) (c : Case) : Storage ε :=
  { s with
    voted := Function.update s.voted i (Function.update (s.voted i) reviewer true)
    cases := s.cases.set i c }

def Storage.lock (s : Storage ε) (bond i : ℕ) (c : Case) : Storage ε :=
  { s with lockedBonds := s.lockedBonds + bond, cases := s.cases.set i c }

-- The conditions of a vote.
structure Voting (site : Site) (tx : Tx site) (w : World D ε) (i : ℕ) (outcome : Outcome) (c : Case) :
    Prop where
  case_eq  : w.resolver.cases[i]? = some c
  phase    : c.phase = .disputed
  before   : tx.timestamp < c.voteUntil
  reviewer : tx.sender ∈ site.resolver.reviewers
  unvoted  : w.resolver.voted i tx.sender = false
  outcome  : outcome ≠ .unset

structure Asserting (site : Site) (tx : Tx site) (w : World D ε) (i : ℕ) (outcome : Outcome) (c : Case)
    (observationEnd : ℕ) : Prop where
  active  : Active w
  case_eq : w.resolver.cases[i]? = some c
  end_eq  : site.resolver.observationEnds[i]? = some observationEnd
  phase   : c.phase = .pending
  after   : observationEnd ≤ tx.timestamp
  before  : tx.timestamp < observationEnd + site.resolver.assertionPeriod
  sender  : tx.sender ∉ site.resolver.reviewers
  outcome : outcome ≠ .unset

structure Disputing (site : Site) (tx : Tx site) (w : World D ε) (d : Challenge) (c : Case) : Prop where
  active  : Active w
  case_eq : w.resolver.cases[d.eventIndex]? = some c
  phase   : c.phase = .asserted
  before  : tx.timestamp < c.challengeUntil
  differs : d.alternative ≠ c.proposal
  sender  : tx.sender ∉ site.resolver.reviewers ∧ tx.sender ≠ c.asserter
  outcome : d.alternative ≠ .unset

-- What each of the actions did.
inductive Stepped (V : Variant D ε ρ) (site : Site) (w : World D ε) :
    Action D site ρ → World D ε → Prop
  | bound {tx target} (unbound : w.resolver.pool = none) (matching : Matching site) :
    Stepped V site w (.call tx (.bindPool target))
      { w with now := tx.timestamp, resolver := { w.resolver with pool := some target } }
  | asserted {tx i outcome hash uri c observationEnd token}
    (h : Asserting site tx w i outcome c observationEnd) (taken : Taken site w.token token) :
    Stepped V site w (.call tx (.assertOutcome i outcome hash uri)) { w with
      now := tx.timestamp, token, resolver := w.resolver.lock site.resolver.bond i <|
        c.assert outcome tx.sender hash (truncate 64 (tx.timestamp + site.resolver.challengePeriod)) }
  | disputed {tx d permit c token ext} (h : Disputing site tx w d c)
    (check : V.check site tx (w.at tx.timestamp) d c permit = .ok ext)
    (taken : Taken site w.token token) :
    Stepped V site w (.call tx (.dispute d permit)) { w with
      now := tx.timestamp, token, resolver := { w.resolver with ext }.lock site.resolver.bond
        d.eventIndex (c.dispute d.alternative tx.sender d.evidenceHash
          (truncate 64 (tx.timestamp + site.resolver.votingPeriod))) }
  | voted {tx i outcome hash uri c} (h : Voting site tx w i outcome c)
    (count : c.votes outcome + 1 ≠ site.resolver.quorum) :
    Stepped V site w (.call tx (.vote i outcome hash uri)) { w with
      now := tx.timestamp, resolver := w.resolver.mark i tx.sender (c.count outcome) }
  | decided {tx i outcome hash uri c s} (h : Voting site tx w i outcome c)
    (count : c.votes outcome + 1 = site.resolver.quorum)
    (finished : Finished site.resolver i (c.count outcome) outcome false
      (w.resolver.mark i tx.sender (c.count outcome)) s) :
    Stepped V site w (.call tx (.vote i outcome hash uri)) { w with now := tx.timestamp, resolver := s }
  | finalized {tx i c observationEnd outcome timedOut s} (active : Active w)
    (case_eq : w.resolver.cases[i]? = some c)
    (end_eq : site.resolver.observationEnds[i]? = some observationEnd)
    (due : conclusion c (observationEnd + site.resolver.assertionPeriod) tx.timestamp =
      .ok (outcome, timedOut))
    (finished : Finished site.resolver i c outcome timedOut w.resolver s) :
    Stepped V site w (.call tx (.finalize i)) { w with now := tx.timestamp, resolver := s }
  | delivered {tx yesMask invalidMask resolved} (active : Active w)
    (masks_eq : masks site.resolver w.resolver.cases = .ok (yesMask, invalidMask))
    (resolve : Pools.PilotPool.resolve site.pool
      ⟨site.resolver.self, tx.timestamp, site.ne, site.resolver_ne_0⟩ yesMask invalidMask
      ⟨w.token, w.pool⟩ = .ok resolved) :
    Stepped V site w (.call tx .deliver) { w with
      now := tx.timestamp, pool := resolved.pool, resolver := { w.resolver with delivered := true } }
  | withdrawn {tx token} (pos : w.resolver.credits tx.sender ≠ 0)
    (le : w.resolver.credits tx.sender ≤ w.resolver.totalCredits)
    (repaid : Repaid site (w.resolver.credits tx.sender) w.token token) :
    Stepped V site w (.call tx .withdrawBond) { w with
      now := tx.timestamp, token, resolver := { w.resolver with
        credits      := Function.update w.resolver.credits tx.sender 0
        totalCredits := w.resolver.totalCredits - w.resolver.credits tx.sender } }
  | pool {tx call w'} (donation : isDonation call = false)
    (h : Pools.PilotPool.step site.pool ⟨w.token, w.pool⟩ (tx.toPool, call) = .ok w') :
    Stepped V site w (.pool tx call) { w with now := tx.timestamp, token := w'.token, pool := w'.pool }
  | collateral {token}
    (resolver : w.balance site.resolver.self ≤ D.collateral.balanceOf token site.resolver.self)
    (pool : w.balance site.pool.self ≤ D.collateral.balanceOf token site.pool.self) :
    Stepped V site w (.collateral token) { w with token }

variable {V : Variant D ε ρ} {site : Site} {w w' : World D ε} {a : Action D site ρ}

-- Times never go back.
def Action.timestamp : Action D site ρ → Option ℕ
  | .call tx _     => some tx.timestamp
  | .pool tx _     => some tx.timestamp
  | .collateral _  => none

theorem advance_eq_ok {timestamp : ℕ} :
    advance w timestamp = .ok w' ↔ w.now ≤ timestamp ∧ w.at timestamp = w' := by
  simp [advance, World.at]

theorem checkEvidence_eq_ok {outcome : Outcome} {hash : ℕ} {uri : List UInt8} {u : Unit}
    (h : checkEvidence outcome hash uri = .ok u) : outcome ≠ .unset := by
  simp only [checkEvidence, bind_eq_ok, revertIf_eq_ok] at h
  obtain ⟨_, h, _⟩ := h
  exact h

theorem Active.of_ok {u : Unit} {w : World D ε} (h : requireActive w = .ok u) : Active w :=
  have ⟨h₁, h₂, h₃⟩ := requireActive_eq_ok.mp h
  ⟨h₁, h₂, h₃⟩

theorem perform_stepped {tx : Tx site} {call : Call ρ} (hT : D.collateral.Confined)
    (hb : 0 < site.resolver.bond) (h : perform V site tx (w.at tx.timestamp) call = .ok w') :
    Stepped V site w (.call tx call) w' := by
  cases call
  case bindPool target =>
    simp only [perform, bindPool, bind_eq_ok, revertIf_eq_ok, pure_eq_ok, ok.injEq, not_or, not_not] at h
    obtain ⟨_, _, _, ⟨hn, _⟩, _, ⟨h₁, h₂, h₃, h₄, h₅⟩, rfl⟩ := h
    exact .bound hn ⟨h₁, h₂, h₃, h₄, h₅⟩
  case assertOutcome i outcome hash uri =>
    simp only [perform, assertOutcome, bind_eq_ok, revertIf_eq_ok, nth_eq_ok, assertionDeadline_eq_ok,
      checkedAdd_eq_ok, pure_eq_ok, ok.injEq, not_or, not_not, not_lt, not_le, List.contains_iff_mem] at h
    obtain ⟨_, hact, _, hev, _, hs, c, hc, e, he, _, ⟨e', he', _, rfl⟩, _, ⟨hp, h₁, h₂⟩, w₁, hbond, _,
      ⟨_, rfl⟩, rfl⟩ := h
    cases he.symm.trans he'
    obtain ⟨token, ht, rfl⟩ := takeBond_eq_ok hT hbond
    have hact := Active.of_ok hact
    exact .asserted ⟨⟨hact.bound, hact.funded, hact.undelivered⟩, hc, he, hp, h₁, h₂, hs,
      checkEvidence_eq_ok hev⟩ ht
  case dispute d permit =>
    simp only [perform, dispute, bind_eq_ok, revertIf_eq_ok, nth_eq_ok, checkedAdd_eq_ok, pure_eq_ok,
      ok.injEq, not_or, not_not, not_le, List.contains_iff_mem] at h
    obtain ⟨_, hact, _, hev, c, hc, _, hs, _, ⟨hp, h₁, h₂⟩, ext, hx, w₁, hbond, _, ⟨_, rfl⟩, rfl⟩ := h
    obtain ⟨token, ht, rfl⟩ := takeBond_eq_ok hT hbond
    have hact := Active.of_ok hact
    exact .disputed ⟨⟨hact.bound, hact.funded, hact.undelivered⟩, hc, hp, h₁, h₂, hs,
      checkEvidence_eq_ok hev⟩ hx ht
  case vote i outcome hash uri =>
    simp only [perform, vote, bind_eq_ok, revertIf_eq_ok, nth_eq_ok, checkedAdd_eq_ok, pure_eq_ok,
      ok.injEq, not_or, not_not, not_le, List.contains_iff_mem, Bool.not_eq_true] at h
    obtain ⟨_, hev, _, ⟨hr, hv⟩, c, hc, _, ⟨hp, hu⟩, count, ⟨_, rfl⟩, s, hs, rfl⟩ := h
    have hvote : Voting site tx w i outcome c := ⟨hc, hp, hu, hr, hv, checkEvidence_eq_ok hev⟩
    unfold closeVote at hs
    split at hs
    case isTrue hq  => exact .decided hvote hq (finish_eq_ok hb hs)
    case isFalse hq =>
      cases hs
      exact .voted hvote hq
  case finalize i =>
    simp only [perform, finalize, bind_eq_ok, nth_eq_ok, assertionDeadline_eq_ok, pure_eq_ok, ok.injEq,
      Prod.exists] at h
    obtain ⟨_, hact, c, hc, _, ⟨e, he, _, rfl⟩, outcome, timedOut, hd, s, hs, rfl⟩ := h
    have hact := Active.of_ok hact
    exact .finalized ⟨hact.bound, hact.funded, hact.undelivered⟩ hc he hd (finish_eq_ok hb hs)
  case deliver =>
    simp only [perform, deliver, bind_eq_ok, pure_eq_ok, ok.injEq, Prod.exists] at h
    obtain ⟨_, hact, yesMask, invalidMask, hm, resolved, hr, rfl⟩ := h
    have hact := Active.of_ok hact
    exact .delivered ⟨hact.bound, hact.funded, hact.undelivered⟩ hm hr
  case withdrawBond =>
    simp only [perform, withdrawBond, bind_eq_ok, revertIf_eq_ok, checkedAdd_eq_ok, checkedSub_eq_ok,
      pure_eq_ok, ok.injEq, not_not] at h
    obtain ⟨_, hz, _, ⟨hle, rfl⟩, token, ht, _, ⟨_, rfl⟩, _, hs, _, ⟨_, rfl⟩, _, _, rfl⟩ := h
    exact .withdrawn hz hle ⟨hs, hT.transfer ht site.ne.symm tx.ne_pool.symm⟩

theorem step_eq_ok (hT : D.collateral.Confined) (hb : 0 < site.resolver.bond)
    (h : step V site w a = .ok w') :
    Stepped V site w a w' ∧ ∀ timestamp, a.timestamp = some timestamp → w.now ≤ timestamp := by
  cases a
  case call tx call =>
    simp only [step, bind_eq_ok, advance_eq_ok] at h
    obtain ⟨_, ⟨ht, rfl⟩, h⟩ := h
    exact ⟨perform_stepped hT hb h, fun _ he => by cases he; exact ht⟩
  case pool tx call =>
    simp only [step, bind_eq_ok, advance_eq_ok, revertIf_eq_ok, pure_eq_ok, ok.injEq,
      Bool.not_eq_true] at h
    obtain ⟨_, ⟨ht, rfl⟩, _, hd, w₁, h, rfl⟩ := h
    exact ⟨.pool hd h, fun _ he => by cases he; exact ht⟩
  case collateral token =>
    simp only [step, moveCollateral, bind_eq_ok, revertIf_eq_ok, pure_eq_ok, ok.injEq, not_or,
      not_lt] at h
    obtain ⟨_, ⟨h₁, h₂⟩, rfl⟩ := h
    exact ⟨.collateral h₁ h₂, fun _ he => by cases he⟩

end Stepped

end Resolvers
