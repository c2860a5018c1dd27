import Flurbo.Server.Proposals

-- The lifecycle of proposals: what holds of each, how each moves on, and that one decision has one
-- proposal that blocks, as long as late hashes are recorded only where nothing else does.

namespace Agents

section Definitions

-- Transactions are tracked one at a time, for reviews that were issued, and one purchase is owned.
structure Proposal.Well (p : Proposal) : Prop where
  hashes    : (p.transactions.map (·.hash)).Nodup
  tracked   : (p.transactions.filter (·.status = .submitted)).length ≤ 1
  owned     : (p.transactions.filter (·.owned)).length ≤ 1
  issued    : ∀ tx ∈ p.transactions, tx.review ∈ p.reviews
  fresh     : p.status = .preparing → p.reviews = []
  submitted : p.status = .submitted ↔ p.hasSubmitted
  confirmed : p.status = .confirmed ↔ p.ownsPurchase
  before    : ∀ tx ∈ p.transactions, tx.status = .submitted →
    ∃ st ∈ tx.statusBefore, st ≠ .preparing ∧ st ≠ .submitted ∧ st ≠ .confirmed

-- How one proposal moves on.
structure Proposal.Moves (p p' : Proposal) : Prop where
  id       : p'.id = p.id
  decision : p'.decisionId = p.decisionId
  version  : p.version ≤ p'.version
  same     : p'.version = p.version → p'.status = p.status ∧ p'.transactions = p.transactions ∧
    p'.review = p.review ∧ p'.reviews = p.reviews
  reserved : p'.status = .preparing → p.status = .preparing ∧ p'.reservedUntil = p.reservedUntil
  reviews  : p.reviews <+: p'.reviews
  owned    : p.ownsPurchase → p'.ownsPurchase

-- What holds of the proposals of an agent at a time, with ids below `drawn`.
structure Good (now : ℤ) (drawn : ℕ) (ps : List Proposal) : Prop where
  well   : ∀ p ∈ ps, p.Well
  ids    : (ps.map (·.id)).Nodup
  drawn  : ∀ p ∈ ps, p.id < drawn
  single : ∀ p ∈ ps, ∀ q ∈ ps, p.decisionId = q.decisionId → p.blocksDecision now →
    q.blocksDecision now → p = q

-- Proposals only move on, new ones have new ids, and those with a review stay.
structure Follows (drawn : ℕ) (ps ps' : List Proposal) : Prop where
  old  : ∀ p' ∈ ps', p'.id < drawn → ∃ p ∈ ps, p.Moves p'
  kept : ∀ p ∈ ps, p.reviews ≠ [] → ∃ p' ∈ ps', p.Moves p'

end Definitions

section Moves

variable {p p' p'' : Proposal} {now now' : ℤ}

theorem Proposal.Moves.refl (p : Proposal) : p.Moves p :=
  ⟨rfl, rfl, le_rfl, fun _ => ⟨rfl, rfl, rfl, rfl⟩, fun h => ⟨h, rfl⟩, List.prefix_rfl, fun h => h⟩

theorem Proposal.Moves.trans (h : p.Moves p') (h' : p'.Moves p'') : p.Moves p'' where
  id       := h'.id.trans h.id
  decision := h'.decision.trans h.decision
  version  := h.version.trans h'.version
  same hv  := by
    have hv' : p'.version = p.version := le_antisymm (hv ▸ h'.version) h.version
    have ⟨h₁, h₂, h₃, h₄⟩ := h.same hv'
    have ⟨h₁', h₂', h₃', h₄'⟩ := h'.same (hv.trans hv'.symm)
    exact ⟨h₁'.trans h₁, h₂'.trans h₂, h₃'.trans h₃, h₄'.trans h₄⟩
  reserved hp := by
    have ⟨hp', hr'⟩ := h'.reserved hp
    have ⟨hp, hr⟩ := h.reserved hp'
    exact ⟨hp, hr'.trans hr⟩
  reviews := h.reviews.trans h'.reviews
  owned ho := h'.owned (h.owned ho)

theorem blocksDecision_iff : p.blocksDecision now ↔ p.reserving now ∨
    p.status = .awaitingApproval ∨ p.status = .submitted ∨ p.status = .approvalConfirmed ∨
    p.status = .confirmed := by
  simp [Proposal.blocksDecision]

theorem reserving_iff : p.reserving now ↔ p.status = .preparing ∧ ∃ u ∈ p.reservedUntil, now < u := by
  simp [Proposal.reserving, Option.any_eq_true]

-- Reservations lapse with time.
theorem blocksDecision_antitone (hn : now ≤ now') (h : p.blocksDecision now') : p.blocksDecision now := by
  rw [blocksDecision_iff, reserving_iff] at h ⊢
  exact h.imp_left fun ⟨hp, u, hu, hlt⟩ => ⟨hp, u, hu, hn.trans_lt hlt⟩

theorem Proposal.Moves.compact (p : Proposal) : p.Moves p.compact :=
  ⟨rfl, rfl, le_rfl, fun _ => ⟨rfl, rfl, rfl, rfl⟩, fun h => ⟨h, rfl⟩, List.prefix_rfl, fun h => h⟩

theorem Proposal.Well.compact (h : p.Well) : p.compact.Well :=
  ⟨h.hashes, h.tracked, h.owned, h.issued, h.fresh, h.submitted, h.confirmed, h.before⟩

theorem Proposal.Well.transactions_nil (h : p.Well) (hp : p.status = .preparing) : p.transactions = [] := by
  cases ht : p.transactions
  case nil         => rfl
  case cons tx txs => simpa [h.fresh hp] using h.issued tx (by simp [ht])

theorem Proposal.Well.lapse (h : p.Well) : (lapse now p).Well := by
  rw [Agents.lapse]
  split
  case isFalse => exact h
  case isTrue hl =>
    have ht := h.transactions_nil hl.left
    have ho : p.ownsPurchase = false := by simp [Proposal.ownsPurchase, ht]
    have hs : p.hasSubmitted = false := by simp [Proposal.hasSubmitted, ht]
    exact ⟨h.hashes, h.tracked, h.owned, h.issued, by simp, by simpa [Proposal.hasSubmitted] using hs,
      by simpa [Proposal.ownsPurchase] using ho, h.before⟩

theorem Proposal.Moves.lapse (p : Proposal) : p.Moves (lapse now p) := by
  rw [Agents.lapse]
  split
  case isFalse => exact .refl p
  case isTrue  =>
    exact ⟨rfl, rfl, Nat.le_succ _, fun h => absurd h (Nat.succ_ne_self _), by simp, List.prefix_rfl, fun h => h⟩

theorem blocksDecision_lapse (h : (lapse now p).blocksDecision now) : p.blocksDecision now := by
  rw [lapse] at h
  split at h
  case isFalse => exact h
  case isTrue  => simp [Proposal.blocksDecision, Proposal.reserving] at h

end Moves

section Follows

variable {ps ps' ps'' : List Proposal} {drawn drawn' : ℕ}

theorem Follows.refl (ps : List Proposal) : Follows drawn ps ps :=
  ⟨fun p hp _ => ⟨p, hp, .refl p⟩, fun p hp _ => ⟨p, hp, .refl p⟩⟩

theorem Follows.trans (hd : drawn ≤ drawn') (h : Follows drawn ps ps') (h' : Follows drawn' ps' ps'') :
    Follows drawn ps ps'' where
  old p'' hp hlt := by
    obtain ⟨p', hp', hm'⟩ := h'.old p'' hp (hlt.trans_le hd)
    obtain ⟨p, hp, hm⟩ := h.old p' hp' (hm'.id ▸ hlt)
    exact ⟨p, hp, hm.trans hm'⟩
  kept p hp hr := by
    obtain ⟨p', hp', hm⟩ := h.kept p hp hr
    obtain ⟨p'', hp'', hm'⟩ := h'.kept p' hp' fun he => hr (List.prefix_nil.mp (he ▸ hm.reviews))
    exact ⟨p'', hp'', hm.trans hm'⟩

end Follows

section Good

variable {ps : List Proposal} {p r r' : Proposal} {now now' : ℤ} {drawn drawn' : ℕ}

theorem Good.later (h : Good now drawn ps) (hn : now ≤ now') (hd : drawn ≤ drawn') :
    Good now' drawn' ps where
  well    := h.well
  ids     := h.ids
  drawn p hp := (h.drawn p hp).trans_le hd
  single p hp q hq he hb hb' :=
    h.single p hp q hq he (blocksDecision_antitone hn hb) (blocksDecision_antitone hn hb')

theorem Good.eq_of_id (h : Good now drawn ps) {p q : Proposal} (hp : p ∈ ps) (hq : q ∈ ps)
    (he : p.id = q.id) : p = q :=
  List.inj_on_of_nodup_map h.ids hp hq he

-- One proposal moves on. If it blocks afterwards, then no other one does.
theorem Good.put (h : Good now drawn ps) (hr : Records.find (·.id) r.id ps = some r)
    (hw : r'.Well) (hm : r.Moves r')
    (hb : r'.blocksDecision now → ∀ q ∈ ps, q.decisionId = r.decisionId → q.blocksDecision now → q = r) :
    Good now drawn (Records.change (·.id) r'.id (fun _ => r') ps) ∧
    Follows drawn ps (Records.change (·.id) r'.id (fun _ => r') ps) := by
  replace hr : Records.find (·.id) r'.id ps = some r := by rw [hm.id, hr]
  have hmem (a : Proposal) := Records.mem_change_iff (a := a) (f := fun _ => r') h.ids hr
  have hrps : r ∈ ps := Records.find_mem hr
  have hrest {q : Proposal} (hq : q ∈ ps) (hne : q.id ≠ r'.id) : q ≠ r := fun he => hne (he ▸ hm.id.symm)
  refine ⟨⟨?well, ?ids, ?drawn, ?single⟩, ?old, ?kept⟩
  case well   => exact fun p hp => ((hmem p).mp hp).elim (fun he => he ▸ hw) fun hp => h.well p hp.left
  case ids    => rw [Records.map_change hr rfl]; exact h.ids
  case drawn  =>
    exact fun p hp => ((hmem p).mp hp).elim (fun he => he ▸ hm.id ▸ h.drawn r hrps) fun hp => h.drawn p hp.left
  case single =>
    intro p hp q hq he hbp hbq
    rcases (hmem p).mp hp with rfl | ⟨hp', hpn⟩ <;> rcases (hmem q).mp hq with rfl | ⟨hq', hqn⟩
    · rfl
    · exact absurd (hb hbp q hq' (he ▸ hm.decision) hbq) (hrest hq' hqn)
    · exact absurd (hb hbq p hp' (he ▸ hm.decision) hbp) (hrest hp' hpn)
    · exact h.single p hp' q hq' he hbp hbq
  case old    =>
    intro p hp _
    rcases (hmem p).mp hp with rfl | ⟨hp, -⟩
    · exact ⟨r, hrps, hm⟩
    · exact ⟨p, hp, .refl p⟩
  case kept   =>
    intro p hp _
    by_cases he : p.id = r'.id
    · obtain rfl : p = r := h.eq_of_id hp hrps (he.trans hm.id)
      exact ⟨r', (hmem r').mpr (.inl rfl), hm⟩
    · exact ⟨p, (hmem p).mpr (.inr ⟨hp, he⟩), .refl p⟩

-- All proposals move on, and none blocks that did not.
theorem Good.map {f : Proposal → Proposal} (h : Good now drawn ps) (hw : ∀ p ∈ ps, (f p).Well)
    (hm : ∀ p : Proposal, p.Moves (f p)) (hb : ∀ p, (f p).blocksDecision now → p.blocksDecision now) :
    Good now drawn (ps.map f) ∧ Follows drawn ps (ps.map f) := by
  refine ⟨⟨?well, ?ids, ?drawn, ?single⟩, ?old, ?kept⟩
  case well   => exact List.forall_mem_map.mpr hw
  case ids    =>
    have he : (ps.map f).map (·.id) = ps.map (·.id) := by
      rw [List.map_map]
      exact List.map_congr_left fun p _ => (hm p).id
    exact he ▸ h.ids
  case drawn  => exact List.forall_mem_map.mpr fun p hp => (hm p).id ▸ h.drawn p hp
  case single =>
    refine List.forall_mem_map.mpr fun p hp => List.forall_mem_map.mpr fun q hq he hbp hbq => ?_
    rw [(hm p).decision, (hm q).decision] at he
    rw [h.single p hp q hq he (hb p hbp) (hb q hbq)]
  case old    => exact List.forall_mem_map.mpr fun p hp _ => ⟨p, hp, hm p⟩
  case kept   => exact fun p hp _ => ⟨f p, List.mem_map_of_mem hp, hm p⟩

-- A proposal is added for a decision that none blocks.
theorem Good.cons (h : Good now drawn ps) (hw : p.Well) (hp : p.id = drawn)
    (hb : ∀ q ∈ ps, q.decisionId = p.decisionId → ¬q.blocksDecision now) :
    Good now (drawn + 1) (p :: ps) ∧ Follows drawn ps (p :: ps) := by
  refine ⟨⟨?well, ?ids, ?drawn, ?single⟩, ?old, ?kept⟩
  case well   => exact List.forall_mem_cons.mpr ⟨hw, h.well⟩
  case ids    =>
    rw [List.map_cons, List.nodup_cons]
    refine ⟨fun hm => ?_, h.ids⟩
    obtain ⟨q, hq, he⟩ := List.mem_map.mp hm
    exact absurd (h.drawn q hq) (by omega)
  case drawn  => exact List.forall_mem_cons.mpr ⟨by omega, fun q hq => (h.drawn q hq).trans (by omega)⟩
  case single =>
    intro a ha b hb' he hba hbb
    rcases List.mem_cons.mp ha with rfl | ha' <;> rcases List.mem_cons.mp hb' with rfl | hb'
    · rfl
    · exact absurd hbb (hb b hb' he.symm)
    · exact absurd hba (hb a ha' he)
    · exact h.single a ha' b hb' he hba hbb
  case old    =>
    intro q hq hlt
    rcases List.mem_cons.mp hq with rfl | hq
    · exact absurd hlt (by omega)
    · exact ⟨q, hq, .refl q⟩
  case kept   => exact fun q hq _ => ⟨q, List.mem_cons_of_mem p hq, .refl q⟩

-- What is retained is a proposal or a compact one, and none with a review is missing.
theorem retainProposals_mem {k : ℕ} (h : p ∈ retainProposals now k ps) :
    ∃ q ∈ ps, p = q ∨ p = q.compact := by
  induction ps generalizing k
  case nil          => cases h
  case cons q ps hi =>
    have hrest {k : ℕ} (h : p ∈ retainProposals now k ps) : ∃ r ∈ q :: ps, p = r ∨ p = r.compact :=
      (hi h).imp fun r hr => ⟨List.mem_cons_of_mem q hr.left, hr.right⟩
    rw [retainProposals] at h
    split at h
    · exact (List.mem_cons.mp h).elim (fun he => ⟨q, List.mem_cons_self, .inl he⟩) hrest
    · split at h
      · exact (List.mem_cons.mp h).elim (fun he => ⟨q, List.mem_cons_self, .inl he⟩) hrest
      · split at h
        · exact hrest h
        · exact (List.mem_cons.mp h).elim (fun he => ⟨q, List.mem_cons_self, .inr he⟩) hrest

theorem mem_retainProposals {k : ℕ} (h : p ∈ ps) (hr : p.reviews ≠ []) :
    p ∈ retainProposals now k ps ∨ p.compact ∈ retainProposals now k ps := by
  induction ps generalizing k
  case nil          => cases h
  case cons q ps hi =>
    have hcons {a : Proposal} {l : List Proposal} (h : p ∈ l ∨ p.compact ∈ l) : p ∈ a :: l ∨ p.compact ∈ a :: l :=
      h.imp (List.mem_cons_of_mem a) (List.mem_cons_of_mem a)
    rw [retainProposals]
    rcases List.mem_cons.mp h with rfl | h
    · repeat' split
      · exact .inl List.mem_cons_self
      · exact .inl List.mem_cons_self
      · exact .inr List.mem_cons_self
    · repeat' split
      · exact hcons (hi h)
      · exact hcons (hi h)
      · exact hi h
      · exact hcons (hi h)

theorem retainProposals_ids {k : ℕ} : ((retainProposals now k ps).map (·.id)).Sublist (ps.map (·.id)) := by
  induction ps generalizing k
  case nil          => exact .refl _
  case cons q ps hi =>
    rw [retainProposals]
    repeat' split
    · exact hi.cons_cons _
    · exact hi.cons_cons _
    · exact hi.cons _
    · exact hi.cons_cons _

theorem Good.retain {k : ℕ} (h : Good now drawn ps) :
    Good now drawn (retainProposals now k ps) ∧ Follows drawn ps (retainProposals now k ps) := by
  have hb {p q : Proposal} (he : p = q ∨ p = q.compact) : p.blocksDecision now = q.blocksDecision now := by
    rcases he with rfl | rfl <;> rfl
  refine ⟨⟨fun p hp => ?well, h.ids.sublist retainProposals_ids, fun p hp => ?drawn, ?single⟩,
    fun p hp _ => ?old, fun p hp hr => ?kept⟩
  case well   =>
    obtain ⟨q, hq, rfl | rfl⟩ := retainProposals_mem hp
    · exact h.well p hq
    · exact (h.well q hq).compact
  case drawn  =>
    obtain ⟨q, hq, rfl | rfl⟩ := retainProposals_mem hp
    · exact h.drawn p hq
    · exact h.drawn q hq
  case single =>
    intro p hp q hq he hbp hbq
    obtain ⟨a, ha, hpa⟩ := retainProposals_mem hp
    obtain ⟨b, hb', hqb⟩ := retainProposals_mem hq
    have hid (p q : Proposal) (he : p = q ∨ p = q.compact) : p.id = q.id ∧ p.decisionId = q.decisionId := by
      rcases he with rfl | rfl <;> exact ⟨rfl, rfl⟩
    have hab : a = b := by
      refine h.single a ha b hb' ?_ (hb hpa ▸ hbp) (hb hqb ▸ hbq)
      rw [← (hid p a hpa).right, he, (hid q b hqb).right]
    have hids : ((retainProposals now k ps).map (·.id)).Nodup := h.ids.sublist retainProposals_ids
    exact List.inj_on_of_nodup_map hids hp hq (by rw [(hid p a hpa).left, hab, (hid q b hqb).left])
  case old    =>
    obtain ⟨q, hq, rfl | rfl⟩ := retainProposals_mem hp
    · exact ⟨p, hq, .refl p⟩
    · exact ⟨q, hq, .compact q⟩
  case kept   =>
    have hm : p ∈ retainProposals now k ps ∨ p.compact ∈ retainProposals now k ps := mem_retainProposals hp hr
    rcases hm with hm | hm
    · exact ⟨p, hm, .refl p⟩
    · exact ⟨p.compact, hm, .compact p⟩

end Good

section Transactions

theorem length_le_one_of_eq {α : Type} {l : List α} {a : α} (h : l.Nodup) (ha : ∀ x ∈ l, x = a) :
    l.length ≤ 1 := by
  rw [List.eq_replicate_of_mem ha] at h
  exact List.nodup_replicate.mp h

variable {r : Proposal} {tx done : Transaction}

theorem hasSubmitted_iff : r.hasSubmitted ↔ ∃ tx ∈ r.transactions, tx.status = .submitted := by
  simp [Proposal.hasSubmitted]

theorem ownsPurchase_iff : r.ownsPurchase ↔ ∃ tx ∈ r.transactions, tx.owned := by
  simp [Proposal.ownsPurchase]

theorem not_owned_of_submitted (h : tx.status = .submitted) : ¬tx.owned := by
  simp [Transaction.owned, h]

theorem filter_owned_nil (h : ¬r.ownsPurchase) : r.transactions.filter (·.owned) = [] := by
  rw [List.filter_eq_nil_iff]
  exact fun tx htx ho => h (ownsPurchase_iff.mpr ⟨tx, htx, ho⟩)

theorem Proposal.Well.not_owns_of_submitted (hw : r.Well) (h : r.hasSubmitted) : ¬r.ownsPurchase := by
  intro ho
  have hs := hw.submitted.mpr h
  rw [hw.confirmed.mpr ho] at hs
  cases hs

-- The one transaction that is tracked.
theorem Proposal.Well.eq_of_submitted (hw : r.Well) {tx' : Transaction} (htx : tx ∈ r.transactions)
    (hs : tx.status = .submitted) (htx' : tx' ∈ r.transactions) (hs' : tx'.status = .submitted) : tx' = tx := by
  have hl := hw.tracked
  have hm : tx ∈ r.transactions.filter (·.status = .submitted) := List.mem_filter.mpr ⟨htx, by simpa using hs⟩
  have hm' : tx' ∈ r.transactions.filter (·.status = .submitted) := List.mem_filter.mpr ⟨htx', by simpa using hs'⟩
  obtain ⟨a, ha⟩ := List.length_eq_one_iff.mp (le_antisymm hl (List.length_pos_of_mem hm))
  rw [ha, List.mem_singleton] at hm hm'
  rw [hm, hm']

-- What settling a transaction does to it.
structure Transaction.Settles (tx done : Transaction) : Prop where
  hash   : done.hash = tx.hash
  review : done.review = tx.review
  before : done.statusBefore = tx.statusBefore
  status : done.status ≠ .submitted

theorem addConfirmedPurchase_settles {live : Live} (h : done.status ≠ .submitted)
    (hd : tx.Settles done) : tx.Settles (addConfirmedPurchase live done).2 := by
  rw [addConfirmedPurchase]
  split
  · exact hd
  · exact ⟨hd.hash, hd.review, hd.before, h⟩

theorem settle_settles {live : Live} {own : Own} {status : TransactionStatus} {paidAtoms : Option ℕ}
    (h : status ≠ .submitted) : tx.Settles (settle r live own tx status paidAtoms).2.2 := by
  have hd : tx.Settles { tx with status, paidAtoms } := ⟨rfl, rfl, rfl, h⟩
  simp only [settle]
  split
  · exact hd
  · split
    · exact ⟨rfl, rfl, rfl, h⟩
    · split
      · exact addConfirmedPurchase_settles h hd
      · exact hd

theorem status_submitted {receipt : Receipt} {status : TransactionStatus} (h : receipt.status = some status) :
    status ≠ .submitted := by
  cases receipt <;> cases h <;> nofun

theorem resolve_hashes : (r.resolve done).transactions.map (·.hash) = r.transactions.map (·.hash) := by
  simp only [Proposal.resolve, List.map_map]
  refine List.map_congr_left fun x _ => ?_
  by_cases h : x.hash = done.hash
  · simp [h]
  · simp [h]

theorem resolve_status : (r.resolve done).status =
    if (r.resolve done).ownsPurchase then .confirmed
    else if done.attributedElsewhere then done.statusBefore.getD .attributedElsewhere
    else if done.status = .confirmed then .approvalConfirmed
    else .failed := rfl

section Resolve

variable (hw : r.Well) (htx : tx ∈ r.transactions) (hs : tx.status = .submitted) (hd : tx.Settles done)

include hw htx hs hd

theorem mem_resolve {x : Transaction} (hx : x ∈ (r.resolve done).transactions) :
    x = done ∨ x ∈ r.transactions ∧ x.status ≠ .submitted := by
  obtain ⟨y, hy, rfl⟩ := List.mem_map.mp hx
  split
  case isTrue  => exact .inl rfl
  case isFalse hne =>
    refine .inr ⟨hy, fun hsy => hne ?_⟩
    rw [hw.eq_of_submitted htx hs hy hsy, hd.hash]

theorem not_hasSubmitted_resolve : ¬(r.resolve done).hasSubmitted := by
  rw [hasSubmitted_iff]
  rintro ⟨x, hx, hsx⟩
  rcases mem_resolve hw htx hs hd hx with rfl | ⟨-, hne⟩
  · exact hd.status hsx
  · exact hne hsx

theorem owned_resolve {x : Transaction} (hx : x ∈ (r.resolve done).transactions) (ho : x.owned) : x = done := by
  refine (mem_resolve hw htx hs hd hx).resolve_right fun ⟨hm, _⟩ => ?_
  exact hw.not_owns_of_submitted (hasSubmitted_iff.mpr ⟨tx, htx, hs⟩) (ownsPurchase_iff.mpr ⟨x, hm, ho⟩)

theorem Proposal.Well.resolve : (r.resolve done).Well := by
  have hsub := hasSubmitted_iff.mpr ⟨tx, htx, hs⟩
  have hnot := not_hasSubmitted_resolve hw htx hs hd
  obtain ⟨st, hst, hp, hu, hc⟩ := hw.before tx htx hs
  have hbefore : done.statusBefore.getD .attributedElsewhere = st := by rw [hd.before, hst]; rfl
  have hstatus : (r.resolve done).status ≠ .submitted ∧ (r.resolve done).status ≠ .preparing ∧
      ((r.resolve done).status = .confirmed ↔ (r.resolve done).ownsPurchase) := by
    rw [resolve_status, hbefore]
    split
    case isTrue ho => exact ⟨nofun, nofun, fun _ => ho, fun _ => rfl⟩
    case isFalse ho =>
      split
      case isTrue  => exact ⟨hu, hp, fun h => absurd h hc, fun h => absurd h ho⟩
      case isFalse => split <;> exact ⟨nofun, nofun, nofun, fun h => absurd h ho⟩
  refine ⟨?hashes, ?tracked, ?owned, ?issued, ?fresh, ?submitted, hstatus.right.right, ?before⟩
  case hashes    => rw [resolve_hashes]; exact hw.hashes
  case tracked   =>
    have hn : (r.resolve done).transactions.filter (·.status = .submitted) = [] := by
      rw [List.filter_eq_nil_iff]
      exact fun x hx hsx => hnot (hasSubmitted_iff.mpr ⟨x, hx, by simpa using hsx⟩)
    simp [hn]
  case owned     =>
    have hn : (r.resolve done).transactions.Nodup :=
      List.Nodup.of_map (·.hash) (by rw [resolve_hashes]; exact hw.hashes)
    refine length_le_one_of_eq (a := done) (hn.filter _) fun x hx => ?_
    obtain ⟨hx, ho⟩ := List.mem_filter.mp hx
    exact owned_resolve hw htx hs hd hx ho
  case issued    =>
    intro x hx
    rcases mem_resolve hw htx hs hd hx with rfl | ⟨hx, -⟩
    · exact hd.review ▸ hw.issued tx htx
    · exact hw.issued x hx
  case fresh     => exact fun h => absurd h hstatus.right.left
  case submitted => exact ⟨fun h => absurd h hstatus.left, fun h => absurd h hnot⟩
  case before    =>
    intro x hx hsx
    exact absurd (hasSubmitted_iff.mpr ⟨x, hx, hsx⟩) hnot

end Resolve

end Transactions

section Changes

variable {r r' : Proposal} {cx : Context} {review : Review} {tx : Transaction}

-- A reservation that comes to nothing.
theorem Proposal.Well.withdraw {st : ProposalStatus} (hw : r.Well) (hp : r.status = .preparing)
    (hst : st = .preparationFailed ∨ st = .preparationExpired) (ht : r'.transactions = r.transactions)
    (hs : r'.status = st) : r'.Well := by
  have ht : r'.transactions = [] := ht.trans (hw.transactions_nil hp)
  have hne : r'.status ≠ .preparing ∧ r'.status ≠ .submitted ∧ r'.status ≠ .confirmed := by
    rcases hst with rfl | rfl <;> simp [hs]
  refine ⟨by simp [ht], by simp [ht], by simp [ht], by simp [ht], fun h => absurd h hne.left, ?_, ?_, by simp [ht]⟩
  · simp [Proposal.hasSubmitted, ht, hne]
  · simp [Proposal.ownsPurchase, ht, hne]

-- A proposal that waits, for reviews that it has already and possibly one more.
theorem Proposal.Well.waits (hw : r.Well) (hs : ¬r.hasSubmitted) (ho : ¬r.ownsPurchase)
    (hr : r.reviews <+: r'.reviews) (ht : r'.transactions = r.transactions)
    (hst : r'.status = .awaitingApproval ∨ r'.status = .rejected) : r'.Well := by
  have hne : r'.status ≠ .preparing ∧ r'.status ≠ .submitted ∧ r'.status ≠ .confirmed := by
    rcases hst with h | h <;> simp [h]
  refine ⟨ht ▸ hw.hashes, ht ▸ hw.tracked, ht ▸ hw.owned, ?_, fun h => absurd h hne.left, ?_, ?_, ht ▸ hw.before⟩
  · rw [ht]
    exact fun tx htx => hr.subset (hw.issued tx htx)
  · rw [Proposal.hasSubmitted, ht]
    exact ⟨fun h => absurd h hne.right.left, fun h => absurd h hs⟩
  · rw [Proposal.ownsPurchase, ht]
    exact ⟨fun h => absurd h hne.right.right, fun h => absurd h ho⟩

-- A hash that is recorded for a proposal that is not confirmed.
theorem Proposal.Well.submit {hash : Hash} {digest : Digest} (hw : r.Well) (hc : r.status ≠ .confirmed)
    (hk : r.transactions.find? (·.hash = hash) = none) (hs : ¬r.hasSubmitted)
    (hv : r.reviews.find? (·.transaction = digest) = some review) :
    Proposal.Well { r with
      transactions := r.transactions ++
        [⟨hash, review.action, .submitted, review, some r.status, none, false, false⟩]
      status := .submitted, version := r.version + 1 } := by
  have hm : review ∈ r.reviews := List.mem_of_find?_eq_some hv
  have hnil : r.transactions.filter (·.status = .submitted) = [] := by
    rw [List.filter_eq_nil_iff]
    exact fun x hx hsx => hs (hasSubmitted_iff.mpr ⟨x, hx, by simpa using hsx⟩)
  have ho : ¬r.ownsPurchase := fun ho => hc (hw.confirmed.mpr ho)
  refine ⟨?hashes, ?tracked, ?owned, ?issued, nofun, ?submitted, ?confirmed, ?before⟩
  case hashes    =>
    rw [List.map_append, List.nodup_append]
    refine ⟨hw.hashes, by simp, ?_⟩
    intro h hx h' hy he
    obtain ⟨x, hm, rfl⟩ := List.mem_map.mp hx
    rw [List.find?_eq_none] at hk
    exact hk x hm (by simpa [← he] using hy)
  case tracked   => simp [List.filter_append, hnil]
  case owned     =>
    rw [List.filter_append, filter_owned_nil ho]
    simp [Transaction.owned]
  case issued    =>
    intro x hx
    rcases List.mem_append.mp hx with hx | hx
    · exact hw.issued x hx
    · rw [List.mem_singleton.mp hx]
      exact hm
  case submitted => simp [Proposal.hasSubmitted]
  case confirmed =>
    simp only [reduceCtorEq, false_iff]
    rw [ownsPurchase_iff]
    rintro ⟨x, hx, hox⟩
    rcases List.mem_append.mp hx with hx | hx
    · exact ho (ownsPurchase_iff.mpr ⟨x, hx, hox⟩)
    · rw [List.mem_singleton.mp hx] at hox
      exact not_owned_of_submitted rfl hox
  case before    =>
    intro x hx hsx
    rcases List.mem_append.mp hx with hx | hx
    · exact absurd (hasSubmitted_iff.mpr ⟨x, hx, hsx⟩) hs
    · rw [List.mem_singleton.mp hx]
      refine ⟨r.status, rfl, fun hp => ?_, fun hu => hs (hw.submitted.mp hu), hc⟩
      simp [hw.fresh hp] at hm

-- A hash is recorded for a proposal that is not confirmed while no other one for its decision blocks.
def Timely (now : ℤ) (s : State) (own : Own) : Change → Prop
  | .submitted proposalId hash digest =>
    ∀ r ∈ s.find proposalId,
      !own.taken hash (.proposal r.id) digest → r.transactions.find? (·.hash = hash) = none →
      !r.hasSubmitted → (r.reviews.find? (·.transaction = digest)).isSome →
      r.status ≠ .confirmed ∧ ∀ q ∈ s.proposals, q.decisionId = r.decisionId → q.blocksDecision now → q.id = r.id
  | _                                 => True

-- What the request that makes a change knows from its earlier reads.
def Informed (drawn : ℕ) (ps : List Proposal) : Change → Prop
  | .activate reservation _ => reservation.id < drawn ∧
    ∀ r ∈ ps, r.id = reservation.id → r.status = .preparing → r.reservedUntil = reservation.reservedUntil
  | .refresh current _      => current.id < drawn ∧
    ∀ r ∈ ps, r.id = current.id → current.version ≤ r.version ∧ (r.version = current.version →
      (r.status = .awaitingApproval ∨ r.status = .approvalConfirmed) ∧ ¬r.hasSubmitted)
  | _                       => True

-- It is still true when others have changed the proposals.
theorem Informed.follows {change : Change} {drawn drawn' : ℕ} {ps ps' : List Proposal}
    (h : Informed drawn ps change) (hd : drawn ≤ drawn') (hf : Follows drawn ps ps') :
    Informed drawn' ps' change := by
  cases change
  case activate reservation review =>
    refine ⟨h.left.trans_le hd, fun r' hr' hid hp => ?_⟩
    obtain ⟨r, hr, hm⟩ := hf.old r' hr' (hid ▸ h.left)
    have ⟨hp, hu⟩ := hm.reserved hp
    exact hu.trans (h.right r hr (hm.id ▸ hid) hp)
  case refresh current review      =>
    refine ⟨h.left.trans_le hd, fun r' hr' hid => ?_⟩
    obtain ⟨r, hr, hm⟩ := hf.old r' hr' (hid ▸ h.left)
    have ⟨hv, hs⟩ := h.right r hr (hm.id ▸ hid)
    refine ⟨hv.trans hm.version, fun hv' => ?_⟩
    have hrv : r.version = current.version := le_antisymm (hv' ▸ hm.version) hv
    have ⟨hst, htx, _⟩ := hm.same (hv'.trans hrv.symm)
    rw [hst, Proposal.hasSubmitted, htx]
    exact hs hrv
  all_goals trivial

variable {s s' : State} {own own' : Own} {p : Option Proposal} {drawn : ℕ}

theorem find_mem {id : ℕ} (h : s.find id = some r) : r ∈ s.proposals ∧ r.id = id :=
  ⟨Records.find_mem h, Records.find_key h⟩

-- A proposal that blocked before it was put back is the only one.
theorem Good.only (hg : Good cx.now drawn s.proposals) (hr : r ∈ s.proposals) (hb : r.blocksDecision cx.now)
    (q : Proposal) (hq : q ∈ s.proposals) (hd : q.decisionId = r.decisionId) (hbq : q.blocksDecision cx.now) :
    q = r :=
  hg.single q hq r hr hd hbq hb

abbrev Keeps (cx : Context) (drawn : ℕ) (s s' : State) : Prop :=
  Good cx.now (drawn + 1) s'.proposals ∧ Follows drawn s.proposals s'.proposals ∧ s'.ownership = s.ownership

theorem Keeps.of_eq (hg : Good cx.now drawn s.proposals) (h : s'.proposals = s.proposals)
    (ho : s'.ownership = s.ownership) : Keeps cx drawn s s' := by
  rw [Keeps, h]
  exact ⟨hg.later le_rfl (Nat.le_succ drawn), .refl _, ho⟩

theorem Keeps.put {id : ℕ} (live : Live) (hg : Good cx.now drawn s.proposals) (hr : s.find id = some r)
    (hw : r'.Well) (hm : r.Moves r') (hb : r'.blocksDecision cx.now → r.blocksDecision cx.now) :
    Keeps cx drawn s ({ s with live }.put r') := by
  obtain ⟨hmem, hid⟩ := find_mem hr
  obtain ⟨hg', hf⟩ := hg.put (hid.symm ▸ hr) hw hm fun h q hq hd hbq => hg.only hmem (hb h) q hq hd hbq
  exact ⟨hg'.later le_rfl (Nat.le_succ drawn), hf, rfl⟩

-- A reservation is a new proposal for a decision that none blocks once lapsed ones gave way.
theorem reserve_ok {decisionId : ℕ} (h : reserve cx s own decisionId = .ok (s', own', p)) :
    ∃ record : Proposal, p = some record ∧ record.id = cx.freshId ∧ record.Well ∧
      s'.proposals = record :: s.proposals.map (lapse cx.now) ∧ s'.ownership = s.ownership ∧
      ∀ q ∈ s.proposals.map (lapse cx.now), q.decisionId = record.decisionId → ¬q.blocksDecision cx.now := by
  rw [reserve] at h
  split at h
  case h_1          => cases h
  case h_2 found hf =>
    split at h
    case h_1            => cases h
    case h_2 expires he =>
      simp only at h
      split at h
      case isTrue      => cases h
      case isFalse hno =>
        split at h
        case isTrue  => cases h
        case isFalse =>
          split at h
          case isTrue  => cases h
          case isFalse =>
            cases h
            refine ⟨_, rfl, rfl, ?_, rfl, rfl, fun q hq hd hb => ?_⟩
            · exact ⟨by simp, by simp, by simp, by simp, fun _ => rfl, by simp [Proposal.hasSubmitted],
                by simp [Proposal.ownsPurchase], by simp⟩
            · exact hno (List.any_eq_true.mpr ⟨q, hq, by simpa using ⟨hd, hb⟩⟩)

theorem reserve_keeps {decisionId : ℕ} (hg : Good cx.now drawn s.proposals) (hd : cx.freshId = drawn)
    (h : reserve cx s own decisionId = .ok (s', own', p)) : Keeps cx drawn s s' := by
  obtain ⟨record, -, hid, hw, hps, ho, hno⟩ := reserve_ok h
  have ⟨hg', hf'⟩ := hg.map (fun p hp => (hg.well p hp).lapse) Proposal.Moves.lapse
    fun p => blocksDecision_lapse
  have ⟨hg'', hf''⟩ := hg'.cons hw (hid.trans hd) hno
  rw [Keeps, hps]
  exact ⟨hg'', hf'.trans le_rfl hf'', ho⟩

theorem activate_keeps {reservation : Proposal} {review : Option Review}
    (hg : Good cx.now drawn s.proposals) (hk : Informed drawn s.proposals (.activate reservation review))
    (h : activate cx s own reservation review = .ok (s', own', p)) : Keeps cx drawn s s' := by
  rw [activate] at h
  split at h
  case h_1      => cases h; exact .of_eq hg rfl rfl
  case h_2 r hr =>
    have ⟨hmem, hid⟩ := find_mem hr
    have hw := hg.well r hmem
    split at h
    case isTrue    => cases h; exact .of_eq hg rfl rfl
    case isFalse hn =>
      obtain ⟨hp, hv⟩ := not_or.mp hn
      replace hp : r.status = .preparing := not_not.mp hp
      have hno : ¬r.ownsPurchase := by simp [Proposal.ownsPurchase, hw.transactions_nil hp]
      have hmoves {q : Proposal} (hq : q.id = r.id) (hqd : q.decisionId = r.decisionId)
          (hqv : q.version = r.version + 1) (hqs : q.status ≠ .preparing) : r.Moves q :=
        ⟨hq, hqd, by omega, fun h => by omega, fun h => absurd h hqs, hw.fresh hp ▸ List.nil_prefix,
          fun h => absurd h hno⟩
      simp only at h
      split at h
      case h_1             =>
        cases h
        refine .put s.live hg hr (hw.withdraw hp (.inl rfl) rfl rfl) (hmoves rfl rfl rfl nofun) ?_
        simp [Proposal.blocksDecision, Proposal.reserving]
      case h_2 _ review'   =>
        split at h
        case isTrue  =>
          cases h
          refine .put s.live hg hr (hw.withdraw hp (.inl rfl) rfl rfl) (hmoves rfl rfl rfl nofun) ?_
          simp [Proposal.blocksDecision, Proposal.reserving]
        case isFalse =>
          split at h
          case isTrue     =>
            cases h
            refine .put s.live hg hr (hw.withdraw hp (.inr rfl) rfl rfl) (hmoves rfl rfl rfl nofun) ?_
            simp [Proposal.blocksDecision, Proposal.reserving]
          case isFalse hu =>
            cases h
            have hs : ¬r.hasSubmitted := by simp [Proposal.hasSubmitted, hw.transactions_nil hp]
            have hr' : r.reviews <+: [review'] := hw.fresh hp ▸ List.nil_prefix
            refine .put s.live hg hr (hw.waits hs hno hr' rfl (.inl rfl)) (hmoves rfl rfl rfl nofun) fun _ => ?_
            -- the reservation has not lapsed
            rw [blocksDecision_iff, reserving_iff, hk.right r hmem hid hp]
            refine .inl ⟨hp, ?_⟩
            simpa [Option.all_eq_true] using hu

theorem Proposal.Moves.of_put {q : Proposal} (hid : q.id = r.id) (hd : q.decisionId = r.decisionId)
    (hv : q.version = r.version + 1) (hs : q.status ≠ .preparing) (hr : r.reviews <+: q.reviews)
    (ho : r.ownsPurchase → q.ownsPurchase) : r.Moves q :=
  ⟨hid, hd, by omega, fun h => by omega, fun h => absurd h hs, hr, ho⟩

theorem refresh_keeps {current : Proposal} (hg : Good cx.now drawn s.proposals)
    (hk : Informed drawn s.proposals (.refresh current review))
    (h : refresh cx s own current review = .ok (s', own', p)) : Keeps cx drawn s s' := by
  rw [refresh] at h
  split at h
  case h_1      => cases h
  case h_2 r hr =>
    have ⟨hmem, hid⟩ := find_mem hr
    have hw := hg.well r hmem
    split at h
    case isTrue  => cases h
    case isFalse =>
      split at h
      case isTrue     => cases h
      case isFalse hv =>
        have ⟨hst, hs⟩ := (hk.right r hmem hid).right (not_not.mp hv)
        have ho : ¬r.ownsPurchase := fun ho => by
          rw [← hw.confirmed] at ho
          rcases hst with hst | hst <;> cases hst.symm.trans ho
        split at h
        case isTrue  => cases h
        case isFalse =>
          cases h
          have hr' : r.reviews <+: if hasReview r review then r.reviews else r.reviews ++ [review] := by
            split
            · exact List.prefix_rfl
            · exact List.prefix_append ..
          refine .put s.live hg hr (hw.waits hs ho hr' rfl (.inl rfl))
            (.of_put rfl rfl rfl nofun hr' fun h => absurd h ho) fun _ => ?_
          rw [blocksDecision_iff]
          exact .inr (hst.elim .inl fun h => .inr (.inr (.inl h)))

theorem rejected_keeps {proposalId : ℕ} (hg : Good cx.now drawn s.proposals)
    (h : rejected cx s own proposalId = .ok (s', own', p)) : Keeps cx drawn s s' := by
  rw [rejected] at h
  split at h
  case h_1      => cases h
  case h_2 r hr =>
    have hw := hg.well r (find_mem hr).left
    split at h
    case isTrue  => cases h
    case isFalse =>
      split at h
      case isTrue     => cases h
      case isFalse hn =>
        cases h
        obtain ⟨hs, hst⟩ := not_or.mp hn
        have ho : ¬r.ownsPurchase := fun ho => by simp [← hw.confirmed] at ho; simp [ho] at hst
        refine .put s.live hg hr (hw.waits hs ho List.prefix_rfl rfl (.inr rfl))
          (.of_put rfl rfl rfl nofun List.prefix_rfl fun h => h) ?_
        simp [Proposal.blocksDecision, Proposal.reserving]

theorem submitted_keeps {proposalId : ℕ} {hash : Hash} {digest : Digest} (hg : Good cx.now drawn s.proposals)
    (ht : Timely cx.now s own (.submitted proposalId hash digest))
    (h : submitted s own proposalId hash digest = .ok (s', own', p)) : Keeps cx drawn s s' := by
  rw [submitted] at h
  split at h
  case h_1      => cases h
  case h_2 r hr =>
    have ⟨hmem, hid⟩ := find_mem hr
    have hw := hg.well r hmem
    split at h
    case isTrue     => cases h
    case isFalse hn =>
      split at h
      case h_1 known _ =>
        split at h
        · cases h; exact .of_eq hg rfl rfl
        · cases h
      case h_2 hk      =>
        split at h
        case isTrue     => cases h
        case isFalse hs =>
          split at h
          case h_1           => cases h
          case h_2 review hv =>
            cases h
            obtain ⟨hc, hb⟩ := ht r hr (by simpa using hn) hk (by simpa using hs) (by simp [hv])
            have ho : r.ownsPurchase → Proposal.ownsPurchase { r with
                transactions := r.transactions ++ [⟨hash, review.action, .submitted, review, some r.status, none, false, false⟩]
                status := .submitted, version := r.version + 1 } :=
              fun ho => absurd (hw.confirmed.mpr ho) hc
            have hr' : Records.find (·.id) r.id s.proposals = some r := by rw [hid]; exact hr
            have ⟨hg', hf⟩ := hg.put hr' (hw.submit hc hk hs hv) (.of_put rfl rfl rfl nofun List.prefix_rfl ho)
              fun _ q hq hd hbq => hg.eq_of_id hq hmem (hb q hq hd hbq)
            exact ⟨hg'.later le_rfl (Nat.le_succ drawn), hf, rfl⟩

theorem check_keeps {proposalId : ℕ} {hash : Hash} {receipt : Receipt} {paidAtoms : Option ℕ}
    (hg : Good cx.now drawn s.proposals)
    (h : check s own proposalId hash receipt paidAtoms = .ok (s', own', p)) : Keeps cx drawn s s' := by
  rw [check] at h
  split at h
  case h_1              => cases h
  case h_2              => cases h; exact .of_eq hg rfl rfl
  case h_3 r status hr hst =>
    have hw := hg.well r (find_mem hr).left
    split at h
    case h_1       => cases h; exact .of_eq hg rfl rfl
    case h_2 tx htx =>
      split at h
      case isTrue     => cases h; exact .of_eq hg rfl rfl
      case isFalse hs =>
        cases h
        replace hs : tx.status = .submitted := not_not.mp hs
        have hm : tx ∈ r.transactions := List.mem_of_find?_eq_some htx
        have hd : tx.Settles (settle r s.live own tx status paidAtoms).2.2 :=
          settle_settles (status_submitted hst)
        have hsub : r.hasSubmitted := hasSubmitted_iff.mpr ⟨tx, hm, hs⟩
        have hw' := hw.resolve hm hs hd
        refine .put _ hg hr hw' (.of_put rfl rfl rfl (fun hp => ?_) List.prefix_rfl fun ho =>
          absurd ho (hw.not_owns_of_submitted hsub)) fun _ => ?_
        · -- a proposal with a transaction is not preparing
          have ht := hw'.transactions_nil hp
          simp [Proposal.resolve] at ht
          simp [ht] at hm
        · rw [blocksDecision_iff]
          exact .inr (.inr (.inl (hw.submitted.mpr hsub)))

theorem run_keeps {change : Change} (hg : Good cx.now drawn s.proposals) (hd : cx.freshId = drawn)
    (hk : Informed drawn s.proposals change) (ht : Timely cx.now s own change)
    (h : change.run cx s own = .ok (s', own', p)) : Keeps cx drawn s s' := by
  cases change
  case evaluate       => cases h; exact .of_eq hg rfl rfl
  case reserve        => exact reserve_keeps hg hd h
  case activate       => exact activate_keeps hg hk h
  case refresh        => exact refresh_keeps hg hk h
  case submitted      => exact submitted_keeps hg ht h
  case rejected       => exact rejected_keeps hg h
  case check          => exact check_keeps hg h
  case clear          => cases h; exact .of_eq hg rfl rfl
  case report         =>
    rw [Change.run, report] at h
    split at h
    · split at h <;> cases h
      exact .of_eq hg rfl rfl
    · split at h
      · cases h
      · split at h <;> cases h
        exact .of_eq hg rfl rfl
  case checkExecution =>
    rw [Change.run, checkExecution] at h
    split at h
    · cases h; exact .of_eq hg rfl rfl
    · split at h
      · cases h; exact .of_eq hg rfl rfl
      · split at h <;> cases h <;> exact .of_eq hg rfl rfl

end Changes

end Agents
