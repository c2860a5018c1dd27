import Flurbo.Server.Lifecycle

-- Runs of the requests about the proposals of one agent.

open Except

namespace Agents

structure Invariant (s : Store) : Prop where
  good    : Good s.clock s.drawn s.state.proposals
  current : s.state.ownership = 2

-- What any other request may do.
structure Rely (s s' : Store) : Prop where
  clock   : s.clock ≤ s'.clock
  drawn   : s.drawn ≤ s'.drawn
  follows : Follows s.drawn s.state.proposals s'.state.proposals

theorem Rely.refl (s : Store) : Rely s s := ⟨le_rfl, le_rfl, .refl _⟩

theorem Rely.trans {s₁ s₂ s₃ : Store} (h : Rely s₁ s₂) (h' : Rely s₂ s₃) : Rely s₁ s₃ :=
  ⟨h.clock.trans h'.clock, h.drawn.trans h'.drawn, h.follows.trans h.drawn h'.follows⟩

section Discipline

variable (agent : AgentId)

def permitted (s : Store) : Command → Prop
  | .mutate change => Timely s.clock s.state (s.own agent) change
  | _              => True

instance decidableTimely (now : ℤ) (s : State) (own : Own) : ∀ change, Decidable (Timely now s own change)
  | .submitted proposalId hash digest =>
    inferInstanceAs (Decidable (∀ r ∈ s.find proposalId,
      !own.taken hash (.proposal r.id) digest → r.transactions.find? (·.hash = hash) = none →
      !r.hasSubmitted → (r.reviews.find? (·.transaction = digest)).isSome → r.status ≠ .confirmed ∧
      ∀ q ∈ s.proposals, q.decisionId = r.decisionId → q.blocksDecision now → q.id = r.id))
  | .evaluate _ | .reserve _ | .activate .. | .refresh .. | .rejected _ | .check .. | .clear | .report ..
  | .checkExecution ..                => .isTrue trivial

instance decidablePermitted (s : Store) : ∀ c, Decidable (permitted agent s c)
  | .mutate change => decidableTimely s.clock s.state (s.own agent) change
  | .now | .profile | .load | .linkedOwner | .prepare | .receipt _ | .decide | .archive => .isTrue trivial

def discipline : Program.Discipline Store Command where
  invariant   := Invariant
  rely _      := Rely
  permitted   := permitted agent
  refl _      := Rely.refl
  trans _ _ _ _ h h' := h.trans h'

instance decidableDiscipline (s : Store) (c : Command) : Decidable ((discipline agent).permitted s c) :=
  decidablePermitted agent s c

end Discipline

section Safe

variable {agent : AgentId} {n : ℕ} {s s' : Store} {α : Type}

theorem attempt_eq {cx : Context} {st : State} {own : Own} {change : Change} (h : st.ownership = 2) :
    attempt cx st own change = (change.run cx st own).map fun r => (retain cx.now r.1, r.2) := by
  rw [attempt, if_neg (by omega)]
  rfl

theorem mutate_keeps {change : Change} (hi : Invariant s)
    (hk : Informed s.drawn s.state.proposals change) (ht : Timely s.clock s.state (s.own agent) change) :
    Invariant (s.mutate agent change).1 ∧ Rely s (s.mutate agent change).1 := by
  rw [Store.mutate, attempt_eq hi.current]
  cases hr : change.run s.context s.state (s.own agent)
  case error e => exact ⟨hi, .refl s⟩
  case ok r    =>
    obtain ⟨st, own, p⟩ := r
    have ⟨hg, hf, ho⟩ := run_keeps hi.good rfl hk ht hr
    have ⟨hg', hf'⟩ := hg.retain (k := 50)
    exact ⟨⟨hg', ho.trans hi.current⟩, le_rfl, Nat.le_succ _, hf.trans (Nat.le_succ _) hf'⟩

abbrev Safe (agent : AgentId) (n : ℕ) (p : Action α) (s : Store) : Prop :=
  Program.Safe (service agent) (discipline agent) n p (fun _ _ => True) s

theorem safe_fail {e : Refusal} : Safe agent n (.fail e : Action α) s := fun _ _ _ => trivial

theorem safe_pure {a : α} : Safe agent n (pure a) s := fun _ _ _ => trivial

def Command.reads : Command → Bool
  | .archive | .mutate _ => false
  | _                    => true

theorem reads_perform {c : Command} (hc : c.reads) (r : Reply c) : (perform agent s c r).1 = s := by
  cases c
  case archive | mutate => cases hc
  all_goals rfl

theorem safe_read {c : Command} {f : Reply c → Action α} (hc : c.reads)
    (hf : ∀ s', Rely s s' → Invariant s' → ∀ r, Safe agent n (f (perform agent s' c r).2) s') :
    Safe agent n (send c >>= f) s := by
  refine Program.Safe.of_bind <| Program.Safe.of_call (fun _ _ _ => trivial) fun s' hr hi _ r => ?_
  have hs : ((service agent).perform s' c r).1 = s' := reads_perform hc r
  rw [hs]
  exact ⟨⟨hi, fun _ _ => .refl s'⟩, fun s'' hr' _ => ⟨(hf s' hr hi r).stable hr', trivial⟩⟩

theorem safe_mutate {change : Change} {f : Option Proposal → Action α}
    (hk : ∀ s', Rely s s' → Invariant s' → Informed s'.drawn s'.state.proposals change)
    (hf : ∀ s' p, Rely s s' → Invariant s' → Invariant (s'.mutate agent change).1 →
      (s'.mutate agent change).2 = .ok p → Safe agent n (f p) (s'.mutate agent change).1) :
    Safe agent n (mutate change >>= f) s := by
  refine Program.Safe.of_bind <| Program.Safe.of_bind <| Program.Safe.of_call (fun _ _ _ => trivial)
    fun s' hr hi ht r => ?_
  have hm := mutate_keeps hi (hk s' hr hi) ht
  refine ⟨⟨hm.left, fun _ _ => hm.right⟩, fun s'' hr' _ => ⟨?_, trivial⟩⟩
  have he : ((service agent).perform s' (.mutate change) r).2 = (s'.mutate agent change).2 := rfl
  rw [he]
  cases hp : (s'.mutate agent change).2
  case error => exact fun _ _ _ => trivial
  case ok p  => exact fun s₃ hr'' _ => ((hf s' p hr hi hm.left hp).stable hr').stable hr''

-- A request that reserved a decision knows its reservation.
theorem reserve_informed {decisionId : ℕ} {reservation : Proposal} {review : Option Review} (hi : Invariant s)
    (hp : (s.mutate agent (.reserve decisionId)).2 = .ok (some reservation)) :
    Informed (s.mutate agent (.reserve decisionId)).1.drawn
      (s.mutate agent (.reserve decisionId)).1.state.proposals (.activate reservation review) := by
  rw [Store.mutate, attempt_eq hi.current] at hp ⊢
  cases hr : (Change.reserve decisionId).run s.context s.state (s.own agent)
  case error e => rw [hr] at hp; cases hp
  case ok r    =>
    obtain ⟨st, own, p⟩ := r
    rw [hr] at hp
    cases hp
    obtain ⟨record, he, hid, -, hps, -⟩ := reserve_ok hr
    cases he
    have hg : Good s.clock (s.drawn + 1) st.proposals :=
      (reserve_keeps hi.good rfl hr).left
    refine ⟨hid ▸ Nat.lt_succ_self _, fun r hr hrid _ => ?_⟩
    obtain ⟨q, hq, hrq⟩ := retainProposals_mem hr
    have hqr : q.id = r.id ∧ q.reservedUntil = r.reservedUntil := by
      rcases hrq with rfl | rfl <;> exact ⟨rfl, rfl⟩
    have hrec : reservation ∈ st.proposals := hps ▸ List.mem_cons_self
    rw [← hqr.right, hg.eq_of_id hq hrec (hqr.left.trans hrid)]

theorem evaluate_safe : Safe agent n evaluate s := by
  refine safe_read rfl fun s₁ _ _ _ => ?_
  split
  split
  · exact safe_fail
  · split
    · exact safe_fail
    · refine safe_read rfl fun s₂ _ _ _ => ?_
      exact safe_mutate (fun _ _ _ => trivial) fun _ _ _ _ _ _ => safe_pure

theorem propose_safe {decisionId : ℕ} : Safe agent n (propose decisionId) s := by
  refine safe_read rfl fun s₁ _ _ _ => ?_
  split
  split
  · exact safe_fail
  · split
    · exact safe_fail
    · split
      · exact safe_fail
      · refine safe_read rfl fun s₂ _ _ _ => ?_
        split
        · exact safe_fail
        · refine safe_mutate (fun _ _ _ => trivial) fun s₃ p _ hi₃ hi₃' hp => ?_
          split
          case h_1             => exact safe_pure
          case h_2 reservation =>
            have hinf (review : Option Review) : Informed _ _ (.activate reservation review) :=
              reserve_informed hi₃ hp
            have hact (review : Option Review) (s' : Store) (hr : Rely (s₃.mutate agent (.reserve decisionId)).1 s') :
                Safe agent n (do
                  if (← mutate (.activate reservation review)).isNone then .fail .proposalChanged) s' := by
              refine safe_mutate (fun s'' hr' _ => ?_) fun _ p _ _ _ _ => ?_
              · have hr'' := hr.trans hr'
                exact (hinf review).follows hr''.drawn hr''.follows
              · split
                · exact safe_fail
                · exact safe_pure
            refine Program.Safe.of_bind <| Program.Safe.of_recover <| Program.Safe.of_call
              (fun s' hr _ => fun s'' hr' _ => hact none s'' (hr.trans hr')) fun s' hr hi _ r =>
                ⟨⟨hi, fun _ _ => .refl s'⟩, fun s'' hr' _ => ⟨hact _ s'' (hr.trans hr'), fun s₆ hr₆ _ => ?_⟩⟩
            exact hact none s₆ ((hr.trans hr').trans hr₆)

-- A request that read a waiting proposal knows that, until its version changes.
theorem load_informed {proposalId : ℕ} {current : Proposal} {review : Review} (hi : Invariant s)
    (hc : s.state.find proposalId = some current) (hs : ¬current.hasSubmitted)
    (hst : current.status ∈ [.awaitingApproval, .approvalConfirmed]) :
    Informed s.drawn s.state.proposals (.refresh current review) := by
  have hm := (find_mem hc).left
  refine ⟨hi.good.drawn current hm, fun r hr hid => ?_⟩
  obtain rfl : r = current := hi.good.eq_of_id hr hm hid
  exact ⟨le_rfl, fun _ => ⟨by simpa using hst, hs⟩⟩

theorem track_safe {proposalId : ℕ} {action : TrackAction} : Safe agent n (track proposalId action) s := by
  refine safe_read rfl fun s₁ _ _ _ => ?_
  split
  refine safe_read rfl fun s₂ _ hi₂ _ => ?_
  split
  case h_1              => exact safe_fail
  case h_2 current hcur =>
    split
    case h_1 =>
      split
      case isTrue  => exact safe_fail
      case isFalse =>
        split
        case isTrue     => exact safe_fail
        case isFalse hs =>
          split
          case isTrue      => exact safe_fail
          case isFalse hst =>
            have hk (review : Review) : Informed _ _ (.refresh current review) :=
              load_informed hi₂ hcur hs (not_not.mp hst)
            refine safe_read rfl fun s₃ hr₃ _ _ => ?_
            split
            · exact safe_fail
            · dsimp only
              split
              · exact safe_fail
              · refine safe_read rfl fun s₄ hr₄ _ _ => ?_
                split
                · exact safe_fail
                · refine safe_read rfl fun s₅ hr₅ _ _ => ?_
                  split
                  · exact safe_fail
                  · refine safe_mutate (fun s₆ hr₆ _ => ?_) fun _ _ _ _ _ _ => safe_pure
                    have hr := ((hr₃.trans hr₄).trans hr₅).trans hr₆
                    exact (hk _).follows hr.drawn hr.follows
    case h_2 => exact safe_mutate (fun _ _ _ => trivial) fun _ _ _ _ _ _ => safe_pure
    case h_3 => exact safe_mutate (fun _ _ _ => trivial) fun _ _ _ _ _ _ => safe_pure
    case h_4 =>
      split
      · exact safe_pure
      · refine safe_read rfl fun s₃ _ _ _ => ?_
        split
        split
        · exact safe_pure
        · exact safe_mutate (fun _ _ _ => trivial) fun _ _ _ _ _ _ => safe_pure

theorem delete_safe : Safe agent n delete s := by
  refine Program.Safe.of_bind <| Program.Safe.of_call (fun _ _ _ => trivial) fun s' hr hi _ r => ⟨?_, ?_⟩
  · simp only [service, perform]
    split
    · exact ⟨hi, fun _ _ => .refl s'⟩
    · exact ⟨⟨hi.good, hi.current⟩, fun _ _ => ⟨le_rfl, le_rfl, .refl _⟩⟩
  · refine fun s'' _ _ => ⟨?_, trivial⟩
    change Safe agent n (if ((service agent).perform s' .archive r).2 then mutate .clear >>= _ else _) s''
    split
    · exact safe_mutate (fun _ _ _ => trivial) fun _ _ _ _ _ _ => safe_pure
    · exact safe_pure

theorem service_obeys : (service agent).Obeys (discipline agent) where
  code n q s _ := by
    cases q
    case evaluate => exact evaluate_safe
    case propose  => exact propose_safe
    case track    => exact track_safe
    case delete   => exact delete_safe
  drift s e hi := by
    cases e
    case tick d   =>
      exact ⟨⟨hi.good.later (by simp [service, drift]) le_rfl, hi.current⟩,
        fun _ => ⟨by simp [service, drift], le_rfl, .refl _⟩⟩
    case update a m =>
      simp only [service, drift]
      split
      · exact ⟨hi, fun _ => .refl s⟩
      · exact ⟨⟨hi.good, hi.current⟩, fun _ => ⟨le_rfl, le_rfl, .refl _⟩⟩
    case owned h o =>
      simp only [service, drift]
      split
      · exact ⟨hi, fun _ => .refl s⟩
      · exact ⟨⟨hi.good, hi.current⟩, fun _ => ⟨le_rfl, le_rfl, .refl _⟩⟩

theorem initial_invariant (clock : ℤ) : Invariant (.initial clock) :=
  ⟨⟨nofun, List.nodup_nil, nofun, nofun⟩, rfl⟩

end Safe

section Statement

-- The proposal that a change was computed from.
def Change.basis : Change → Option Proposal
  | .activate reservation _ => some reservation
  | .refresh current _      => some current
  | _                       => none

structure Sound (s : Store) : Prop where
  single    : ∀ p ∈ s.state.proposals, ∀ q ∈ s.state.proposals, p.decisionId = q.decisionId →
    p.blocksDecision s.clock → q.blocksDecision s.clock → p = q
  tracked   : ∀ p ∈ s.state.proposals, (p.transactions.filter (·.status = .submitted)).length ≤ 1
  issued    : ∀ p ∈ s.state.proposals, ∀ tx ∈ p.transactions, tx.review ∈ p.reviews
  confirmed : ∀ p ∈ s.state.proposals, p.status = .confirmed ↔ p.ownsPurchase
  purchased : ∀ p ∈ s.state.proposals, ∀ q ∈ s.state.proposals, p.decisionId = q.decisionId →
    ∀ tx ∈ p.transactions, ∀ tx' ∈ q.transactions, tx.owned → tx'.owned → p = q ∧ tx = tx'
  stale     : ∀ change current cx own result, Change.basis change = some current →
    (∀ r ∈ s.state.find current.id, r.version ≠ current.version) →
    change.run cx s.state own = .ok result → result.1 = s.state

-- What of a store is still there in a later one.
structure Kept (s s' : Store) : Prop where
  reviews : ∀ p ∈ s.state.proposals, p.reviews ≠ [] →
    ∃ p' ∈ s'.state.proposals, p'.id = p.id ∧ p.reviews <+: p'.reviews
  version : ∀ p ∈ s.state.proposals, ∀ p' ∈ s'.state.proposals, p'.id = p.id →
    p'.review ≠ p.review ∨ p'.reviews ≠ p.reviews → p.version < p'.version
  owned   : ∀ p ∈ s.state.proposals, p.ownsPurchase →
    ∃ p' ∈ s'.state.proposals, p'.id = p.id ∧ p'.ownsPurchase ∧ p'.status = .confirmed

variable {agent : AgentId} {s s' : Store}

theorem stale_run {change : Change} {current : Proposal} {cx : Context} {st : State} {own : Own} {result : Result}
    (hb : change.basis = some current) (hs : ∀ r ∈ st.find current.id, r.version ≠ current.version)
    (h : change.run cx st own = .ok result) : result.1 = st := by
  cases change
  case activate =>
    cases hb
    rw [Change.run, activate] at h
    split at h
    case h_1      => cases h; rfl
    case h_2 r hr =>
      rw [if_pos (.inr (hs r hr))] at h
      cases h
      rfl
  case refresh  =>
    cases hb
    rw [Change.run, refresh] at h
    split at h
    case h_1      => cases h
    case h_2 r hr =>
      split at h
      · cases h
      · rw [if_pos (hs r hr)] at h
        cases h
  all_goals cases hb

theorem Invariant.sound (hi : Invariant s) : Sound s where
  single          := hi.good.single
  tracked p hp    := (hi.good.well p hp).tracked
  issued p hp     := (hi.good.well p hp).issued
  confirmed p hp  := (hi.good.well p hp).confirmed
  purchased p hp q hq hd tx htx tx' htx' ho ho' := by
    have hblocks {r : Proposal} {x : Transaction} (hr : r ∈ s.state.proposals) (hx : x ∈ r.transactions)
        (hox : x.owned) : r.blocksDecision s.clock := by
      rw [blocksDecision_iff, (hi.good.well r hr).confirmed, ownsPurchase_iff]
      exact .inr (.inr (.inr (.inr ⟨x, hx, hox⟩)))
    obtain rfl : p = q := hi.good.single p hp q hq hd (hblocks hp htx ho) (hblocks hq htx' ho')
    have hm : tx ∈ p.transactions.filter (·.owned) := List.mem_filter.mpr ⟨htx, ho⟩
    have hm' : tx' ∈ p.transactions.filter (·.owned) := List.mem_filter.mpr ⟨htx', ho'⟩
    obtain ⟨a, ha⟩ := List.length_eq_one_iff.mp
      (le_antisymm (hi.good.well p hp).owned (List.length_pos_of_mem hm))
    rw [ha, List.mem_singleton] at hm hm'
    exact ⟨rfl, hm.trans hm'.symm⟩
  stale _ _ _ _ _ hb hs h := stale_run hb hs h

theorem Rely.kept (hi : Invariant s) (hi' : Invariant s') (hr : Rely s s') : Kept s s' where
  reviews p hp hne := by
    obtain ⟨p', hp', hm⟩ := hr.follows.kept p hp hne
    exact ⟨p', hp', hm.id, hm.reviews⟩
  version p hp p' hp' hid hne := by
    obtain ⟨q, hq, hm⟩ := hr.follows.old p' hp' (hid ▸ hi.good.drawn p hp)
    obtain rfl : q = p := hi.good.eq_of_id hq hp (hm.id.symm.trans hid)
    refine lt_of_le_of_ne hm.version fun he => ?_
    have ⟨_, _, hv, hrs⟩ := hm.same he.symm
    exact hne.elim (fun h => h hv) fun h => h hrs
  owned p hp ho := by
    -- a proposal that owns a transaction has issued its review
    obtain ⟨tx, htx, _⟩ := ownsPurchase_iff.mp ho
    have hne : p.reviews ≠ [] := List.ne_nil_of_mem ((hi.good.well p hp).issued tx htx)
    obtain ⟨p', hp', hm⟩ := hr.follows.kept p hp hne
    exact ⟨p', hp', hm.id, hm.owned ho, (hi'.good.well p' hp').confirmed.mpr (hm.owned ho)⟩

end Statement

section Runs

abbrev Happening := Program.Event Reply Request Drift

abbrev reach (agent : AgentId) (clock : ℤ) (es : List Happening) : Program.World Store Reply Refusal :=
  Run.run (service agent).step (.initial (.initial clock)) es

abbrev Regular (agent : AgentId) (clock : ℤ) (es : List Happening) : Prop :=
  Run.Along (service agent).step (discipline agent).Permits (.initial (.initial clock)) es

-- What holds after a run, and what is still there after a longer one.
theorem proposals_sound (agent : AgentId) (clock : ℤ) (es es' : List Happening)
    (h : Regular agent clock (es ++ es')) :
    Sound (reach agent clock es).store ∧
    Kept (reach agent clock es).store (reach agent clock (es ++ es')).store := by
  have ⟨hes, hes'⟩ := Run.Along.append.mp h
  have hw := Program.World.Sound.run service_obeys (.initial (initial_invariant clock)) hes
  have hw' := Program.World.Sound.run service_obeys (.initial (initial_invariant clock)) h
  have hr := Program.World.Sound.run_rely (R := Rely) (fun _ _ _ => id) Rely.refl (fun _ _ _ => Rely.trans)
    service_obeys hw hes'
  rw [← Run.run_append] at hr
  exact ⟨hw.invariant.sound, hr.kept hw.invariant hw'.invariant⟩

-- Reviews of one purchase, and receipts that confirm it.
def answers : (c : Command) → Reply c
  | .now         => (0 : ℤ)
  | .profile     => (.active, true)
  | .load        => State.empty
  | .linkedOwner => true
  | .prepare     => some ⟨.buy, 7, 500⟩
  | .receipt _   => (.confirmed, some 5)
  | .decide      => some (1000 : ℤ)
  | .archive     => false
  | .mutate _    => .ok none

def goes (n k : ℕ) : List Happening := List.replicate k (.proceed n .done answers)

def anAgent : AgentId := ⟨1, 0⟩

-- Proposal 1 for decision 0 waits for approval.
def proposing : List Happening :=
  .start 0 .evaluate :: goes 0 3 ++ .start 1 (.propose 0) :: goes 1 5

def purchase : List Happening :=
  .start 2 (.track 1 (.submitted 9 7)) :: goes 2 3 ++ .start 3 (.track 1 .check) :: goes 3 4

theorem proposals_sound_purchase :
    Sound (reach anAgent 0 (proposing ++ purchase)).store ∧
    Kept (reach anAgent 0 (proposing ++ purchase)).store
      (reach anAgent 0 ((proposing ++ purchase) ++ [.drift (.tick 100)])).store :=
  proposals_sound anAgent 0 (proposing ++ purchase) [.drift (.tick 100)] (by decide +kernel)

example : (reach anAgent 0 (proposing ++ purchase)).store.state.live = ⟨1, 5, 0⟩ := by decide +kernel

-- A hash for a proposal that was dismissed, when another one waits.
def lateHash : List Happening :=
  proposing ++ .start 2 (.track 1 .rejected) :: goes 2 3 ++ .start 3 (.propose 0) :: goes 3 5 ++
  .start 4 (.track 1 (.submitted 9 7)) :: goes 4 3

-- A second hash for a proposal that is confirmed.
def secondHash : List Happening :=
  proposing ++ purchase ++ .start 4 (.track 1 (.submitted 10 7)) :: goes 4 3

theorem lateHash_blocks : ∃ p ∈ (reach anAgent 0 lateHash).store.state.proposals,
    ∃ q ∈ (reach anAgent 0 lateHash).store.state.proposals, p.decisionId = q.decisionId ∧
    p.blocksDecision (reach anAgent 0 lateHash).store.clock ∧
    q.blocksDecision (reach anAgent 0 lateHash).store.clock ∧ p ≠ q := by
  decide +kernel

theorem secondHash_leaves : ∃ p ∈ (reach anAgent 0 secondHash).store.state.proposals,
    p.ownsPurchase ∧ p.status ≠ .confirmed := by
  decide +kernel

-- Two proposals for one decision block, and a purchase that is owned leaves `confirmed`.
theorem proposals_unsound : ¬Sound (reach anAgent 0 lateHash).store ∧ ¬Sound (reach anAgent 0 secondHash).store := by
  refine ⟨fun h => ?_, fun h => ?_⟩
  · obtain ⟨p, hp, q, hq, hd, hbp, hbq, hne⟩ := lateHash_blocks
    exact hne (h.single p hp q hq hd hbp hbq)
  · obtain ⟨p, hp, ho, hs⟩ := secondHash_leaves
    exact hs ((h.confirmed p hp).mpr ho)

end Runs

end Agents
