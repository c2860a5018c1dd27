import Flurbo.Server.AgentWallets

-- A wallet is one agent's, or linked, as long as a wallet is only taken once the record of its last
-- agent says that it was given up, and not for a time before that.

open Evm Except

namespace AgentWallets

section Statement

-- No moment from `time` on belongs to the association.
def Association.EndedBy (time : ℤ) (w : Association) : Prop :=
  w.untilTime.any fun u => decide (u ≤ w.fromTime ∨ u ≤ time)

instance decidableEndedBy (time : ℤ) (w : Association) : Decidable (w.EndedBy time) :=
  inferInstanceAs (Decidable (_ = true))

variable (s : Store)

def Store.history (h : Holder) : List Association :=
  (s.profile h).elim [] (·.walletHistory)

-- The wallet of an agent that is not archived.
def Store.Holds (h : Holder) (wallet : Address) : Prop :=
  ∃ p, s.profile h = some p ∧ p.archived = false ∧ p.wallet = some wallet

structure Exclusive : Prop where
  apart    : ∀ w login, s.linkOwner w = some login ∨ w ∈ s.linked login →
    s.agentWallet w = none ∧ ∀ h, ¬s.Holds h w
  single   : ∀ w h h', s.Holds h w → s.Holds h' w → h = h'
  disjoint : ∀ w t h h', walletAt (s.history h) w t → walletAt (s.history h') w t → h = h'

-- Where a wallet is claimed, the associations of other agents with it have ended by the time that the
-- claim is made for. Where it is linked, all have ended.
def GivenUp : Command → Prop
  | .claimKeyUnless w h time =>
    s.claimCode w h = 1 → ∀ h' ∈ s.agents, h' ≠ h → ∀ a ∈ s.history h', a.address = w → a.EndedBy time
  | .link login w            =>
    s.linkCode login w = 1 → ∀ h ∈ s.agents, ∀ a ∈ s.history h, a.address = w → a.untilTime ≠ none
  | _                        => True

instance decidableGivenUp : ∀ c, Decidable (GivenUp s c)
  | .claimKeyUnless w h time =>
    inferInstanceAs (Decidable (s.claimCode w h = 1 → ∀ h' ∈ s.agents, h' ≠ h → ∀ a ∈ s.history h',
      a.address = w → a.EndedBy time))
  | .link login w            =>
    inferInstanceAs (Decidable (s.linkCode login w = 1 → ∀ h ∈ s.agents, ∀ a ∈ s.history h,
      a.address = w → a.untilTime ≠ none))
  | .now | .randomId | .verifyMessage _ | .countChallenges _ | .lock .. | .unlock .. | .getIndex _
  | .setIndex .. | .getArchived _ | .setArchived .. | .getProfile _ | .setProfile .. | .getAgentWallet _
  | .releaseKey .. | .getLinkOwner _ | .setLinkChallenge .. | .takeLinkChallenge _ | .putChallenge ..
  | .takeChallenge _         => .isTrue trivial

end Statement

theorem walletAt_close {history : List Association} {time t : ℤ} {w : Address}
    (h : walletAt (history.map (·.close time)) w t) : walletAt history w t := by
  obtain ⟨a, ha, hw, hf, hu⟩ := h
  obtain ⟨b, hb, rfl⟩ := List.mem_map.mp ha
  rw [Association.close] at hw hf hu
  split at hw
  case isTrue hn => exact ⟨b, hb, hw, by simpa [hn] using hf, by simp [hn]⟩
  case isFalse hn => exact ⟨b, hb, hw, by simpa [hn] using hf, by simpa [hn] using hu⟩

theorem walletAt_append {history : List Association} {a : Association} {t : ℤ} {w : Address}
    (h : walletAt (history ++ [a]) w t) : walletAt history w t ∨ a.address = w ∧ a.fromTime ≤ t := by
  obtain ⟨b, hb, hw, hf, hu⟩ := h
  rcases List.mem_append.mp hb with hb | hb
  · exact .inl ⟨b, hb, hw, hf, hu⟩
  · rw [List.mem_singleton] at hb
    exact .inr (hb ▸ ⟨hw, hf⟩)

theorem Association.EndedBy.not_after {time t : ℤ} {a : Association} (h : a.EndedBy time)
    (ht : time ≤ t) (hf : a.fromTime ≤ t) : ∃ u ∈ a.untilTime, u ≤ t := by
  rw [Association.EndedBy, Option.any_eq_true] at h
  obtain ⟨u, hu, h⟩ := h
  exact ⟨u, hu, by have := of_decide_eq_true h; omega⟩

structure Invariant (s : Store) : Prop where
  owned    : ∀ w login, w ∈ s.linked login → s.linkOwner w = some login
  claimed  : ∀ w, (s.linkOwner w).isSome → s.agentWallet w = none
  held     : ∀ h w, s.Holds h w →
    s.linkOwner w = none ∧ ∃ a ∈ s.history h, a.address = w ∧ a.untilTime = none
  disjoint : ∀ w t h h', walletAt (s.history h) w t → walletAt (s.history h') w t → h = h'
  known    : ∀ h p, s.profile h = some p → h ∈ s.agents ∧ h.agentId < s.drawn

theorem Invariant.exclusive {s : Store} (hi : Invariant s) : Exclusive s where
  apart w login hl := by
    have ho : s.linkOwner w = some login := hl.elim id (hi.owned w login)
    refine ⟨hi.claimed w (by simp [ho]), fun h hh => ?_⟩
    exact absurd (hi.held h w hh).left (by simp [ho])
  single w h h' hh hh' := by
    obtain ⟨-, a, ha, haw, hao⟩ := hi.held h w hh
    obtain ⟨-, b, hb, hbw, hbo⟩ := hi.held h' w hh'
    refine hi.disjoint w (max a.fromTime b.fromTime) h h' ?_ ?_
    · exact ⟨a, ha, haw, le_max_left _ _, by simp [hao]⟩
    · exact ⟨b, hb, hbw, le_max_right _ _, by simp [hbo]⟩
  disjoint := hi.disjoint

-- What request `n` relies on while it holds a lock.
structure Rely (n : ℕ) (s s' : Store) : Prop where
  drawn   : s.drawn ≤ s'.drawn
  lock    : ∀ a, s.lock a = some n → s'.lock a = some n
  profile : ∀ h : Holder, s.lock h.owner = some n → s'.profile h = s.profile h
  claim   : ∀ w (h : Holder), s.lock h.owner = some n → s.agentWallet w = some h →
    s'.agentWallet w = some h ∧
    ∀ h' ≠ h, ∀ t, walletAt (s'.history h') w t → walletAt (s.history h') w t

theorem Rely.refl (n : ℕ) (s : Store) : Rely n s s :=
  ⟨le_rfl, fun _ => id, fun _ _ => rfl, fun _ _ _ hc => ⟨hc, fun _ _ _ => id⟩⟩

theorem Rely.trans {n : ℕ} {s₁ s₂ s₃ : Store} (h : Rely n s₁ s₂) (h' : Rely n s₂ s₃) : Rely n s₁ s₃ where
  drawn := h.drawn.trans h'.drawn
  lock a hl := h'.lock a (h.lock a hl)
  profile x hl := (h'.profile x (h.lock _ hl)).trans (h.profile x hl)
  claim w x hl hc := by
    have ⟨hc₂, hs₂⟩ := h.claim w x hl hc
    have ⟨hc₃, hs₃⟩ := h'.claim w x (h.lock _ hl) hc₂
    exact ⟨hc₃, fun y hy t ht => hs₂ y hy t (hs₃ y hy t ht)⟩

def discipline : Program.Discipline Store Command where
  invariant := Invariant
  rely      := Rely
  permitted := GivenUp
  refl      := Rely.refl
  trans _ _ _ _ h h' := h.trans h'

instance decidablePermitted (s : Store) (c : Command) : Decidable (discipline.permitted s c) :=
  decidableGivenUp s c

section Steps

variable {s s' : Store} {n m : ℕ} {h : Holder} {w : Address}

-- What concerns no wallet.
structure Quiet (s s' : Store) : Prop where
  profile     : s'.profile = s.profile
  lock        : s'.lock = s.lock
  agentWallet : s'.agentWallet = s.agentWallet
  linkOwner   : s'.linkOwner = s.linkOwner
  linked      : s'.linked = s.linked
  agents      : s'.agents = s.agents
  drawn       : s.drawn ≤ s'.drawn

theorem Quiet.history (hq : Quiet s s') : s'.history = s.history := by
  funext h
  rw [Store.history, Store.history, hq.profile]

theorem Quiet.rely (hq : Quiet s s') : Rely n s s' where
  drawn       := hq.drawn
  lock a hl   := hq.lock ▸ hl
  profile h _ := by rw [hq.profile]
  claim w h _ hc := by rw [hq.agentWallet, hq.history]; exact ⟨hc, fun _ _ _ => id⟩

theorem Quiet.invariant (hq : Quiet s s') (hi : Invariant s) : Invariant s' where
  owned    := by rw [hq.linked, hq.linkOwner]; exact hi.owned
  claimed  := by rw [hq.linkOwner, hq.agentWallet]; exact hi.claimed
  held h w := by
    rw [Store.Holds, hq.profile, hq.linkOwner, hq.history]
    exact hi.held h w
  disjoint := by rw [hq.history]; exact hi.disjoint
  known    := by
    rw [hq.profile, hq.agents]
    exact fun h p hp => ⟨(hi.known h p hp).left, (hi.known h p hp).right.trans_le hq.drawn⟩

theorem Quiet.keeps (hq : Quiet s s') (hi : Invariant s) : discipline.Keeps n s s' :=
  ⟨hq.invariant hi, fun _ _ => hq.rely⟩

def Command.quiet : Command → Bool
  | .lock .. | .unlock .. | .setProfile .. | .claimKeyUnless .. | .releaseKey .. | .link .. => false
  | _                                                                                     => true

theorem quiet_perform {c : Command} (hc : c.quiet) (r : Reply c) : Quiet s (s.perform c r).1 := by
  cases c
  case lock | unlock | setProfile | claimKeyUnless | releaseKey | link => cases hc
  all_goals constructor <;> first | rfl | exact le_rfl | exact Nat.le_succ _

-- The holder of one lock has no part in what the holder of another relies on.
theorem owner_ne {a b : Holder} (hmn : m ≠ n) (ha : s.lock a.owner = some n)
    (hb : s.lock b.owner = some m) : a ≠ b := by
  rintro rfl
  exact hmn (Option.some.inj (hb.symm.trans ha))

theorem setLock_invariant (hi : Invariant s) (a : Address) (t : Option ℕ) : Invariant (s.setLock a t) :=
  ⟨hi.owned, hi.claimed, hi.held, hi.disjoint, hi.known⟩

theorem setLock_rely {a : Address} {t : Option ℕ} (ha : s.lock a ≠ some m) : Rely m s (s.setLock a t) where
  drawn       := le_rfl
  lock b hl   := by
    have hb : b ≠ a := by rintro rfl; exact ha hl
    simpa only [Store.setLock, Function.update_of_ne hb] using hl
  profile _ _ := rfl
  claim _ _ _ hc := ⟨hc, fun _ _ _ => id⟩

theorem lock_keeps (hi : Invariant s) (a : Address) (r : Bool) :
    discipline.Keeps n s (s.perform (.lock a n) r).1 := by
  rw [Store.perform]
  split
  case isTrue hl  => exact ⟨setLock_invariant hi a _, fun m _ => setLock_rely (by simp [hl])⟩
  case isFalse hl => exact ⟨hi, fun m _ => Rely.refl m s⟩

theorem unlock_keeps (hi : Invariant s) (a : Address) (r : Unit) :
    discipline.Keeps n s (s.perform (.unlock a n) r).1 := by
  rw [Store.perform]
  split
  case isTrue hl  =>
    refine ⟨setLock_invariant hi a _, fun m hm => setLock_rely ?_⟩
    rw [hl]
    exact fun h => hm (Option.some.inj h).symm
  case isFalse hl => exact ⟨hi, fun m _ => Rely.refl m s⟩

theorem claimCode_one (hc : s.claimCode w h = 1) :
    s.linkOwner w = none ∧ ∀ h', s.agentWallet w = some h' → h' = h := by
  rw [Store.claimCode] at hc
  split at hc
  case isTrue   => cases hc
  case isFalse hl =>
    split at hc
    case isTrue     => cases hc
    case isFalse hw =>
      refine ⟨by simpa using hl, fun h' hh => ?_⟩
      simpa [hh] using hw

theorem linkCode_one {login : Address} (hc : s.linkCode login w = 1) :
    s.agentWallet w = none ∧ ∀ l, s.linkOwner w = some l → l = login := by
  rw [Store.linkCode] at hc
  split at hc
  case isTrue     => cases hc
  case isFalse ha =>
    split at hc
    case isTrue     => cases hc
    case isFalse hl =>
      refine ⟨by simpa using ha, fun l ho => ?_⟩
      simpa [ho] using hl

-- A wallet's key passes from nobody to its holder, or back.
theorem setAgentWallet_rely {o : Option Holder} (hmn : m ≠ n) (hl : s.lock h.owner = some n)
    (hw : ∀ h', s.agentWallet w = some h' → h' = h) : Rely m s (s.setAgentWallet w o) where
  drawn       := le_rfl
  lock _ hl   := hl
  profile _ _ := rfl
  claim w' h' hl' hc := by
    have hne : w' ≠ w := by
      rintro rfl
      exact owner_ne hmn hl hl' (hw h' hc).symm
    refine ⟨?_, fun _ _ _ => id⟩
    simpa only [Store.setAgentWallet, Function.update_of_ne hne] using hc

theorem claim_keeps {time : ℤ} (hi : Invariant s) (hl : s.lock h.owner = some n) (r : ℤ) :
    discipline.Keeps n s (s.perform (.claimKeyUnless w h time) r).1 := by
  simp only [Store.perform]
  split
  case isFalse => exact ⟨hi, fun m _ => Rely.refl m s⟩
  case isTrue hc =>
    have ⟨hn, hw⟩ := claimCode_one hc
    refine ⟨⟨hi.owned, fun w' ho => ?_, hi.held, hi.disjoint, hi.known⟩, fun m hmn =>
      setAgentWallet_rely hmn hl hw⟩
    have hne : w' ≠ w := by
      rintro rfl
      simp [Store.setAgentWallet, hn] at ho
    simpa only [Store.setAgentWallet, Function.update_of_ne hne] using hi.claimed w' ho

theorem release_keeps (hi : Invariant s) (hl : s.lock h.owner = some n) (r : Unit) :
    discipline.Keeps n s (s.perform (.releaseKey w h) r).1 := by
  simp only [Store.perform]
  split
  case isFalse => exact ⟨hi, fun m _ => Rely.refl m s⟩
  case isTrue hw =>
    refine ⟨⟨hi.owned, fun w' ho => ?_, hi.held, hi.disjoint, hi.known⟩, fun m hmn =>
      setAgentWallet_rely hmn hl fun h' hh => Option.some.inj (hh.symm.trans hw)⟩
    by_cases hne : w' = w
    · subst hne
      exact Function.update_self ..
    · simpa only [Store.setAgentWallet, Function.update_of_ne hne] using hi.claimed w' ho

-- What may be written into the profile of an agent.
structure Writes (s : Store) (h : Holder) (p : Profile) : Prop where
  known   : h.agentId < s.drawn
  held    : p.archived = false → ∀ w, p.wallet = some w →
    s.agentWallet w = some h ∧ ∃ a ∈ p.walletHistory, a.address = w ∧ a.untilTime = none
  history : ∀ w t, walletAt p.walletHistory w t → walletAt (s.history h) w t ∨
    s.agentWallet w = some h ∧ ∀ h' ≠ h, ¬walletAt (s.history h') w t

theorem setProfile_history_self {p : Profile} : (s.setProfile h p).history h = p.walletHistory := by
  simp [Store.history, Store.setProfile]

theorem setProfile_history_ne {p : Profile} {h' : Holder} (hne : h' ≠ h) :
    (s.setProfile h p).history h' = s.history h' := by
  simp only [Store.history, Store.setProfile, Function.update_of_ne hne]

theorem Writes.invariant {p : Profile} (hw : Writes s h p) (hi : Invariant s) :
    Invariant (s.setProfile h p) where
  owned     := hi.owned
  claimed   := hi.claimed
  held h' w := by
    rintro ⟨q, hq, ha, hqw⟩
    by_cases hne : h' = h
    case pos =>
      subst hne
      obtain rfl : p = q := by simpa [Store.setProfile] using hq
      have ⟨hc, ho⟩ := hw.held ha w hqw
      rw [setProfile_history_self]
      refine ⟨Option.not_isSome_iff_eq_none.mp fun hs => ?_, ho⟩
      simp [hi.claimed w hs] at hc
    case neg =>
      rw [setProfile_history_ne hne]
      simp only [Store.setProfile, Function.update_of_ne hne] at hq
      exact hi.held h' w ⟨q, hq, ha, hqw⟩
  disjoint w t := by
    have hself {h' : Holder} (hne : h' ≠ h) (hp : walletAt p.walletHistory w t)
        (ht : walletAt (s.history h') w t) : False := by
      rcases hw.history w t hp with hold | ⟨-, hfree⟩
      · exact hne (hi.disjoint w t h' h ht hold)
      · exact hfree h' hne ht
    intro a b ha hb
    by_cases hah : a = h <;> by_cases hbh : b = h
    · rw [hah, hbh]
    · subst hah
      rw [setProfile_history_self] at ha
      rw [setProfile_history_ne hbh] at hb
      exact (hself hbh ha hb).elim
    · subst hbh
      rw [setProfile_history_self] at hb
      rw [setProfile_history_ne hah] at ha
      exact (hself hah hb ha).elim
    · rw [setProfile_history_ne hah] at ha
      rw [setProfile_history_ne hbh] at hb
      exact hi.disjoint w t a b ha hb
  known h' q hq := by
    by_cases hne : h' = h
    · subst hne
      exact ⟨List.mem_insert_self, hw.known⟩
    · simp only [Store.setProfile, Function.update_of_ne hne] at hq
      have ⟨hk, hd⟩ := hi.known h' q hq
      exact ⟨List.mem_insert_of_mem hk, hd⟩

theorem setProfile_keeps {p : Profile} (hi : Invariant s) (hl : s.lock h.owner = some n)
    (hw : Writes s h p) (r : Unit) : discipline.Keeps n s (s.perform (.setProfile h p) r).1 := by
  refine ⟨hw.invariant hi, fun m hmn => ?_⟩
  constructor
  case drawn => exact le_rfl
  case lock  => exact fun _ => id
  case profile =>
    intro h' hl'
    exact Function.update_of_ne (owner_ne hmn hl hl').symm ..
  case claim =>
    intro w h' hl' hc
    refine ⟨hc, fun a ha t ht => ?_⟩
    simp only [Store.perform] at ht
    by_cases hah : a = h
    case neg => rwa [setProfile_history_ne hah] at ht
    case pos =>
      subst hah
      rw [setProfile_history_self] at ht
      refine (hw.history w t ht).resolve_right fun ⟨hc', _⟩ => ?_
      exact owner_ne hmn hl hl' (Option.some.inj (hc'.symm.trans hc))

theorem link_keeps {login : Address} (hi : Invariant s) (hg : GivenUp s (.link login w)) (r : ℤ) :
    discipline.Keeps n s (s.perform (.link login w) r).1 := by
  simp only [Store.perform]
  split
  case isFalse => exact ⟨hi, fun m _ => Rely.refl m s⟩
  case isTrue hc =>
    have hopen := hg hc
    have ⟨hn, ho⟩ := linkCode_one hc
    refine ⟨⟨?_, ?_, ?_, hi.disjoint, hi.known⟩, fun m _ =>
      ⟨le_rfl, fun _ => id, fun _ _ => rfl, fun _ _ _ hc => ⟨hc, fun _ _ _ => id⟩⟩⟩
    · intro w' l hl
      have hold : w' ∈ s.linked l ∨ w' = w ∧ l = login := by
        by_cases hne : l = login
        · subst hne
          simp only [Store.addLink, Function.update_self] at hl
          exact (List.mem_insert_iff.mp hl).elim (fun h => .inr ⟨h, rfl⟩) .inl
        · exact .inl (by simpa only [Store.addLink, Function.update_of_ne hne] using hl)
      by_cases hne : w' = w
      · subst hne
        have hl' : l = login := hold.elim (fun h => ho l (hi.owned w' l h)) And.right
        simp only [Store.addLink, Function.update_self, hl']
      · simp only [Store.addLink, Function.update_of_ne hne]
        exact hi.owned w' l (hold.resolve_right fun h => hne h.left)
    · intro w' hs
      by_cases hne : w' = w
      · subst hne
        exact hn
      · exact hi.claimed w' (by simpa only [Store.addLink, Function.update_of_ne hne] using hs)
    · intro h' w' hh
      have ⟨hw, a, ha, haw, hau⟩ := hi.held h' w' hh
      refine ⟨?_, a, ha, haw, hau⟩
      have hne : w' ≠ w := by
        rintro rfl
        obtain ⟨p, hp, -⟩ := hh
        exact hopen h' (hi.known h' p hp).left a ha haw hau
      simpa only [Store.addLink, Function.update_of_ne hne] using hw

end Steps

section Requests

variable {reserved : Address → Bool} {n : ℕ} {s : Store} {h : Holder} {w : Address} {α : Type}

abbrev Safe (reserved : Address → Bool) (n : ℕ) (p : Action α) (s : Store) : Prop :=
  Program.Safe (service reserved) discipline n p (fun _ _ => True) s

theorem safe_fail {e : Refusal} : Safe reserved n (.fail e : Action α) s := fun _ _ _ => trivial

theorem safe_pure {a : α} : Safe reserved n (pure a) s := fun _ _ _ => trivial

theorem safe_send {c : Command} {f : Reply c → Action α}
    (hk : ∀ s', Rely n s s' → Invariant s' → GivenUp s' c → ∀ r,
      discipline.Keeps n s' (s'.perform c r).1 ∧
      Safe reserved n (f (s'.perform c r).2) (s'.perform c r).1) : Safe reserved n (send c >>= f) s := by
  refine Program.Safe.of_bind <| Program.Safe.of_call (fun _ _ _ => trivial) fun s' hr hi hp r => ?_
  have ⟨hk, hf⟩ := hk s' hr hi hp r
  exact ⟨hk, fun s'' hr' _ => ⟨hf.stable hr', trivial⟩⟩

-- A command that concerns no wallet.
theorem safe_quiet {c : Command} {f : Reply c → Action α} (hc : c.quiet)
    (hf : ∀ s', Rely n s s' → Invariant s' → ∀ r,
      Safe reserved n (f (s'.perform c r).2) (s'.perform c r).1) : Safe reserved n (send c >>= f) s :=
  safe_send fun s' hr hi _ r => ⟨(quiet_perform hc r).keeps hi, hf s' hr hi r⟩

theorem safe_last {c : Command}
    (hk : ∀ s', Rely n s s' → Invariant s' → GivenUp s' c → ∀ r,
      discipline.Keeps n s' (s'.perform c r).1) : Safe reserved n (send c) s :=
  Program.Safe.of_call (fun _ _ _ => trivial) fun s' hr hi hp r =>
    ⟨hk s' hr hi hp r, fun _ _ _ => ⟨trivial, trivial⟩⟩

theorem safe_done {c : Command} (hc : c.quiet) : Safe reserved n (send c) s :=
  safe_last fun _ _ hi _ r => (quiet_perform hc r).keeps hi

theorem safe_locking {a : Address} {k : ℕ} :
    Program.Safe (service reserved) discipline n (locking n a k) (fun
      | .ok _, s    => s.lock a = some n
      | .error _, _ => True) s := by
  induction k generalizing s
  case zero      => exact fun _ _ _ => trivial
  case succ k ih =>
    refine Program.Safe.of_bind <| Program.Safe.of_call (fun _ _ _ => trivial) fun s' _ hi _ r =>
      ⟨lock_keeps hi a r, fun s'' hr _ => ⟨?_, trivial⟩⟩
    change Program.Safe _ _ _ (if (s'.perform (.lock a n) r).2 then pure () else locking n a k) _ _
    split
    case isFalse => exact ih
    case isTrue hl =>
      have hs : s'.lock a = none := by
        by_contra hn
        simp [Store.perform, hn] at hl
      refine Program.Safe.of_pure fun s₃ hr' _ => hr'.lock a (hr.lock a ?_)
      simp [service, Store.perform, hs, Store.setLock]

theorem safe_locked {a : Address} {fn : Action Unit}
    (hf : ∀ s, Invariant s → s.lock a = some n → Safe reserved n fn s) :
    Safe reserved n (locked n a fn) s := by
  refine Program.Safe.of_bind <| safe_locking.weaken fun r s hi hl => ?_
  cases r
  case error => trivial
  case ok    =>
    refine Program.Safe.of_ensure <| (hf s hi hl).weaken fun r s _ _ => ?_
    refine (safe_last fun s' _ hi _ r => unlock_keeps hi a r).weaken fun r _ _ _ => ?_
    cases r <;> trivial

theorem create_safe {a : Address} : Safe reserved n (create n a) s := by
  refine safe_locked fun s hi hl => ?_
  refine safe_quiet rfl fun s₁ hr₁ hi₁ _ => safe_quiet rfl fun s₂ hr₂ hi₂ _ => ?_
  split
  · exact safe_fail
  · split
    · exact safe_fail
    · refine safe_quiet rfl fun s₃ hr₃ hi₃ _ => safe_send fun s₄ hr₄ hi₄ _ r => ⟨?_, safe_done rfl⟩
      have hl₃ : s₃.lock a = some n := hr₃.lock a (hr₂.lock a (hr₁.lock a hl))
      have hw : Writes s₄ ⟨a, s₃.drawn⟩ ⟨false, none, []⟩ :=
        ⟨hr₄.drawn, fun _ _ hw => (by cases hw), fun _ _ ht => (by simp [walletAt] at ht)⟩
      exact setProfile_keeps hi₄ (hr₄.lock a hl₃) hw r

-- A store in which `h` gave up a wallet, as far as an agent cares that has another one.
structure Released (o : Option Address) (s s' : Store) : Prop where
  drawn       : s'.drawn = s.drawn
  lock        : s'.lock = s.lock
  profile     : s'.profile = s.profile
  agentWallet : ∀ w, o ≠ some w → s'.agentWallet w = s.agentWallet w

theorem Released.history {o : Option Address} {s' : Store} (hr : Released o s s') :
    s'.history = s.history := by
  funext h
  rw [Store.history, Store.history, hr.profile]

theorem release_safe {o : Option Address} {f : Unit → Action α} (hl : s.lock h.owner = some n)
    (hf : ∀ s' s'', Rely n s s' → Invariant s' → Released o s' s'' → Safe reserved n (f ()) s'') :
    Safe reserved n (release h o >>= f) s := by
  cases o
  case none        =>
    exact Program.Safe.of_forall fun s' hr hi => hf s' s' hr hi ⟨rfl, rfl, rfl, fun _ _ => rfl⟩
  case some wallet =>
    refine safe_send fun s' hr hi _ r => ⟨release_keeps hi (hr.lock _ hl) r, hf s' _ hr hi ?_⟩
    rw [Store.perform]
    split
    case isFalse => exact ⟨rfl, rfl, rfl, fun _ _ => rfl⟩
    case isTrue  =>
      exact ⟨rfl, rfl, rfl, fun w hw => Function.update_of_ne (fun he => hw (by rw [he])) ..⟩

theorem archive_safe {time : ℤ} : Safe reserved n (archive n h time) s := by
  refine safe_locked fun s hi hl => safe_quiet rfl fun s₁ hr₁ hi₁ _ => ?_
  refine safe_quiet rfl fun s₂ hr₂ hi₂ _ => ?_
  have hl₂ : s₂.lock h.owner = some n := hr₂.lock _ (hr₁.lock _ hl)
  split
  case h_1            => exact safe_pure
  case h_2 profile hp =>
    replace hp : s₂.profile h = some profile := hp
    split
    case isTrue  => exact safe_pure
    case isFalse =>
      refine release_safe hl₂ fun s₃ s₄ hr₃ hi₃ hr₄ => safe_send fun s₅ hr₅ hi₅ _ r => ⟨?_, ?_⟩
      · have hl₄ : s₄.lock h.owner = some n := hr₄.lock ▸ hr₃.lock _ hl₂
        have hp₃ : s₃.profile h = some profile := (hr₃.profile h hl₂).trans hp
        have hp₅ : s₅.profile h = some profile := by rw [hr₅.profile h hl₄, hr₄.profile, hp₃]
        refine setProfile_keeps hi₅ (hr₅.lock _ hl₄) ⟨(hi₅.known h profile hp₅).right, ?_, ?_⟩ r
        · exact fun ha => by cases ha
        · exact fun w t ht => .inl <| by simpa [Store.history, hp₅] using walletAt_close ht
      · exact safe_quiet rfl fun _ _ _ _ => safe_quiet rfl fun _ _ _ _ => safe_done rfl

-- What an agent knows between the claim of a wallet and the write of its profile.
structure Claimed (n : ℕ) (h : Holder) (profile : Profile) (w : Address) (time : ℤ) (s : Store) : Prop where
  lock    : s.lock h.owner = some n
  profile : s.profile h = some profile
  claim   : s.agentWallet w = some h
  free    : ∀ h' ≠ h, ∀ t, time ≤ t → ¬walletAt (s.history h') w t

section Claimed

variable {profile : Profile} {time : ℤ} {s' : Store}

theorem Claimed.rely (hc : Claimed n h profile w time s) (hr : Rely n s s') :
    Claimed n h profile w time s' where
  lock    := hr.lock _ hc.lock
  profile := (hr.profile h hc.lock).trans hc.profile
  claim   := (hr.claim w h hc.lock hc.claim).left
  free h' hh t ht ha := hc.free h' hh t ht ((hr.claim w h hc.lock hc.claim).right h' hh t ha)

theorem Claimed.released {o : Option Address} (hc : Claimed n h profile w time s) (ho : o ≠ some w)
    (hr : Released o s s') : Claimed n h profile w time s' where
  lock    := hr.lock ▸ hc.lock
  profile := hr.profile ▸ hc.profile
  claim   := (hr.agentWallet w ho).trans hc.claim
  free    := hr.history ▸ hc.free

theorem Claimed.of_claim (hi : Invariant s) (hl : s.lock h.owner = some n)
    (hp : s.profile h = some profile) (hg : GivenUp s (.claimKeyUnless w h time))
    (hc : s.claimCode w h = 1) : Claimed n h profile w time (s.setAgentWallet w (some h)) where
  lock    := hl
  profile := hp
  claim   := Function.update_self ..
  free h' hh t ht := by
    rintro ⟨a, ha, hw, hf, hu⟩
    replace ha : a ∈ s.history h' := ha
    have hk : h' ∈ s.agents := by
      cases hq : s.profile h'
      case none   => simp [Store.history, hq] at ha
      case some q => exact (hi.known h' q hq).left
    obtain ⟨u, hu', hle⟩ := (hg hc h' hk hh a ha hw).not_after ht hf
    exact absurd (hu u hu') (by omega)

theorem Claimed.writes (hc : Claimed n h profile w time s) (hi : Invariant s) :
    Writes s h { profile with
      wallet := some w, walletHistory := profile.walletHistory.map (·.close time) ++ [⟨w, time, none⟩] } where
  known := (hi.known h profile hc.profile).right
  held _ w' hw := by
    obtain rfl : w = w' := Option.some.inj hw
    exact ⟨hc.claim, ⟨w, time, none⟩, by simp, rfl, rfl⟩
  history w' t ht := by
    rcases walletAt_append ht with ht | ⟨rfl, hle⟩
    · exact .inl <| by simpa [Store.history, hc.profile] using walletAt_close ht
    · exact .inr ⟨hc.claim, fun h' hh => hc.free h' hh t hle⟩

end Claimed

theorem associateWallet_safe {time : ℤ} : Safe reserved n (associateWallet n h w time) s := by
  refine safe_locked fun s hi hl => safe_quiet rfl fun s₁ hr₁ hi₁ _ => ?_
  have hl₁ : s₁.lock h.owner = some n := hr₁.lock _ hl
  split
  case h_1            => exact safe_fail
  case h_2 profile hp =>
    replace hp : s₁.profile h = some profile := hp
    split
    case isTrue => exact safe_fail
    case isFalse =>
      split
      case isTrue     => exact safe_pure
      case isFalse hw =>
        refine safe_send fun s₂ hr₂ hi₂ hg₂ r => ⟨claim_keeps hi₂ (hr₂.lock _ hl₁) r, ?_⟩
        split
        case isTrue => exact safe_fail
        case isFalse =>
          split
          case isTrue     => exact safe_fail
          case isFalse hc =>
            replace hc : s₂.claimCode w h = 1 := not_not.mp hc
            have hcl := Claimed.of_claim hi₂ (hr₂.lock _ hl₁) ((hr₂.profile h hl₁).trans hp) hg₂ hc
            simp only [Store.perform, hc, if_true]
            refine release_safe hcl.lock fun s₃ s₄ hr₃ _ hr₄ => safe_last fun s₅ hr₅ hi₅ _ r => ?_
            have hcl₅ := ((hcl.rely hr₃).released hw hr₄).rely hr₅
            exact setProfile_keeps hi₅ hcl₅.lock (hcl₅.writes hi₅) r

theorem walletChallenge_safe {login : Address} {agentId session : ℕ} :
    Safe reserved n (walletChallenge reserved login agentId w session) s := by
  refine safe_quiet rfl fun s₁ hr₁ hi₁ _ => ?_
  split
  · exact safe_fail
  · repeat' split
    · exact safe_fail
    · exact safe_fail
    · refine safe_quiet rfl fun s₂ _ _ _ => ?_
      split
      · exact safe_fail
      · refine safe_quiet rfl fun s₃ _ _ _ => ?_
        split
        · exact safe_fail
        · exact safe_quiet rfl fun _ _ _ _ => safe_quiet rfl fun _ _ _ _ => safe_done rfl

theorem linkChallenge_safe {login : Address} {session : ℕ} :
    Safe reserved n (linkChallenge login w session) s := by
  rw [linkChallenge]
  split
  · exact safe_fail
  · refine safe_quiet rfl fun s₁ _ _ _ => ?_
    split
    · exact safe_fail
    · refine safe_quiet rfl fun s₂ _ _ _ => ?_
      split
      · exact safe_fail
      · exact safe_quiet rfl fun _ _ _ _ => safe_quiet rfl fun _ _ _ _ => safe_done rfl

theorem linkVerify_safe {login : Address} {id session : ℕ} :
    Safe reserved n (linkVerify login id session) s := by
  refine safe_quiet rfl fun s₁ _ _ _ => ?_
  split
  · exact safe_fail
  · refine safe_quiet rfl fun s₂ _ _ _ => ?_
    split
    · exact safe_fail
    · refine safe_quiet rfl fun s₃ _ _ _ => ?_
      split
      · exact safe_fail
      · refine safe_quiet rfl fun s₄ _ _ _ => ?_
        split
        · exact safe_fail
        · refine safe_send fun s₅ _ hi₅ hg₅ r => ⟨link_keeps hi₅ hg₅ r, ?_⟩
          repeat' split
          all_goals first | exact safe_fail | exact safe_pure

theorem walletVerify_safe {login : Address} {agentId id session : ℕ} :
    Safe reserved n (walletVerify n login agentId id session) s := by
  refine safe_quiet rfl fun s₁ _ _ _ => ?_
  split
  · exact safe_fail
  · refine safe_quiet rfl fun s₂ _ _ _ => ?_
    split
    · exact safe_fail
    · refine safe_quiet rfl fun s₃ _ _ _ => ?_
      split
      · exact safe_fail
      · refine safe_quiet rfl fun s₄ _ _ _ => ?_
        split
        · exact safe_fail
        · refine safe_quiet rfl fun s₅ _ _ _ => ?_
          split
          · exact safe_fail
          · exact safe_quiet rfl fun _ _ _ _ => associateWallet_safe

theorem service_obeys : (service reserved).Obeys discipline where
  code n q s _ := by
    cases q
    case create          => exact create_safe
    case delete          => exact safe_quiet rfl fun _ _ _ _ => archive_safe
    case walletChallenge => exact walletChallenge_safe
    case walletVerify    => exact walletVerify_safe
    case linkChallenge   => exact linkChallenge_safe
    case linkVerify      => exact linkVerify_safe
  drift _ e := e.elim

theorem empty_invariant : Invariant .empty where
  owned _ _ hw   := by cases hw
  claimed _ hw   := by cases hw
  held _ _       := fun ⟨_, hp, _⟩ => by cases hp
  disjoint _ _ _ _ := fun ⟨_, hm, _⟩ => by cases hm
  known _ _ hp   := by cases hp

end Requests

abbrev reached (reserved : Address → Bool) (es : List (Program.Event Reply Request Empty)) : Store :=
  (Run.run (service reserved).step (.initial .empty) es).store

-- Interleavings of the requests of any number of accounts and agents.
theorem wallets_exclusive (reserved : Address → Bool)
    (es : List (Program.Event Reply Request Empty))
    (h : Run.Along (service reserved).step discipline.Permits (.initial .empty) es) :
    Exclusive (reached reserved es) :=
  (Program.World.Sound.run service_obeys (.initial empty_invariant) h).invariant.exclusive

section Samples

-- Valid signatures, no rate limits, and a clock. The store knows the rest.
def answers (time : ℤ) : (c : Command) → Reply c
  | .now                 => time
  | .verifyMessage _     => true
  | .lock ..             => false
  | .randomId | .countChallenges _       => (0 : ℕ)
  | .claimKeyUnless .. | .link ..        => (0 : ℤ)
  | .getIndex _ | .getArchived _         => ([] : List ℕ)
  | .getProfile _        => none
  | .getAgentWallet _    => none
  | .getLinkOwner _      => none
  | .takeLinkChallenge _ => none
  | .takeChallenge _     => none
  | .unlock .. | .setIndex .. | .setArchived .. | .setProfile .. | .releaseKey .. | .setLinkChallenge ..
  | .putChallenge ..     => ()

-- The next `k` commands of a request.
def goes (n k : ℕ) (time : ℤ) : List (Program.Event Reply Request Empty) :=
  List.replicate k (.proceed n .done (answers time))

-- An agent of account 1 and one of account 2, both with a challenge for wallet 7. Account 1 also has
-- one for wallet 8, and account 3 one to link wallet 7. Then the first agent proves wallet 7.
def opening : List (Program.Event Reply Request Empty) :=
  .start 0 (.create 1) :: goes 0 7 5 ++ .start 1 (.create 2) :: goes 1 7 5 ++
  .start 2 (.walletChallenge 1 0 7 0) :: goes 2 6 5 ++ .start 3 (.walletChallenge 2 1 7 0) :: goes 3 6 5 ++
  .start 4 (.walletChallenge 1 0 8 0) :: goes 4 6 5 ++ .start 5 (.linkChallenge 3 7 0) :: goes 5 5 5 ++
  .start 6 (.walletVerify 1 0 2 0) :: goes 6 11 10

def anyWallet : Address → Bool := fun _ => false

-- The second agent proves wallet 7 after the first one was deleted.
def handover : List (Program.Event Reply Request Empty) :=
  opening ++ .start 7 (.delete 1 0) :: goes 7 10 21 ++ .start 8 (.walletVerify 2 1 3 0) :: goes 8 11 22

theorem wallets_exclusive_handover : Exclusive (reached anyWallet handover) :=
  wallets_exclusive anyWallet handover (by decide +kernel)

example : (reached anyWallet handover).agentWallet 7 = some ⟨2, 1⟩ := by decide +kernel

-- The second agent reads the time, and waits while the first one is deleted.
def lateClaim : List (Program.Event Reply Request Empty) :=
  opening ++ .start 8 (.walletVerify 2 1 3 0) :: goes 8 6 20 ++ .start 7 (.delete 1 0) :: goes 7 10 21 ++
  goes 8 5 22

-- The first agent moves to wallet 8. Wallet 7 is free before its profile says so.
def moving : List (Program.Event Reply Request Empty) :=
  opening ++ .start 7 (.walletVerify 1 0 4 0) :: goes 7 10 20

def earlyClaim : List (Program.Event Reply Request Empty) :=
  moving ++ .start 8 (.walletVerify 2 1 3 0) :: goes 8 11 21

def earlyLink : List (Program.Event Reply Request Empty) :=
  moving ++ .start 8 (.linkVerify 3 5 0) :: goes 8 5 21

theorem not_disjoint : ∃ w t h h', h ≠ h' ∧ walletAt ((reached anyWallet lateClaim).history h) w t ∧
    walletAt ((reached anyWallet lateClaim).history h') w t := by
  have h₁ : (reached anyWallet lateClaim).history ⟨1, 0⟩ = [⟨7, 10, some 21⟩] := by decide +kernel
  have h₂ : (reached anyWallet lateClaim).history ⟨2, 1⟩ = [⟨7, 20, none⟩] := by decide +kernel
  refine ⟨7, 20, ⟨1, 0⟩, ⟨2, 1⟩, by decide, ?_⟩
  rw [h₁, h₂]
  simp [walletAt]

theorem not_single : ∃ w h h', h ≠ h' ∧ (reached anyWallet earlyClaim).Holds h w ∧
    (reached anyWallet earlyClaim).Holds h' w := by
  have h₁ : (reached anyWallet earlyClaim).profile ⟨1, 0⟩ = some ⟨false, some 7, [⟨7, 10, none⟩]⟩ := by
    decide +kernel
  have h₂ : (reached anyWallet earlyClaim).profile ⟨2, 1⟩ = some ⟨false, some 7, [⟨7, 21, none⟩]⟩ := by
    decide +kernel
  exact ⟨7, ⟨1, 0⟩, ⟨2, 1⟩, by decide, ⟨_, h₁, rfl, rfl⟩, ⟨_, h₂, rfl, rfl⟩⟩

theorem not_apart : ∃ w login h, (reached anyWallet earlyLink).linkOwner w = some login ∧
    (reached anyWallet earlyLink).Holds h w := by
  have h₁ : (reached anyWallet earlyLink).profile ⟨1, 0⟩ = some ⟨false, some 7, [⟨7, 10, none⟩]⟩ := by
    decide +kernel
  exact ⟨7, 3, ⟨1, 0⟩, by decide +kernel, ⟨_, h₁, rfl, rfl⟩⟩

-- Each of the three parts fails in some run.
theorem wallet_shared : ¬Exclusive (reached anyWallet lateClaim) ∧
    ¬Exclusive (reached anyWallet earlyClaim) ∧ ¬Exclusive (reached anyWallet earlyLink) := by
  refine ⟨fun h => ?late, fun h => ?early, fun h => ?linked⟩
  case late   =>
    obtain ⟨w, t, a, b, hne, ha, hb⟩ := not_disjoint
    exact hne (h.disjoint w t a b ha hb)
  case early  =>
    obtain ⟨w, a, b, hne, ha, hb⟩ := not_single
    exact hne (h.single w a b ha hb)
  case linked =>
    obtain ⟨w, login, a, hl, ha⟩ := not_apart
    exact (h.apart w login (.inl hl)).right a ha

end Samples

end AgentWallets
