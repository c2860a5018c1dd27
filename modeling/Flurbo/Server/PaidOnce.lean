import Flurbo.Server.StarterFunds

-- What the reservations and the kept bytes of the service guarantee.

open Evm Except Account

namespace StarterFunds

variable {cfg : Config} {s s' : State} {event : Event} {n m : ℕ} {c d : Call} {p q : Payment} {phase : Phase}

section Sound

-- The calls that have reserved their login, until they give it up.
def Phase.holdsAccount : Phase → Bool
  | network | balance | reserveAccount | uncount _ | paid _ | refused _ => false
  | _                                                                 => true

def Phase.holdsWallet : Phase → Bool
  | network | balance | reserveAccount | reserveWallet | dropAccount | uncount _ | paid _ | refused _ => false
  | _                                                                                              => true

abbrev Payment.compatible (chain : Account Payment) (p q : Payment) : Prop :=
  chain.Compatible Payment.nonce p q

-- The bytes are the only ones for the wallet that may still land, up to bytes with the same nonce.
def State.OnlyFor (s : State) (p : Payment) : Prop :=
  ∀ x ∈ s.sent, x.2.target = p.target → p.compatible s.chain x.2

-- So they are for the login too.
def State.Only (s : State) (login : Address) (p : Payment) : Prop :=
  ∀ x ∈ s.sent, x.1 = login ∨ x.2.target = p.target → p.compatible s.chain x.2

-- What a call knows about the kept bytes of its wallet, and about the bytes that it has at hand.
def Knows (s : State) (c : Call) : Prop :=
  match c.phase with
  | .lookKept _ saved | .countKept _ saved     =>
    (∀ p, s.store.unsent c.target = some p → p = saved) ∧ saved.target = c.target ∧ s.OnlyFor saved
  | .prepare _                                 => s.store.unsent c.target = none
  | .broadcast _ raw | .arrive _ raw _ | .keep _ raw =>
    (∀ p, s.store.unsent c.target = some p → p = raw) ∧ raw.target = c.target ∧ s.Only c.login raw
  | _                                          => True

structure Sound (s : State) : Prop where
  ordered  : s.chain.Ordered Payment.nonce
  account  : ∀ n c, s.calls n = some c → c.phase.holdsAccount → s.store.account c.login ≠ none
  wallet   : ∀ n c, s.calls n = some c → c.phase.holdsWallet → s.store.wallet c.target ≠ none
  accounts : ∀ n m c d, s.calls n = some c → s.calls m = some d → c.phase.holdsAccount →
               d.phase.holdsAccount → c.login = d.login → n = m
  wallets  : ∀ n m c d, s.calls n = some c → s.calls m = some d → c.phase.holdsWallet →
               d.phase.holdsWallet → c.target = d.target → n = m
  knows    : ∀ n c, s.calls n = some c → Knows s c
  kept     : ∀ target p, s.store.unsent target = some p → p.target = target ∧ s.OnlyFor p
  sent     : ∀ x ∈ s.sent, s.Only x.1 x.2

theorem Sound.initial {first : ℕ} : Sound (State.initial first) where
  ordered  := ⟨fun _ _ h => by simp [State.initial] at h⟩
  account  := fun _ _ h => by cases h
  wallet   := fun _ _ h => by cases h
  accounts := fun _ _ _ _ h => by cases h
  wallets  := fun _ _ _ _ h => by cases h
  knows    := fun _ _ h => by cases h
  kept     := fun _ _ h => by cases h
  sent     := List.forall_mem_nil _

theorem holdsAccount_of_holdsWallet (h : phase.holdsWallet) : phase.holdsAccount := by
  cases phase <;> first | rfl | cases h

end Sound

section Frame

theorem calls_enter : (s.enter n c phase).calls m = if m = n then some { c with phase } else s.calls m := by
  by_cases h : m = n
  · subst h
    simp [State.enter, State.set]
  · simp [State.enter, State.set, h]

theorem knows_of_not_holdsWallet (h : c.phase.holdsWallet = false) : Knows s c := by
  unfold Knows
  split <;> first | trivial | (rename_i hp; rw [hp] at h; cases h)

-- What a call knows carries over as long as kept bytes only disappear and nothing else is broadcast
-- for it.
theorem Knows.mono {s₁ s₂ : State} (h : Knows s₁ c)
    (hu : ∀ p, s₂.store.unsent c.target = some p → s₁.store.unsent c.target = some p)
    (ho : ∀ p : Payment, p.target = c.target → s₁.OnlyFor p → s₂.OnlyFor p)
    (hl : ∀ p : Payment, p.target = c.target → s₁.Only c.login p → s₂.Only c.login p) : Knows s₂ c := by
  unfold Knows at h ⊢
  split at h
  case h_1 => exact ⟨fun p hp => h.left p (hu p hp), h.right.left, ho _ h.right.left h.right.right⟩
  case h_2 => exact ⟨fun p hp => h.left p (hu p hp), h.right.left, ho _ h.right.left h.right.right⟩
  case h_3 =>
    by_contra hn
    obtain ⟨p, hp⟩ := Option.ne_none_iff_exists'.mp hn
    cases h.symm.trans (hu p hp)
  case h_4 => exact ⟨fun p hp => h.left p (hu p hp), h.right.left, hl _ h.right.left h.right.right⟩
  case h_5 => exact ⟨fun p hp => h.left p (hu p hp), h.right.left, hl _ h.right.left h.right.right⟩
  case h_6 => exact ⟨fun p hp => h.left p (hu p hp), h.right.left, hl _ h.right.left h.right.right⟩
  case h_7 => trivial

-- A call goes on. What it holds from now on it held before, or nobody does.
theorem Sound.enter (h : Sound s) (hc : s.calls n = some c)
    (ha : phase.holdsAccount → c.phase.holdsAccount ∨ s.store.account c.login ≠ none ∧
      ∀ m d, s.calls m = some d → d.phase.holdsAccount → d.login ≠ c.login)
    (hw : phase.holdsWallet → c.phase.holdsWallet ∨ s.store.wallet c.target ≠ none ∧
      ∀ m d, s.calls m = some d → d.phase.holdsWallet → d.target ≠ c.target)
    (hk : Knows s { c with phase }) : Sound (s.enter n c phase) where
  ordered  := h.ordered
  account  := by
    intro m d hd hp
    rw [calls_enter] at hd
    split at hd
    case isTrue  => cases hd; exact (ha hp).elim (h.account n c hc) And.left
    case isFalse => exact h.account m d hd hp
  wallet   := by
    intro m d hd hp
    rw [calls_enter] at hd
    split at hd
    case isTrue  => cases hd; exact (hw hp).elim (h.wallet n c hc) And.left
    case isFalse => exact h.wallet m d hd hp
  accounts := by
    have hother (m : ℕ) (d : Call) (hd : s.calls m = some d) (hpd : d.phase.holdsAccount)
        (hp : phase.holdsAccount) (he : d.login = c.login) : m = n := by
      rcases ha hp with hp | ⟨_, hno⟩
      · exact h.accounts m n d c hd hc hpd hp he
      · exact absurd he (hno m d hd hpd)
    intro m k d e hd he hpd hpe heq
    rw [calls_enter] at hd he
    split at hd <;> split at he
    case isTrue.isTrue hm hk   => rw [hm, hk]
    case isTrue.isFalse hm _   => cases hd; exact hm.trans (hother k e he hpe hpd heq.symm).symm
    case isFalse.isTrue _ hk   => cases he; exact (hother m d hd hpd hpe heq).trans hk.symm
    case isFalse.isFalse       => exact h.accounts m k d e hd he hpd hpe heq
  wallets  := by
    have hother (m : ℕ) (d : Call) (hd : s.calls m = some d) (hpd : d.phase.holdsWallet)
        (hp : phase.holdsWallet) (he : d.target = c.target) : m = n := by
      rcases hw hp with hp | ⟨_, hno⟩
      · exact h.wallets m n d c hd hc hpd hp he
      · exact absurd he (hno m d hd hpd)
    intro m k d e hd he hpd hpe heq
    rw [calls_enter] at hd he
    split at hd <;> split at he
    case isTrue.isTrue hm hk   => rw [hm, hk]
    case isTrue.isFalse hm _   => cases hd; exact hm.trans (hother k e he hpe hpd heq.symm).symm
    case isFalse.isTrue _ hk   => cases he; exact (hother m d hd hpd hpe heq).trans hk.symm
    case isFalse.isFalse       => exact h.wallets m k d e hd he hpd hpe heq
  knows    := by
    intro m d hd
    rw [calls_enter] at hd
    split at hd
    case isTrue  => cases hd; exact hk
    case isFalse => exact h.knows m d hd
  kept     := h.kept
  sent     := h.sent

-- A call ends or goes on with less than it held.
theorem Sound.enter_of_le (h : Sound s) (hc : s.calls n = some c) (ha : phase.holdsAccount → c.phase.holdsAccount)
    (hw : phase.holdsWallet → c.phase.holdsWallet) (hk : Knows s { c with phase }) :
    Sound (s.enter n c phase) :=
  h.enter hc (fun hp => .inl (ha hp)) (fun hp => .inl (hw hp)) hk

theorem Sound.go (h : Sound s) (hc : s.calls n = some c) (hp : c.phase.holdsWallet)
    (hk : Knows s { c with phase }) : Sound (s.enter n c phase) :=
  h.enter_of_le hc (fun _ => holdsAccount_of_holdsWallet hp) (fun _ => hp) hk

theorem Sound.refuse {reason : Refusal} (h : Sound s) (hc : s.calls n = some c) :
    Sound (s.enter n c (.refused reason)) :=
  h.enter_of_le hc (fun hp => by cases hp) (fun hp => by cases hp) trivial

theorem Sound.setAccount {login : Address} {record : Option Record} (h : Sound s)
    (hr : record ≠ none ∨ ∀ m d, s.calls m = some d → d.phase.holdsAccount → d.login ≠ login) :
    Sound { s with store := s.store.setAccount login record } where
  ordered  := h.ordered
  account  := by
    intro m d hd hp
    by_cases he : d.login = login
    · simp only [Store.setAccount, he, Function.update_self]
      exact hr.resolve_right fun hno => hno m d hd hp he
    · simp only [Store.setAccount, Function.update_of_ne he]
      exact h.account m d hd hp
  wallet   := h.wallet
  accounts := h.accounts
  wallets  := h.wallets
  knows m d hd := h.knows m d hd
  kept     := h.kept
  sent     := h.sent

theorem Sound.setWallet {target : Address} {login : Option Address} (h : Sound s)
    (hr : login ≠ none ∨ ∀ m d, s.calls m = some d → d.phase.holdsWallet → d.target ≠ target) :
    Sound { s with store := s.store.setWallet target login } where
  ordered  := h.ordered
  account  := h.account
  wallet   := by
    intro m d hd hp
    by_cases he : d.target = target
    · simp only [Store.setWallet, he, Function.update_self]
      exact hr.resolve_right fun hno => hno m d hd hp he
    · simp only [Store.setWallet, Function.update_of_ne he]
      exact h.wallet m d hd hp
  accounts := h.accounts
  wallets  := h.wallets
  knows m d hd := h.knows m d hd
  kept     := h.kept
  sent     := h.sent

theorem Sound.add {day k : ℤ} (h : Sound s) : Sound { s with store := s.store.add day k } :=
  ⟨h.ordered, h.account, h.wallet, h.accounts, h.wallets, fun m d hd => h.knows m d hd, h.kept, h.sent⟩

theorem Sound.drop_unsent {target : Address} (h : Sound s) : Sound { s with store := s.store.setUnsent target none } := by
  have hu (t : Address) (p : Payment) (hp : (s.store.setUnsent target none).unsent t = some p) :
      s.store.unsent t = some p := by
    by_cases he : t = target
    · simp only [Store.setUnsent, he, Function.update_self] at hp
      cases hp
    · simpa only [Store.setUnsent, Function.update_of_ne he] using hp
  exact ⟨h.ordered, h.account, h.wallet, h.accounts, h.wallets,
    fun m d hd => (h.knows m d hd).mono (hu _) (fun _ _ ho => ho) (fun _ _ ho => ho),
    fun t p hp => h.kept t p (hu t p hp), h.sent⟩

-- A call that holds the wallet keeps the bytes that it has at hand.
theorem Sound.keep {day : ℤ} (h : Sound s) (hc : s.calls n = some c) (hp : c.phase = .keep day p) :
    Sound { s with store := s.store.setUnsent c.target (some p) } := by
  have hk := h.knows n c hc
  simp only [Knows, hp] at hk
  obtain ⟨_, ht, ho⟩ := hk
  have hother (m : ℕ) (d : Call) (hd : s.calls m = some d) (hw : d.phase.holdsWallet) (hm : m ≠ n) :
      d.target ≠ c.target :=
    fun he => hm (h.wallets m n d c hd hc hw (by rw [hp]; rfl) he)
  refine ⟨h.ordered, h.account, h.wallet, h.accounts, h.wallets, fun m d hd => ?_, fun t q hq => ?_, h.sent⟩
  · by_cases hm : m = n
    · cases hm
      cases hc.symm.trans hd
      simp only [Knows, hp, Store.setUnsent, Function.update_self]
      exact ⟨fun q hq => (Option.some.inj hq).symm, ht, ho⟩
    · by_cases hw : d.phase.holdsWallet
      · refine (h.knows m d hd).mono (fun q hq => ?_) (fun _ _ ho => ho) fun _ _ ho => ho
        simpa only [Store.setUnsent, Function.update_of_ne (hother m d hd hw hm)] using hq
      · exact knows_of_not_holdsWallet (by simpa using hw)
  · by_cases he : t = c.target
    · simp only [Store.setUnsent, he, Function.update_self, Option.some.injEq] at hq
      subst hq
      exact ⟨ht.trans he.symm, fun x hx htx => ho x hx (.inr htx)⟩
    · simp only [Store.setUnsent, Function.update_of_ne he] at hq
      exact h.kept t q hq

theorem Sound.mine {tx : Option Payment} (h : Sound s) (ht : ∀ p, tx = some p → p.nonce = s.chain.count) :
    Sound { s with chain := s.chain.mine tx } where
  ordered  := h.ordered.mine ht
  account  := h.account
  wallet   := h.wallet
  accounts := h.accounts
  wallets  := h.wallets
  knows m d hd := (h.knows m d hd).mono (fun _ hp => hp) (fun _ _ ho x hx hxt => (ho x hx hxt).mine ht)
    fun _ _ ho x hx hxt => (ho x hx hxt).mine ht
  kept t p hp  := ⟨(h.kept t p hp).left, fun x hx hxt => ((h.kept t p hp).right x hx hxt).mine ht⟩
  sent x hx    := fun y hy hxy => (h.sent x hx y hy hxy).mine ht

-- The bytes of a call go out. No other call has anything to do with its login or its wallet.
theorem Sound.broadcast {day : ℤ} (h : Sound s) (hc : s.calls n = some c) (hp : c.phase = .broadcast day p) :
    Sound { s with sent := (c.login, p) :: s.sent } := by
  have hk := h.knows n c hc
  simp only [Knows, hp] at hk
  obtain ⟨hu, ht, ho⟩ := hk
  have hself : p.compatible s.chain p := .refl
  have hother (m : ℕ) (d : Call) (hd : s.calls m = some d) (hw : d.phase.holdsWallet) (hm : m ≠ n) :
      d.target ≠ p.target ∧ d.login ≠ c.login :=
    ⟨fun he => hm (h.wallets m n d c hd hc hw (by rw [hp]; rfl) (he.trans ht)),
      fun he => hm (h.accounts m n d c hd hc (holdsAccount_of_holdsWallet hw) (by rw [hp]; rfl) he)⟩
  refine ⟨h.ordered, h.account, h.wallet, h.accounts, h.wallets, fun m d hd => ?_, fun t q hq => ?_, ?_⟩
  · by_cases hm : m = n
    · cases hm
      cases hc.symm.trans hd
      simp only [Knows, hp]
      exact ⟨hu, ht, List.forall_mem_cons.mpr ⟨fun _ => hself, ho⟩⟩
    · by_cases hw : d.phase.holdsWallet
      · obtain ⟨htarget, hlogin⟩ := hother m d hd hw hm
        refine (h.knows m d hd).mono (fun _ hq => hq) (fun q hq ho => ?_) fun q hq ho => ?_
        · exact List.forall_mem_cons.mpr ⟨fun he => absurd (hq.symm.trans he.symm) htarget, ho⟩
        · refine List.forall_mem_cons.mpr ⟨fun he => ?_, ho⟩
          rcases he with he | he
          · exact absurd he.symm hlogin
          · exact absurd (hq.symm.trans he.symm) htarget
      · exact knows_of_not_holdsWallet (by simpa using hw)
  · obtain ⟨hqt, hqo⟩ := h.kept t q hq
    refine ⟨hqt, List.forall_mem_cons.mpr ⟨fun hpt => ?_, hqo⟩⟩
    have hct : c.target = t := ht.symm.trans (hpt.trans hqt)
    rw [hu q (hct ▸ hq)]
    exact hself
  · refine List.forall_mem_cons.mpr ⟨List.forall_mem_cons.mpr ⟨fun _ => hself, ho⟩, fun x hx => ?_⟩
    refine List.forall_mem_cons.mpr ⟨fun he => ?_, h.sent x hx⟩
    exact (ho x hx (he.imp Eq.symm Eq.symm)).symm

end Frame

section Steps

def Phase.signs : Phase → Bool
  | prepare _ => true
  | _         => false

def Phase.counts : Phase → Option Payment
  | countKept _ saved => some saved
  | _                 => none

-- A call takes up bytes, signed anew or kept, only if nothing else that was broadcast for its login or
-- its wallet may land beside them. Of kept bytes the wallet need not be asked about.
def Clear (cfg : Config) (s : State) : Event → Prop
  | .prepare n (some (nonce, fees)) => ∀ c ∈ s.calls n, c.phase.signs →
      s.Only c.login ⟨c.target, cfg.amount, nonce, fees⟩
  | .latest n (some count)          => ∀ c ∈ s.calls n, ∀ saved ∈ c.phase.counts, count ≤ saved.nonce →
      ∀ x ∈ s.sent, x.1 = c.login → saved.compatible s.chain x.2
  | _                               => True

instance decidableOnly {login : Address} : Decidable (s.Only login p) :=
  inferInstanceAs (Decidable (∀ x ∈ s.sent, _ → _))

instance decidableClear : (event : Event) → Decidable (Clear cfg s event)
  | .prepare n (some (_, _)) => inferInstanceAs (Decidable (∀ c ∈ s.calls n, _ → s.Only _ _))
  | .latest n (some _)        =>
    inferInstanceAs (Decidable (∀ c ∈ s.calls n, ∀ saved ∈ c.phase.counts, _ → ∀ x ∈ s.sent, _ → _))
  | .prepare _ none | .latest _ none | .send .. | .network .. | .balance .. | .command .. | .lookup ..
  | .broadcast .. | .crash _ | .expire _ | .mine _ => inferInstanceAs (Decidable True)

theorem Sound.answer (h : Sound s) (hc : s.calls n = some c) (he : event.call = n) (hclear : Clear cfg s event)
    (ha : answer cfg c c.phase event = some phase) : Sound (s.enter n c phase) := by
  have hk := h.knows n c hc
  unfold StarterFunds.answer at ha
  split at ha
  case h_1                            =>
    cases ha
    split
    · exact h.refuse hc
    · split
      · exact h.refuse hc
      · exact h.enter_of_le hc (fun hp => by cases hp) (fun hp => by cases hp) trivial
  case h_2                            =>
    cases ha
    split
    · exact h.refuse hc
    · split
      · exact h.refuse hc
      · exact h.enter_of_le hc (fun hp => by cases hp) (fun hp => by cases hp) trivial
  case h_3 day saved _ found hp       =>
    cases ha
    have hw : c.phase.holdsWallet := by rw [hp]; rfl
    simp only [Knows, hp] at hk
    split
    · exact h.go hc hw trivial
    · exact h.go hc hw hk
  case h_4 day saved _ count hp       =>
    cases ha
    have hw : c.phase.holdsWallet := by rw [hp]; rfl
    simp only [Knows, hp] at hk
    split
    · exact h.go hc hw trivial
    · split
      · exact h.go hc hw trivial
      · rename_i count hle
        cases he
        refine h.go hc hw ⟨hk.left, hk.right.left, fun x hx hxt => ?_⟩
        rcases hxt with hlogin | htarget
        · exact hclear c hc saved (by rw [hp]; rfl) (not_lt.mp hle) x hx hlogin
        · exact hk.right.right x hx htarget
  case h_5 day _ request hp           =>
    cases ha
    have hw : c.phase.holdsWallet := by rw [hp]; rfl
    simp only [Knows, hp] at hk
    split
    · exact h.go hc hw trivial
    · rename_i nonce fees
      cases he
      exact h.go hc hw ⟨fun p hu => (by cases hk.symm.trans hu), rfl, hclear c hc (by rw [hp]; rfl)⟩
  case h_6 day raw looks _ found hp   =>
    cases ha
    have hw : c.phase.holdsWallet := by rw [hp]; rfl
    simp only [Knows, hp] at hk
    split
    · exact h.go hc hw trivial
    · split
      · exact h.go hc hw hk
      · exact h.go hc hw hk
  case h_7                            => cases ha

variable {store : Store} {answered thrown : Phase} {now : ℤ} {fate : Fate}

-- A call gives up its login, and its wallet if it holds that too.
theorem Sound.free_account (h : Sound s) (hc : s.calls n = some c) (hp : c.phase.holdsAccount)
    (hf : phase.holdsAccount = false) :
    Sound { s.enter n c phase with store := s.store.setAccount c.login none } := by
  have hw : phase.holdsWallet = false := by
    by_contra hw
    exact absurd (holdsAccount_of_holdsWallet (by simpa using hw)) (by simp [hf])
  have he : Sound (s.enter n c phase) := h.enter_of_le hc (fun hp => absurd hp (by simp [hf]))
    (fun hp => absurd hp (by simp [hw])) (knows_of_not_holdsWallet hw)
  refine he.setAccount (.inr fun m d hd hpd => ?_)
  rw [calls_enter] at hd
  split at hd
  case isTrue     => cases hd; exact absurd hpd (by simp [hf])
  case isFalse hm => exact fun heq => hm (h.accounts m n d c hd hc hpd hp heq)

theorem Sound.free (h : Sound s) (hc : s.calls n = some c) (hp : c.phase.holdsWallet)
    (hf : phase.holdsAccount = false) :
    Sound { s.enter n c phase with
      store := (s.store.setAccount c.login none).setWallet c.target none } := by
  have hw : phase.holdsWallet = false := by
    by_contra hw
    exact absurd (holdsAccount_of_holdsWallet (by simpa using hw)) (by simp [hf])
  have he := h.free_account hc (holdsAccount_of_holdsWallet hp) hf
  refine he.setWallet (.inr fun m d hd hpd => ?_)
  have hd : (s.enter n c phase).calls m = some d := hd
  rw [calls_enter] at hd
  split at hd
  case isTrue     => cases hd; exact absurd hpd (by simp [hw])
  case isFalse hm => exact fun heq => hm (h.wallets m n d c hd hc hpd hp heq)

-- A key that is set although it was not there was nobody's.
theorem Sound.reserve_account {record : Record} (h : Sound s) (hc : s.calls n = some c)
    (hn : s.store.account c.login = none) (ha : phase.holdsWallet = false) :
    Sound { s.enter n c phase with store := s.store.setAccount c.login (some record) } := by
  have hs : Sound { s with store := s.store.setAccount c.login (some record) } := h.setAccount (.inl (by simp))
  refine hs.enter hc (fun _ => .inr ⟨?_, fun m d hd hpd he => ?_⟩) (fun hw => absurd hw (by simp [ha]))
    (knows_of_not_holdsWallet ha)
  · simp [Store.setAccount]
  · exact h.account m d hd hpd (he ▸ hn)

theorem Sound.reserve_wallet {login : Address} (h : Sound s) (hc : s.calls n = some c)
    (hn : s.store.wallet c.target = none) (ha : c.phase.holdsAccount)
    (hk : Knows { s with store := s.store.setWallet c.target (some login) } { c with phase }) :
    Sound { s.enter n c phase with store := s.store.setWallet c.target (some login) } := by
  have hs : Sound { s with store := s.store.setWallet c.target (some login) } := h.setWallet (.inl (by simp))
  refine hs.enter hc (fun _ => .inl ha) (fun _ => .inr ⟨?_, fun m d hd hpd he => ?_⟩) hk
  · simp [Store.setWallet]
  · exact h.wallet m d hd hpd (he ▸ hn)

-- What a command does if it takes effect, whether or not it is answered.
theorem Sound.command (h : Sound s) (hc : s.calls n = some c)
    (hr : command cfg s.store c now c.phase = some (store, answered, thrown)) :
    Sound { s.enter n c answered with store } ∧ Sound { s.enter n c thrown with store } ∧
      Sound (s.enter n c thrown) := by
  have hk := h.knows n c hc
  unfold StarterFunds.command at hr
  split at hr
  case h_1 hp           =>
    split at hr
    case isTrue hn  =>
      cases hr
      exact ⟨h.reserve_account hc hn rfl, h.reserve_account hc hn rfl, h.refuse hc⟩
    case isFalse hn => cases hr; exact ⟨h.refuse hc, h.refuse hc, h.refuse hc⟩
  case h_2 hp           =>
    split at hr
    case isTrue hn  =>
      cases hr
      have ha : c.phase.holdsAccount := by rw [hp]; rfl
      exact ⟨h.reserve_wallet hc hn ha trivial, h.reserve_wallet hc hn ha trivial, h.refuse hc⟩
    case isFalse hn =>
      cases hr
      exact ⟨h.enter_of_le hc (fun _ => by rw [hp]; rfl) (fun hw => by cases hw) trivial, h.refuse hc, h.refuse hc⟩
  case h_3 hp           =>
    cases hr
    have ha : c.phase.holdsAccount := by rw [hp]; rfl
    exact ⟨h.free_account hc ha rfl, h.free_account hc ha rfl, h.refuse hc⟩
  case h_4 hp           =>
    cases hr
    exact ⟨h.add.go hc (by rw [hp]; rfl) trivial, h.add.refuse hc, h.refuse hc⟩
  case h_5 day count hp =>
    cases hr
    refine ⟨?_, h.refuse hc, h.refuse hc⟩
    split <;> exact h.go hc (by rw [hp]; rfl) trivial
  case h_6 hp           =>
    cases hr
    exact ⟨h.add.go hc (by rw [hp]; rfl) trivial, h.add.refuse hc, h.refuse hc⟩
  case h_7 hp           =>
    cases hr
    have hw : c.phase.holdsWallet := by rw [hp]; rfl
    exact ⟨h.free hc hw rfl, h.free hc hw rfl, h.refuse hc⟩
  case h_8 day hp       =>
    cases hr
    have hw : c.phase.holdsWallet := by rw [hp]; rfl
    refine ⟨h.go hc hw ?_, h.go hc hw trivial, h.go hc hw trivial⟩
    cases hu : s.store.unsent c.target
    case none       => exact hu
    case some saved =>
      obtain ⟨ht, ho⟩ := h.kept c.target saved hu
      exact ⟨fun p hp => Option.some.inj (hp.symm.trans hu), ht, ho⟩
  case h_9 day hp       =>
    cases hr
    have hw : c.phase.holdsWallet := by rw [hp]; rfl
    refine ⟨h.drop_unsent.go hc hw ?_, h.drop_unsent.go hc hw trivial, h.go hc hw trivial⟩
    simp [Knows, Store.setUnsent]
  case h_10 day raw hp  =>
    cases hr
    exact ⟨(h.keep hc hp).go hc (by rw [hp]; rfl) trivial, (h.keep hc hp).refuse hc, h.refuse hc⟩
  case h_11 hp          =>
    cases hr
    have hw : c.phase.holdsWallet := by rw [hp]; rfl
    exact ⟨h.free hc hw rfl, h.free hc hw rfl, h.refuse hc⟩
  case h_12 hp          =>
    cases hr
    exact ⟨h.add.refuse hc, h.add.refuse hc, h.refuse hc⟩
  case h_13 hp          =>
    cases hr
    exact ⟨h.drop_unsent.go hc (by rw [hp]; rfl) trivial, h.drop_unsent.refuse hc, h.refuse hc⟩
  case h_14 hp          =>
    cases hr
    have hs (r : Record) : Sound { s with store := s.store.setAccount c.login (some r) } :=
      h.setAccount (.inl (by simp))
    exact ⟨(hs _).enter_of_le hc (fun ha => by cases ha) (fun hw => by cases hw) trivial, (hs _).refuse hc,
      h.refuse hc⟩
  case h_15             => cases hr

theorem Sound.next (h : Sound s) (hc : s.calls n = some c) (he : event.call = n) (hclear : Clear cfg s event)
    (hs : next cfg s n c event = .ok s') : Sound s' := by
  unfold StarterFunds.next at hs
  split at hs
  case h_1 k fate now =>
    split at hs
    case h_1 => cases hs
    case h_2 store answered thrown hr =>
      cases hs
      obtain ⟨hdone, hlost, hfailed⟩ := h.command hc hr
      cases fate
      case done   => exact hdone
      case failed => exact hfailed
      case lost   => exact hlost
  case h_2 k fate     =>
    split at hs
    case h_1 day raw hp =>
      cases hs
      have hw : c.phase.holdsWallet := by rw [hp]; rfl
      have hsent : Sound { s with sent := (c.login, raw) :: s.sent } := h.broadcast hc hp
      have hk := hsent.knows n c hc
      have hk' := h.knows n c hc
      simp only [Knows, hp] at hk hk'
      cases fate
      case done   => exact hsent.go hc hw trivial
      case failed => exact h.go hc hw hk'
      case lost   => exact hsent.go hc hw hk
    case h_2 => cases hs
  case h_3            =>
    split at hs
    case h_1 => cases hs
    case h_2 ha => cases hs; exact h.answer hc he hclear ha

theorem Sound.set {t : Option Call} (h : Sound s) (ht : ∀ c, t = some c → c.phase.holdsAccount = false) :
    Sound (s.set n t) := by
  have hold (m : ℕ) (d : Call) (hd : (s.set n t).calls m = some d) :
      s.calls m = some d ∨ d.phase.holdsAccount = false := by
    by_cases hm : m = n
    · simp only [State.set, hm, Function.update_self] at hd
      exact .inr (ht d hd)
    · simp only [State.set, Function.update_of_ne hm] at hd
      exact .inl hd
  have hno (d : Call) (ha : d.phase.holdsAccount = false) : d.phase.holdsWallet = false := by
    by_contra hw
    exact absurd (holdsAccount_of_holdsWallet (by simpa using hw)) (by simp [ha])
  refine ⟨h.ordered, fun m d hd hp => ?_, fun m d hd hp => ?_, fun m k d e hd he hpd hpe => ?_,
    fun m k d e hd he hpd hpe => ?_, fun m d hd => ?_, h.kept, h.sent⟩
  · exact h.account m d ((hold m d hd).resolve_right (by simp [hp])) hp
  · exact h.wallet m d ((hold m d hd).resolve_right fun ha => by simp [hno d ha] at hp) hp
  · exact h.accounts m k d e ((hold m d hd).resolve_right (by simp [hpd]))
      ((hold k e he).resolve_right (by simp [hpe])) hpd hpe
  · exact h.wallets m k d e ((hold m d hd).resolve_right fun ha => by simp [hno d ha] at hpd)
      ((hold k e he).resolve_right fun ha => by simp [hno e ha] at hpe) hpd hpe
  · rcases hold m d hd with hd | ha
    · exact h.knows m d hd
    · exact knows_of_not_holdsWallet (hno d ha)

theorem Sound.step (h : Sound s) (hclear : Clear cfg s event) (hs : step cfg s event = .ok s') : Sound s' := by
  unfold StarterFunds.step at hs
  split at hs
  case h_1 n login target =>
    split at hs
    · cases hs
    · cases hs
      exact h.set fun c hc => by cases hc; rfl
  case h_2 n              => cases hs; exact h.set fun c hc => by cases hc
  case h_3 target         => cases hs; exact h.drop_unsent
  case h_4 tx             =>
    split at hs
    case isTrue     => cases hs
    case isFalse hn =>
      cases hs
      refine h.mine fun p hp => ?_
      rw [hp, Option.any_some] at hn
      have hn : (∃ login, (login, p) ∈ s.sent) ∧ p.nonce = s.chain.count := by simpa using hn
      exact hn.right
  case h_5                =>
    split at hs
    case h_1      => cases hs
    case h_2 c hc => exact h.next hc rfl hclear hs

end Steps

section Once

-- At most one payment has landed for each login and for each wallet.
structure PaidOnce (s : State) : Prop where
  login  : ∀ login p q, (login, p) ∈ s.sent → (login, q) ∈ s.sent → s.chain.Landed p → s.chain.Landed q → p = q
  target : ∀ p q, p ∈ s.sent.map (·.2) → q ∈ s.sent.map (·.2) → p.target = q.target → s.chain.Landed p →
             s.chain.Landed q → p = q

theorem Sound.paidOnce (h : Sound s) : PaidOnce s where
  login login p q hp hq hlp hlq := (h.sent _ hp _ hq (.inl rfl)).eq h.ordered hlp hlq
  target p q hp hq ht hlp hlq   := by
    obtain ⟨x, hx, rfl⟩ := List.mem_map.mp hp
    obtain ⟨y, hy, rfl⟩ := List.mem_map.mp hq
    exact (h.sent x hx y hy (.inr ht.symm)).eq h.ordered hlp hlq

-- The chain may take any bytes that were broadcast, in the order of their nonces.
theorem mine_eq_ok {tx : Option Payment} (hn : ∀ p, tx = some p → p.nonce = s.chain.count)
    (hs : ∀ p, tx = some p → p ∈ s.sent.map (·.2)) :
    step cfg s (.mine tx) = .ok { s with chain := s.chain.mine tx } := by
  have hany : ¬ (tx.any fun raw => raw ∉ s.sent.map (·.2) ∨ raw.nonce ≠ s.chain.count) := by
    cases tx
    case none   => simp
    case some p => simp only [Option.any_some, hs p rfl, hn p rfl]; simp
  rw [step, if_neg hany]
  rfl

theorem run_mine {txs : List (Option Payment)} (hn : Next Payment.nonce s.chain txs)
    (hs : ∀ tx ∈ txs, ∀ p, tx = some p → p ∈ s.sent.map (·.2)) :
    Run.run (step cfg) s (txs.map .mine) = { s with chain := txs.foldl mine s.chain } := by
  induction txs generalizing s
  case nil            => rfl
  case cons tx txs hi =>
    have hstep : step cfg s (.mine tx) = .ok { s with chain := s.chain.mine tx } :=
      mine_eq_ok hn.left (hs tx List.mem_cons_self)
    rw [List.map_cons, Run.run_cons, Run.attempt_ok hstep, List.foldl_cons]
    exact hi (s := { s with chain := s.chain.mine tx }) hn.right fun tx htx => hs tx (List.mem_cons_of_mem _ htx)

-- Once a call is about to broadcast bytes beside others that may land too, both payments can be made.
theorem paid_twice {day : ℤ} {x : Address × Payment} (hc : s.calls n = some c) (hp : c.phase = .broadcast day p)
    (hx : x ∈ s.sent) (hsame : x.1 = c.login ∨ x.2.target = p.target) (hboth : ¬ p.compatible s.chain x.2) :
    ∃ later, ¬ PaidOnce (Run.run (step cfg) s later) := by
  obtain ⟨txs, hnext, hm, hlp, hlx⟩ := both_land hboth
  refine ⟨.broadcast n .done :: txs.map .mine, fun h => ?_⟩
  have hstep : step cfg s (.broadcast n .done) =
      .ok { s.enter n c (.forget p) with sent := (c.login, p) :: s.sent } := by
    simp [step, Event.call, hc, next, hp, pure, Except.pure]
  rw [Run.run_cons, Run.attempt_ok hstep,
    run_mine (s := { s.enter n c (.forget p) with sent := (c.login, p) :: s.sent }) hnext fun tx htx q hq => ?_] at h
  · have heq : p = x.2 := by
      rcases hsame with hlogin | htarget
      · refine h.login c.login p x.2 List.mem_cons_self (List.mem_cons_of_mem _ ?_) hlp hlx
        rw [← hlogin]
        exact hx
      · exact h.target p x.2 (by simp) (List.mem_cons_of_mem _ (List.mem_map_of_mem hx)) htarget.symm hlp hlx
    rw [← heq] at hboth
    exact hboth .refl
  · rcases hm tx htx with rfl | rfl | rfl
    · cases hq
    · cases hq
      exact List.mem_cons_self
    · cases hq
      exact List.mem_cons_of_mem _ (List.mem_map_of_mem hx)

theorem not_clear (hs : step cfg s event = .ok s') (hn : ¬ Clear cfg s event) :
    ∃ later, ¬ PaidOnce (Run.run (step cfg) s' later) := by
  unfold Clear at hn
  split at hn
  case h_1 n nonce fees =>
    simp only [State.Only, not_forall] at hn
    obtain ⟨c, hc, hp, x, hx, hsame, hboth⟩ := hn
    cases hphase : c.phase
    case prepare day =>
      have hs' : s' = s.enter n c (.broadcast day ⟨c.target, cfg.amount, nonce, fees⟩) := by
        simpa [step, Event.call, Option.mem_def.mp hc, next, answer, hphase, pure, Except.pure, eq_comm] using hs
      have hc' : s'.calls n = some { c with phase := .broadcast day ⟨c.target, cfg.amount, nonce, fees⟩ } := by
        rw [hs', calls_enter, if_pos rfl]
      rw [hs'] at hc' ⊢
      exact paid_twice hc' rfl hx hsame hboth
    all_goals rw [hphase] at hp; cases hp
  case h_2 n count      =>
    simp only [not_forall] at hn
    obtain ⟨c, hc, saved, hp, hle, x, hx, hsame, hboth⟩ := hn
    cases hphase : c.phase
    case countKept day raw =>
      rw [hphase] at hp
      cases hp
      have hs' : s' = s.enter n c (.broadcast day saved) := by
        simpa [step, Event.call, Option.mem_def.mp hc, next, answer, hphase, not_lt.mpr hle, pure, Except.pure,
          eq_comm] using hs
      have hc' : s'.calls n = some { c with phase := .broadcast day saved } := by
        rw [hs', calls_enter, if_pos rfl]
      rw [hs'] at hc' ⊢
      exact paid_twice hc' rfl hx (.inl hsame) hboth
    all_goals rw [hphase] at hp; cases hp
  case h_3              => exact absurd trivial hn

-- Payments are made at most once for each login and each wallet as long as calls take up bytes clear of
-- others, but not longer.
theorem paid_once (cfg : Config) (first : ℕ) (events : List Event)
    (h : Run.Along (step cfg) (Clear cfg) (State.initial first) events) :
    let s := Run.run (step cfg) (State.initial first) events
    PaidOnce s ∧ ∀ event s', step cfg s event = .ok s' → ¬ Clear cfg s event →
      ∃ later, ¬ PaidOnce (Run.run (step cfg) s' later) := by
  have hs : Sound (Run.run (step cfg) (State.initial first) events) :=
    Run.run_invariant_along h .initial fun _ _ _ hclear hi hs => hi.step hclear hs
  exact ⟨hs.paidOnce, fun _ _ => not_clear⟩

end Once

section Samples

def config : Config := ⟨5 * 10 ^ 17, 50⟩

-- A call up to its broadcast, if nothing was kept for the wallet.
def prepared (n : ℕ) (login target : Address) (nonce : ℕ) : List Event :=
  [.send n login target, .network n (some 10143), .balance n (some 0)] ++
    List.replicate 5 (.command n .done 0) ++ [.prepare n (some (nonce, 1))]

def payment (target : Address) (nonce : ℕ) : Payment := ⟨target, 5 * 10 ^ 17, nonce, 1⟩

def delivered : List Event :=
  prepared 0 1 10 0 ++ [.broadcast 0 .done, .command 0 .done 0, .command 0 .done 0, .mine (some (payment 10 0))]

-- A broadcast times out although it has arrived, and the bytes are not found in time. The account tries
-- again with another wallet.
def retargeted : List Event :=
  prepared 0 1 10 0 ++ [.broadcast 0 .lost] ++ List.replicate 4 (.lookup 0 false) ++
    List.replicate 3 (.command 0 .done 0) ++ prepared 1 1 11 1 ++
      [.broadcast 1 .done, .command 1 .done 0, .command 1 .done 0, .mine (some (payment 10 0)),
        .mine (some (payment 11 1))]

theorem paid_once_delivered :
    let s := Run.run (step config) (State.initial 0) delivered
    s.chain.Landed (payment 10 0) ∧ PaidOnce s ∧
      ∀ event s', step config s event = .ok s' → ¬ Clear config s event →
        ∃ later, ¬ PaidOnce (Run.run (step config) s' later) :=
  ⟨by decide +kernel, paid_once config 0 delivered (by decide +kernel)⟩

theorem account_paid_twice :
    ¬ ∀ (cfg : Config) (first : ℕ) (events : List Event),
      PaidOnce (Run.run (step cfg) (State.initial first) events) := by
  intro h
  have := (h config 0 retargeted).login 1 (payment 10 0) (payment 11 1) (by decide +kernel)
    (by decide +kernel) (by decide +kernel) (by decide +kernel)
  exact absurd this (by decide)

end Samples

end StarterFunds
