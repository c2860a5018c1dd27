import Flurbo.Server.MemberNotices

-- A notice reaches an account once within the life of its record, if what was sent is recorded before
-- any tick looks for it again.

open Except Program

namespace MemberNotices

-- Two messages with a common notice for one account.
def Email.Overlaps (e : Email) (account : Account) (items : List Stage) : Prop :=
  e.account = account ∧ ∃ i ∈ items, i ∈ e.items

def Handled.Sound (emails : List Email) (h : Handled) : Prop :=
  match h.reason with
  | .emailed          => ∃ e ∈ emails, e.account = h.account ∧ h.stage ∈ e.items
  | .optedOut prefs   => prefs.allows h.stage = false
  | .noEmail contacts => h.account ∉ contacts

def Mark.Sound (emails : List Email) (m : Mark) : Prop :=
  ∀ a ∈ m.accounts, ∃ h ∈ m.handled, h.stage = m.stage ∧ h.account = a ∧ h.Sound emails

-- Each notice is delivered to each account at most once within the life of a record, and stages are
-- finished when everyone that they concern was emailed, opted out or has no verified email.
structure NoticeOnce (s : Store) : Prop where
  once  : s.emails.Pairwise fun later earlier =>
    earlier.Overlaps later.account later.items → earlier.at_ + sentTtl ≤ later.at_
  marks : ∀ m ∈ s.marks, m.Sound s.emails

-- An earlier message was recorded before the tick looked for one of its notices, unless the tick did
-- not look, or found a record.
def Store.Recorded (s : Store) (n : ℕ) (account : Account) (e : Email) (i : Stage) : Prop :=
  ∀ last ∈ s.looked n i account, last.any (e.at_ ≤ ·)

-- Messages of the record's life with a common notice were recorded, or have the same notices and are
-- less than a day old.
def Settled (s : Store) : Command → Prop
  | .send n account items => ∀ e ∈ s.emails, e.account = account → s.clock < e.at_ + sentTtl →
    ∀ i ∈ items, i ∈ e.items → s.Recorded n account e i ∨ s.repeats account items e
  | _                     => True

instance decidableRecorded (s : Store) (n : ℕ) (account : Account) (e : Email) (i : Stage) :
    Decidable (s.Recorded n account e i) :=
  inferInstanceAs (Decidable (∀ last ∈ s.looked n i account, last.any (e.at_ ≤ ·)))

instance decidableSettled (s : Store) : ∀ c, Decidable (Settled s c)
  | .send n account items => inferInstanceAs (Decidable (∀ e ∈ s.emails, e.account = account →
      s.clock < e.at_ + sentTtl → ∀ i ∈ items, i ∈ e.items →
        s.Recorded n account e i ∨ s.repeats account items e))
  | .now | .status _ | .getDone _ | .holdings _ | .contacts _ | .preferences _ | .existsSent .. | .incr _
  | .expire _ | .setSent .. | .setDone .. => .isTrue trivial

-- A tick looked for a notice and found no living record.
def Store.Absent (s : Store) (n : ℕ) (account : Account) (i : Stage) : Prop :=
  ∃ last, s.looked n i account = some last ∧ ∀ t ∈ last, t + sentTtl ≤ s.clock

def Store.Emailed (s : Store) (account : Account) (i : Stage) : Prop :=
  ∃ e ∈ s.emails, e.account = account ∧ i ∈ e.items

structure Grows (s s' : Store) : Prop where
  clock  : s.clock ≤ s'.clock
  emails : s.emails ⊆ s'.emails
  absent : ∀ n a i, s.Absent n a i → s'.Absent n a i

structure Invariant (s : Store) : Prop extends NoticeOnce s where
  recent : ∀ e ∈ s.emails, e.at_ ≤ s.clock
  sent   : ∀ i a, s.sent i a ≠ none → s.Emailed a i

def discipline : Discipline Store Command where
  invariant          := Invariant
  rely _             := Grows
  permitted          := Settled
  refl _ _           := ⟨le_refl _, List.Subset.refl _, fun _ _ _ h => h⟩
  trans _ _ _ _ h h' := ⟨h.clock.trans h'.clock, List.Subset.trans h.emails h'.emails,
    fun n a i ha => h'.absent n a i (h.absent n a i ha)⟩

instance decidablePermitted : ∀ s c, Decidable (discipline.permitted s c) := decidableSettled

section Commands

variable {s s' : Store} {n t : ℕ} {account : Account} {items : List Stage} {stage : Stage} {h : Handled}

theorem Grows.refl (s : Store) : Grows s s := discipline.refl 0 s

theorem Grows.trans {s₁ s₂ s₃ : Store} (h : Grows s₁ s₂) (h' : Grows s₂ s₃) : Grows s₁ s₃ :=
  discipline.trans 0 _ _ _ h h'

theorem Grows.of_eq (hc : s.clock ≤ s'.clock) (he : s.emails ⊆ s'.emails) (hl : s'.looked = s.looked) :
    Grows s s' := by
  refine ⟨hc, he, fun n a i ⟨last, hs, ht⟩ => ⟨last, hl ▸ hs, fun t hm => (ht t hm).trans hc⟩⟩

theorem Store.Emailed.grows (he : s.Emailed account stage) (hg : Grows s s') :
    s'.Emailed account stage := by
  have ⟨e, hm, h⟩ := he
  exact ⟨e, hg.emails hm, h⟩

theorem Handled.Sound.grows (hs : h.Sound s.emails) (hg : Grows s s') : h.Sound s'.emails := by
  rw [Handled.Sound] at hs ⊢
  cases hr : h.reason
  case emailed  =>
    rw [hr] at hs
    exact Store.Emailed.grows hs hg
  case optedOut => simpa [hr] using hs
  case noEmail  => simpa [hr] using hs

theorem Mark.Sound.grows {m : Mark} (hm : m.Sound s.emails) (hg : Grows s s') : m.Sound s'.emails := by
  intro a ha
  have ⟨h, hh, hs, he, hsound⟩ := hm a ha
  exact ⟨h, hh, hs, he, hsound.grows hg⟩

-- A tick that looks and finds no living record.
@[simp]
theorem look_clock : (s.look n stage account).clock = s.clock := rfl

theorem dead_iff {written : ℕ} : s.alive written = false ↔ written + sentTtl ≤ s.clock := by
  rw [Store.alive, decide_eq_false_iff_not, not_lt]

theorem perform_alive {r : Bool} (h : (s.sent stage account).any s.alive) :
    perform s (.existsSent n stage account) r = (s, true) := if_pos h

theorem perform_dead {r : Bool} (h : ¬ (s.sent stage account).any s.alive) :
    perform s (.existsSent n stage account) r = (s.look n stage account, false) := if_neg h

theorem absent_of_dead {r : Bool} (h : ¬ (s.sent stage account).any s.alive) :
    Store.Absent (perform s (.existsSent n stage account) r).1 n account stage := by
  rw [perform_dead h]
  refine ⟨s.sent stage account, if_pos ⟨rfl, rfl, rfl⟩, fun t ht => ?_⟩
  rw [Option.mem_def.mp ht, Option.any_some, Bool.not_eq_true] at h
  rw [look_clock]
  exact dead_iff.mp h

theorem perform_grows (s : Store) (c : Command) (r : c.Reply) : Grows s (perform s c r).1 := by
  cases c
  case existsSent n stage account =>
    by_cases hd : (s.sent stage account).any s.alive
    case pos =>
      rw [perform_alive hd]
      exact .refl s
    case neg =>
      have hdead := @absent_of_dead s n account stage r hd
      rw [perform_dead hd] at hdead ⊢
      refine ⟨le_rfl, List.Subset.refl _, fun m a i ha => ?_⟩
      by_cases he : m = n ∧ i = stage ∧ a = account
      case pos =>
        obtain ⟨rfl, rfl, rfl⟩ := he
        exact hdead
      case neg =>
        have ⟨last, hs, ht⟩ := ha
        exact ⟨last, (if_neg he).trans hs, ht⟩
  case send n account items       =>
    rw [perform]
    split
    case isTrue  => exact .refl s
    case isFalse => exact .of_eq le_rfl (List.subset_cons_self _ _) rfl
  case setSent                    => exact .of_eq le_rfl (List.Subset.refl _) rfl
  case setDone                    => exact .of_eq le_rfl (List.Subset.refl _) rfl
  all_goals exact .refl s

-- Changes that concern no message.
theorem Invariant.congr (hi : Invariant s) (hg : Grows s s') (he : s'.emails = s.emails)
    (hs : s'.sent = s.sent) (hm : s'.marks = s.marks) : Invariant s' where
  once       := he ▸ hi.once
  marks m h  := (hi.marks m (hm ▸ h)).grows hg
  recent e h := (hi.recent e (he ▸ h)).trans hg.clock
  sent i a h := (hi.sent i a (hs ▸ h)).grows hg

theorem Invariant.look (hi : Invariant s) (r : Bool) :
    Invariant (perform s (.existsSent n stage account) r).1 := by
  have hg := perform_grows s (.existsSent n stage account) r
  by_cases hd : (s.sent stage account).any s.alive
  case pos => rwa [perform_alive hd]
  case neg =>
    rw [perform_dead hd] at hg ⊢
    exact hi.congr hg rfl rfl rfl

theorem perform_drop (h : s.emails.any (s.repeats account items)) :
    perform s (.send n account items) () = (s, ()) := if_pos h

theorem perform_send (h : ¬ s.emails.any (s.repeats account items)) :
    perform s (.send n account items) () = (s.deliver account items, ()) := if_neg h

-- What a tick sends is new to the account, or is dropped.
theorem Invariant.send (hi : Invariant s) (ha : ∀ i ∈ items, s.Absent n account i)
    (hp : Settled s (.send n account items)) : Invariant (perform s (.send n account items) ()).1 := by
  have hg := perform_grows s (.send n account items) ()
  by_cases hd : s.emails.any (s.repeats account items)
  case pos => rwa [perform_drop hd]
  case neg =>
    rw [perform_send hd] at hg ⊢
    refine ⟨⟨List.pairwise_cons.mpr ⟨fun e he ⟨hacc, i, hi', hie⟩ => ?_, hi.once⟩,
      fun m h => (hi.marks m h).grows hg⟩, fun e he => ?_, fun i a h => (hi.sent i a h).grows hg⟩
    · by_contra hlt
      rcases hp e he hacc (not_le.mp hlt) i hi' hie with hr | hr
      · have ⟨last, hl, ht⟩ := ha i hi'
        have ⟨t, htl, hle⟩ := (Option.any_eq_true _ _).mp (hr last hl)
        have hdead := ht t htl
        have hle : e.at_ ≤ t := by simpa using hle
        simp only at hlt
        omega
      · exact hd (List.any_eq_true.mpr ⟨e, he, hr⟩)
    · rcases List.mem_cons.mp he with rfl | he
      · exact le_refl _
      · exact hi.recent e he

theorem Invariant.setSent (hi : Invariant s) (he : s.Emailed account stage) :
    Invariant (perform s (.setSent stage account) ()).1 where
  once       := hi.once
  marks      := hi.marks
  recent     := hi.recent
  sent i a h := by
    by_cases hk : i = stage ∧ a = account
    case pos =>
      obtain ⟨rfl, rfl⟩ := hk
      exact Store.Emailed.grows he (perform_grows s (.setSent i a) ())
    case neg => exact hi.sent i a ((if_neg hk).symm.trans_ne h)

theorem Invariant.setDone {accounts : List Account} {handled : List Handled} (hi : Invariant s)
    (hm : Mark.Sound s.emails ⟨stage, accounts, handled⟩) :
    Invariant (perform s (.setDone stage t accounts handled) ()).1 where
  once       := hi.once
  marks      := List.forall_mem_cons.mpr ⟨hm, hi.marks⟩
  recent     := hi.recent
  sent       := hi.sent

end Commands

section Ticks

variable {s s' : Store} {n : ℕ} {account : Account} {items : List Stage} {stage : Stage}
variable {α β : Type} {p : Tick α} {q q' : α → Store → Prop}

theorem service_grows : service.Grows discipline Grows where
  refl        := .refl
  trans _ _ _ := .trans
  rely _ _ _  := id
  perform     := perform_grows

-- Whatever the others do, the tick keeps the invariant and returns only what `q` admits.
abbrev Spec (n : ℕ) (p : Tick α) (q : α → Store → Prop) (s : Store) : Prop :=
  Safe service discipline n p (Returns q) s

theorem spec_bind {f : α → Tick β} {q' : β → Store → Prop} (h : Spec n p q s)
    (hf : ∀ a s', Grows s s' → q a s' → Spec n (f a) q' s') : Spec n (p >>= f) q' s :=
  h.returns_bind service_grows fun a s' hg _ => hf a s' hg

theorem spec_pure {a : α} (h : ∀ s', Grows s s' → q a s') : Spec n (pure a) q s :=
  Safe.returns_pure h

theorem spec_issue {c : Command} {q : c.Reply → Store → Prop}
    (hi : ∀ s' r, Grows s s' → Invariant s' → Settled s' c → Invariant (perform s' c r).1)
    (hq : ∀ s' r, Grows s s' → Invariant s' → q (perform s' c r).2 (perform s' c r).1)
    (hs : ∀ r s₁ s₂, Grows s₁ s₂ → q r s₁ → q r s₂) : Spec n (issue c) q s :=
  .returns_call (fun s' r hg hinv hp => ⟨hi s' r hg hinv hp, fun _ _ => perform_grows _ _ _⟩)
    (fun s' r hg hinv _ => hq s' r hg hinv) hs

def Command.reads : Command → Bool
  | .existsSent .. | .send .. | .setSent .. | .setDone .. => false
  | _                                                    => true

theorem spec_read {c : Command} (hc : c.reads) : Spec n (issue c) (fun _ _ => True) s := by
  refine spec_issue (fun s' r _ hi _ => ?_) (fun _ _ _ _ => trivial) fun _ _ _ _ _ => trivial
  cases c
  case existsSent | send | setSent | setDone => cases hc
  all_goals exact hi

theorem spec_payoutStages {pool : Pool} {status : Status} {t : ℕ} :
    Spec n (payoutStages pool status t) (fun _ _ => True) s := by
  rw [payoutStages]
  split
  case isTrue  => exact spec_bind (spec_read rfl) fun _ _ _ _ => spec_pure fun _ _ => trivial
  case isFalse => exact spec_pure fun _ _ => trivial

theorem spec_openStages {stages : List Stage} : Spec n (openStages stages) (fun _ _ => True) s := by
  induction stages generalizing s
  case nil            => exact spec_pure fun _ _ => trivial
  case cons stage _ h =>
    refine spec_bind (spec_read rfl) fun _ s₁ _ _ => ?_
    refine spec_bind h fun _ s₂ _ _ => ?_
    exact spec_pure fun _ _ => trivial

theorem spec_readPool {pool : Pool} {t : ℕ} : Spec n (readPool pool t) (fun _ _ => True) s := by
  refine spec_bind (spec_bind (spec_read rfl) fun _ _ _ _ => spec_bind spec_payoutStages fun _ _ _ _ =>
    spec_openStages) fun stages s₁ _ _ => ?_
  split
  case isTrue  => exact spec_pure fun _ _ => trivial
  case isFalse => exact spec_bind (spec_read rfl) fun _ _ _ _ => spec_pure fun _ _ => trivial

theorem spec_gather {t : ℕ} {pools : List Pool} {b : Batch} :
    Spec n (gather t pools b) (fun _ _ => True) s := by
  induction pools generalizing s b
  case nil           => exact spec_pure fun _ _ => trivial
  case cons pool _ h =>
    refine spec_bind (spec_readPool.returns_recover service_grows (fun _ _ => trivial)
      fun _ _ _ _ _ => trivial) fun _ s₁ _ _ => h

theorem spec_readContacts {pending : List (Account × List Stage)} :
    Spec n (readContacts pending) (fun _ _ => True) s := by
  rw [readContacts]
  split
  case isTrue  => exact spec_pure fun _ _ => trivial
  case isFalse => exact spec_read rfl

theorem Store.Absent.grows (h : s.Absent n account stage) (hg : Grows s s') :
    s'.Absent n account stage := hg.absent _ _ _ h

theorem spec_existsSent : Spec n (issue (.existsSent n stage account))
    (fun r s => if r then s.Emailed account stage else s.Absent n account stage) s := by
  refine spec_issue (fun s' r _ hi _ => hi.look r) (fun s' r _ hi => ?_) fun r s₁ s₂ hg h => ?_
  · by_cases hd : (s'.sent stage account).any s'.alive
    case pos =>
      have hs : s'.sent stage account ≠ none := by
        intro hn
        rw [hn] at hd
        cases hd
      rw [perform_alive hd]
      exact hi.sent _ _ hs
    case neg =>
      have ha := @absent_of_dead s' n account stage r hd
      rw [perform_dead hd] at ha ⊢
      exact ha
  · cases r
    case true  => exact Store.Emailed.grows h hg
    case false => exact Store.Absent.grows h hg

theorem spec_screen {prefs : Preferences} {all : List Stage} :
    Spec n (screen n account prefs all)
      (fun r s => (∀ i ∈ r.1, s.Absent n account i) ∧ ∀ h ∈ r.2, h.Sound s.emails) s := by
  induction all generalizing s
  case nil               => exact spec_pure fun _ _ => by simp
  case cons stage rest h =>
    rw [screen]
    split
    case isTrue     =>
      refine spec_bind spec_existsSent fun sent s₁ _ hs => ?_
      refine spec_bind h fun ⟨items, handled⟩ s₂ h₂ ⟨ha, hh⟩ => ?_
      refine spec_pure fun s₃ h₃ => ?_
      have ha' := fun i hi => (ha i hi).grows h₃
      have hh' := fun d hd => Handled.Sound.grows (hh d hd) h₃
      cases sent
      case true  => exact ⟨ha', List.forall_mem_cons.mpr ⟨hs.grows (h₂.trans h₃), hh'⟩⟩
      case false => exact ⟨List.forall_mem_cons.mpr ⟨hs.grows (h₂.trans h₃), ha'⟩, hh'⟩
    case isFalse hp =>
      refine spec_bind h fun ⟨items, handled⟩ s₂ _ ⟨ha, hh⟩ => ?_
      refine spec_pure fun s₃ h₃ => ⟨fun i hi => (ha i hi).grows h₃, ?_⟩
      exact List.forall_mem_cons.mpr ⟨by simpa [Handled.Sound] using hp,
        fun d hd => Handled.Sound.grows (hh d hd) h₃⟩

theorem spec_record {items : List Stage} (he : ∀ i ∈ items, s.Emailed account i) :
    Spec n (record account items) (fun r s => ∀ h ∈ r, h.Sound s.emails) s := by
  induction items generalizing s
  case nil               => exact spec_pure fun _ _ => by simp
  case cons stage rest h =>
    have ⟨hs, hr⟩ := List.forall_mem_cons.mp he
    refine spec_bind (spec_issue (q := fun _ _ => True) (fun s' _ hg hi _ => hi.setSent (hs.grows hg))
      (fun _ _ _ _ => trivial) fun _ _ _ _ _ => trivial) fun _ s₁ h₁ _ => ?_
    refine spec_bind (h fun i hi => (hr i hi).grows h₁) fun handled s₂ h₂ hh => ?_
    refine spec_pure fun s₃ h₃ => ?_
    exact List.forall_mem_cons.mpr ⟨hs.grows ((h₁.trans h₂).trans h₃), fun d hd => (hh d hd).grows h₃⟩

-- A message that is taken has reached the account, now or when it was sent before.
theorem spec_send (ha : ∀ i ∈ items, s.Absent n account i) :
    Spec n (issue (.send n account items)) (fun _ s => ∀ i ∈ items, s.Emailed account i) s := by
  refine spec_issue (fun s' _ hg hi hp => hi.send (fun i h => (ha i h).grows hg) hp)
    (fun s' _ _ hi i hm => ?_) fun _ s₁ s₂ hg h i hi => (h i hi).grows hg
  by_cases hd : s'.emails.any (s'.repeats account items)
  case pos =>
    have ⟨e, he, hr⟩ := List.any_eq_true.mp hd
    have ⟨hacc, hperm, _⟩ : e.account = account ∧ e.items.isPerm items ∧ s'.clock < e.at_ + day :=
      of_decide_eq_true hr
    rw [perform_drop hd]
    exact ⟨e, he, hacc, (List.isPerm_iff.mp hperm).mem_iff.mpr hm⟩
  case neg =>
    rw [perform_send hd]
    exact ⟨_, List.mem_cons_self, rfl, hm⟩

theorem spec_deliver (ha : ∀ i ∈ items, s.Absent n account i) :
    Spec n (deliver n account items) (fun r s => r → ∀ i ∈ items, s.Emailed account i) s := by
  refine Safe.returns_recover service_grows (spec_bind (spec_send ha) fun _ s₁ _ h => ?_)
    (fun _ _ h => nomatch h) fun r s₁ s₂ hg h hr i hi => (h hr i hi).grows hg
  exact spec_pure fun s₂ h₂ _ i hi => (h i hi).grows h₂

theorem spec_mail (ha : ∀ i ∈ items, s.Absent n account i) :
    Spec n (mail n account items) (fun r s => ∀ h ∈ r, h.Sound s.emails) s := by
  refine spec_bind (spec_deliver ha) fun accepted s₁ _ h => ?_
  split
  case isTrue hacc => exact spec_record (h hacc)
  case isFalse     => exact spec_pure fun _ _ => by simp

theorem sounds_append {hs hs' : List Handled} (h : ∀ d ∈ hs, d.Sound s.emails) (hg : Grows s s')
    (h' : ∀ d ∈ hs', d.Sound s'.emails) : ∀ d ∈ hs ++ hs', d.Sound s'.emails :=
  List.forall_mem_append.mpr ⟨fun d hd => (h d hd).grows hg, h'⟩

theorem spec_notify {t dailyLimit : ℕ} {contacts : List Account} {all : List Stage} :
    Spec n (notify n t dailyLimit contacts account all) (fun r s => ∀ h ∈ r.1, h.Sound s.emails) s := by
  refine spec_bind (spec_read rfl) fun saved s₁ _ _ => ?_
  refine spec_bind spec_screen fun ⟨items, handled⟩ s₂ _ ⟨ha, hh⟩ => ?_
  simp only
  split
  case isTrue  => exact spec_pure fun s₃ h₃ d hd => (hh d hd).grows h₃
  case isFalse =>
    split
    case isTrue hc =>
      refine spec_pure fun s₃ h₃ => sounds_append hh h₃ fun d hd => ?_
      have ⟨i, _, hd⟩ := List.mem_map.mp hd
      subst hd
      exact hc
    case isFalse   =>
      refine spec_bind (spec_read rfl) fun count s₃ h₃ _ => ?_
      refine spec_bind (spec_read rfl) fun _ s₄ h₄ _ => ?_
      have h₂₄ := h₃.trans h₄
      split
      case isTrue  => exact spec_pure fun s₅ h₅ d hd => (hh d hd).grows (h₂₄.trans h₅)
      case isFalse =>
        refine spec_bind (spec_mail fun i hi => (ha i hi).grows h₂₄) fun recorded s₅ h₅ hr => ?_
        exact spec_pure fun s₆ h₆ => sounds_append hh ((h₂₄.trans h₅).trans h₆)
          fun d hd => (hr d hd).grows h₆

theorem spec_notifyAll {t dailyLimit : ℕ} {contacts : List Account}
    {pending : List (Account × List Stage)} {handled : List Handled} (hh : ∀ h ∈ handled, h.Sound s.emails) :
    Spec n (notifyAll n t dailyLimit contacts pending handled) (fun r s => ∀ h ∈ r, h.Sound s.emails) s := by
  induction pending generalizing s handled
  case nil         => exact spec_pure fun s₁ h₁ d hd => (hh d hd).grows h₁
  case cons p _ ih =>
    refine spec_bind spec_notify fun ⟨more, capped⟩ s₁ h₁ hm => ?_
    have happ := sounds_append hh h₁ hm
    simp only
    split
    case isTrue  => exact spec_pure fun s₂ h₂ d hd => (happ d hd).grows h₂
    case isFalse => exact ih happ

theorem spec_finish {t : ℕ} {handled : List Handled} {concerned : List (Stage × List Account)}
    (hh : ∀ h ∈ handled, h.Sound s.emails) : Spec n (finish t handled concerned) (fun _ _ => True) s := by
  induction concerned generalizing s
  case nil         => exact spec_pure fun _ _ => trivial
  case cons p _ ih =>
    rw [finish]
    split
    case isFalse     => exact ih hh
    case isTrue hall =>
      refine spec_bind (spec_issue (q := fun _ _ => True) (fun s' _ hg hi _ => hi.setDone fun a ha => ?_)
        (fun _ _ _ _ => trivial) fun _ _ _ _ _ => trivial) fun _ s₁ h₁ _ =>
          ih fun d hd => (hh d hd).grows h₁
      have ⟨h, hm, hs⟩ := List.any_eq_true.mp (List.all_eq_true.mp hall a ha)
      have ⟨hs, ha⟩ : h.stage = p.1 ∧ h.account = a := by simpa using hs
      exact ⟨h, hm, hs, ha, (hh h hm).grows hg⟩

theorem tick_safe {dailyLimit : ℕ} {pools : List Pool} :
    Spec n (tick n dailyLimit pools) (fun _ _ => True) s := by
  refine spec_bind (spec_read rfl) fun t s₁ _ _ => ?_
  refine spec_bind spec_gather fun b s₂ _ _ => ?_
  split
  case isTrue  => exact spec_pure fun _ _ => trivial
  case isFalse =>
    refine spec_bind spec_readContacts fun contacts s₃ _ _ => ?_
    refine spec_bind (spec_notifyAll (by simp)) fun handled s₄ _ hh => ?_
    exact spec_finish hh

end Ticks

section Runs

theorem service_obeys : service.Obeys discipline where
  code n q s _ := tick_safe.weaken fun _ _ _ _ => trivial
  drift s d hi := by
    have hg : Grows s { s with clock := s.clock + d } :=
      .of_eq (Nat.le_add_right _ _) (List.Subset.refl _) rfl
    exact ⟨hi.congr hg rfl rfl rfl, fun _ => hg⟩

theorem initial_invariant (clock : ℕ) : Invariant (.initial clock) where
  once       := .nil
  marks      := by simp [Store.initial]
  recent     := by simp [Store.initial]
  sent i a h := absurd rfl h

abbrev reached (clock : ℕ) (es : List (Event Command.Reply Query ℕ)) : Store :=
  (Run.run service.step (.initial (.initial clock)) es).store

end Runs

section Samples

-- A holder of a question with a proposed answer, and later of another one.
def answers (cases : List Case) : (c : Command) → c.Reply
  | .now | .incr _                                               => (1 : ℕ)
  | .status _                                                    => (⟨false, false, cases⟩ : Status)
  | .getDone _                                                   => none
  | .holdings _                                                  => some [(7, [⟨3, none⟩])]
  | .contacts _                                                  => [7]
  | .preferences _                                               => none
  | .existsSent ..                                               => false
  | .expire _ | .send .. | .setSent .. | .setDone ..             => ()

def onePool : Query := ⟨40, [⟨5, 0⟩]⟩

-- The commands of a tick that finds `k` open stages, of which the message is met by `fate`.
def tickEvents (n k : ℕ) (cases : List Case) (fate : Fate) (rest : ℕ) : List (Event Command.Reply Query ℕ) :=
  .start n onePool :: List.replicate (2 * k + 7) (.proceed n .done (answers cases)) ++
  .proceed n fate (answers cases) :: List.replicate rest (.proceed n .done (answers cases))

def sampleRun : List (Event Command.Reply Query ℕ) :=
  tickEvents 0 1 [⟨1, 5000⟩] .done 2 ++ tickEvents 1 1 [⟨1, 5000⟩] .done 2

end Samples

end MemberNotices
