import Flurbo.Server.FrozenProposal

-- All evidence that is ever returned for a rule is the same, and comes from captures that were
-- retained.

open Except

namespace Settlement.Proposing

variable {E P Q : Type}

-- Nothing that was frozen or retained is forgotten.
structure Grows (s s' : Store E P Q) : Prop where
  frozen : ∀ f, s.frozen = some f → s'.frozen = some f
  past   : ∀ h ∈ s.past, h ∈ s'.past

theorem Grows.refl (s : Store E P Q) : Grows s s := ⟨fun _ h => h, fun _ h => h⟩

theorem Grows.trans {s₁ s₂ s₃ : Store E P Q} (h : Grows s₁ s₂) (h' : Grows s₂ s₃) : Grows s₁ s₃ :=
  ⟨fun f hf => h'.frozen f (h.frozen f hf), fun g hg => h'.past g (h.past g hg)⟩

variable (S : Setting E P Q)

-- A packet that was evaluated from captures that were retained.
def Evaluated (s : Store E P Q) (packet : Packet) : Prop :=
  ∃ h ∈ s.past, packet.captures = h.list ∧ packet.rule = S.rule ∧
    evaluateSettlement S.readers S.rule h.list packet.evaluatedAt false = .ready packet

-- What is frozen names the evidence of such a packet.
structure Frozen.Sound (s : Store E P Q) (f : Frozen E P Q) : Prop where
  packet : ∃ packet attachment, Evaluated S s packet ∧ f.packetHash = S.hashes.packet packet ∧
    f.identity = identityOf S packet ∧ f.hash = S.hashes.evidence (bodyOf S packet attachment)

-- An answer is the frozen evidence, for an evaluation that agrees with it.
structure Answer.Sound (s : Store E P Q) (a : Answer E) : Prop where
  evaluated : Evaluated S s a.evaluated
  frozen    : ∃ f, s.frozen = some f ∧ a.evidence.hash = f.hash ∧ a.evidence.uri = f.uri ∧
    f.uri = S.hashes.uri f.hash ∧ f.identity = identityOf S a.evaluated
  outcome   : ∃ body, S.hashes.evidence body = a.evidence.hash ∧ body.outcome = a.evidence.outcome
  pending   : ∀ p ∈ a.pending, a.evidence.hash = p.evidenceHash ∧ a.evidence.outcome = p.outcome ∧
    ∀ uri ∈ p.evidenceURI, a.evidence.uri = uri

structure Invariant (s : Store E P Q) : Prop where
  present : s.history ∈ s.past
  frozen  : ∀ f, s.frozen = some f → f.Sound S s
  answers : ∀ a ∈ s.answers, a.Sound S s

def discipline : Program.Discipline (Store E P Q) (Command E P Q) where
  invariant   := Invariant S
  rely _      := Grows
  permitted _ _ := True
  refl _      := Grows.refl
  trans _ _ _ _ := Grows.trans

variable {S} {s s' : Store E P Q} {n : ℕ} {packet : Packet} {f : Frozen E P Q} {a : Answer E}

theorem Evaluated.grows (h : Evaluated S s packet) (hg : Grows s s') : Evaluated S s' packet := by
  have ⟨g, hm, h⟩ := h
  exact ⟨g, hg.past g hm, h⟩

theorem Frozen.Sound.grows (h : f.Sound S s) (hg : Grows s s') : f.Sound S s' := by
  have ⟨packet, attachment, he, h⟩ := h.packet
  exact ⟨packet, attachment, he.grows hg, h⟩

theorem Answer.Sound.grows (h : a.Sound S s) (hg : Grows s s') : a.Sound S s' := by
  have ⟨f, hf, hh⟩ := h.frozen
  exact ⟨h.evaluated.grows hg, ⟨f, hg.frozen f hf, hh⟩, h.outcome, h.pending⟩

-- A store that differs in nothing but the clock and what is archived.
theorem Invariant.congr (hi : Invariant S s) (hg : Grows s s') (hh : s'.history = s.history)
    (hf : s'.frozen = s.frozen) (ha : s'.answers = s.answers) : Invariant S s' where
  present     := hh ▸ hg.past _ hi.present
  frozen f h  := (hi.frozen f (hf ▸ h)).grows hg
  answers a h := (hi.answers a (ha ▸ h)).grows hg

theorem become_grows (h : History) : Grows s (s.become h) :=
  ⟨fun _ hf => hf, fun _ hp => List.mem_cons_of_mem _ hp⟩

theorem Invariant.become (hi : Invariant S s) (h : History) : Invariant S (s.become h) where
  present     := List.mem_cons_self
  frozen f hf := (hi.frozen f hf).grows (become_grows h)
  answers a h := (hi.answers a h).grows (become_grows _)

theorem initial_invariant (clock : ℕ) : Invariant S (.initial clock) where
  present     := by simp [Store.initial]
  frozen f hf := by cases hf
  answers     := by simp [Store.initial]

-- Bodies with the hash of frozen evidence have its outcome.
theorem Answer.Sound.eq_frozen (ha : a.Sound S s) (hi : Invariant S s)
    (hH : Function.Injective S.hashes.evidence) : ∃ f, s.frozen = some f ∧
      a.evidence = ⟨f.hash, f.uri, f.identity.outcome⟩ ∧ f.identity = identityOf S a.evaluated := by
  have ⟨f, hf, hh, hu, _, hid⟩ := ha.frozen
  have ⟨body, hb, ho⟩ := ha.outcome
  have ⟨packet, attachment, _, _, hid', hh'⟩ := (hi.frozen f hf).packet
  have he : body = bodyOf S packet attachment := hH (by rw [hb, hh, hh'])
  have hout : a.evidence.outcome = f.identity.outcome := by
    rw [← ho, he, hid']
    rfl
  refine ⟨f, hf, ?_, hid⟩
  cases h : a.evidence
  simp_all

variable [DecidableEq E] [DecidableEq P] [DecidableEq Q]

omit [DecidableEq Q] in
theorem perform_grows (H : Hashes E P Q) (s : Store E P Q) (c : Command E P Q) (r : c.Reply) :
    Grows s (perform H s c r).1 := by
  cases c
  case setFrozen g =>
    refine ⟨fun f hf => ?_, fun _ h => h⟩
    simp [perform, hf]
  all_goals exact ⟨fun _ h => h, fun _ h => h⟩

section Spec

variable (S n) {α β : Type}

-- Whatever the others do, the request keeps the invariant and returns only what `p` admits.
abbrev Spec (c : Request E P Q α) (p : α → Store E P Q → Prop) (s : Store E P Q) : Prop :=
  Program.Safe (service S) (discipline S) n c (Program.Returns p) s

variable {S n} {p p' : α → Store E P Q → Prop} {c : Request E P Q α}

theorem service_grows : (service S).Grows (discipline S) Grows where
  refl        := .refl
  trans _ _ _ := .trans
  rely _ _ _  := id
  perform     := perform_grows S.hashes

theorem spec_bind {f : α → Request E P Q β} {q : β → Store E P Q → Prop} (h : Spec S n c p s)
    (hf : ∀ a s', Grows s s' → p a s' → Spec S n (f a) q s') : Spec S n (c >>= f) q s :=
  h.returns_bind service_grows fun a s' hg _ => hf a s' hg

theorem spec_pure {a : α} (h : ∀ s', Grows s s' → p a s') : Spec S n (pure a) p s :=
  Program.Safe.returns_pure h

theorem spec_fail {e : Failure} : Spec S n (.fail e : Request E P Q α) p s :=
  Program.Safe.returns_fail

theorem spec_require {b : Prop} [Decidable b] {e : Failure} :
    Spec S n (require b e : Request E P Q Unit) (fun _ _ => b) s := by
  unfold require
  split
  case isTrue h  => exact spec_pure fun _ _ => h
  case isFalse   => exact spec_fail

theorem spec_orFail {a : Option α} {e : Failure} :
    Spec S n (orFail a e : Request E P Q α) (fun b _ => a = some b) s := by
  cases a
  case none   => exact spec_fail
  case some a => exact spec_pure fun _ _ => rfl

-- One command, with what is still known of its reply when the others have moved on.
theorem spec_send {c : Command E P Q} {p : c.Reply → Store E P Q → Prop}
    (hi : ∀ s' r, Grows s s' → Invariant S s' → Invariant S (perform S.hashes s' c r).1)
    (hp : ∀ s' r, Grows s s' → Invariant S s' → p (perform S.hashes s' c r).2 (perform S.hashes s' c r).1)
    (hs : ∀ r s₁ s₂, Grows s₁ s₂ → p r s₁ → p r s₂) : Spec S n (send c) p s :=
  .returns_call (fun s' r hg hinv _ => ⟨hi s' r hg hinv, fun _ _ => perform_grows _ _ _ _⟩)
    (fun s' r hg hinv _ => hp s' r hg hinv) hs

def Command.reads : Command E P Q → Bool
  | .setFrozen _ | .setEvidence _ | .setPacket _ | .answer _ => false
  | _                                                       => true

omit [DecidableEq Q] in
theorem reads_perform {c : Command E P Q} (hc : c.reads) (r : c.Reply) : (perform S.hashes s c r).1 = s := by
  cases c
  case setFrozen | setEvidence | setPacket | answer => cases hc
  all_goals rfl

theorem spec_read {c : Command E P Q} (hc : c.reads) : Spec S n (send c) (fun _ _ => True) s :=
  spec_send (fun s' r _ hi => by rwa [reads_perform hc]) (fun _ _ _ _ => trivial) fun _ _ _ _ _ => trivial

-- What is archived or stored concerns nobody.
theorem spec_archive {c : Command E P Q} (hc : ∀ s r, (perform S.hashes s c r).1.history = s.history ∧
      (perform S.hashes s c r).1.frozen = s.frozen ∧ (perform S.hashes s c r).1.answers = s.answers) :
    Spec S n (send c) (fun _ _ => True) s :=
  spec_send (fun s' r _ hi => hi.congr (perform_grows _ _ _ _) (hc s' r).left (hc s' r).right.left
    (hc s' r).right.right) (fun _ _ _ _ => trivial) fun _ _ _ _ _ => trivial

end Spec

section Programs

variable {captures : List Capture} {at_ : ℕ}

theorem evaluate_ready {R : Readers} {rule : Rule}
    (h : evaluateSettlement R rule captures at_ false = .ready packet) :
    packet.captures = captures ∧ packet.rule = rule ∧ packet.evaluatedAt = at_ := by
  unfold evaluateSettlement at h
  dsimp only at h
  repeat' split at h
  all_goals
    cases h
    try exact ⟨rfl, rfl, rfl⟩

-- What a request listed at some time.
def Listed (captures : List Capture) (s : Store E P Q) : Prop :=
  ∃ h ∈ s.past, captures = h.list

omit [DecidableEq E] [DecidableEq P] [DecidableEq Q] in
theorem Listed.evaluated (h : Listed captures s)
    (he : evaluateSettlement S.readers S.rule captures at_ false = .ready packet) :
    Evaluated S s packet := by
  obtain ⟨g, hg, rfl⟩ := h
  have ⟨hc, hr, ht⟩ := evaluate_ready he
  exact ⟨g, hg, hc, hr, ht ▸ he⟩

omit [DecidableEq E] [DecidableEq P] [DecidableEq Q] in
theorem Listed.grows (h : Listed captures s) (hg : Grows s s') : Listed captures s' := by
  have ⟨g, hm, hc⟩ := h
  exact ⟨g, hg.past g hm, hc⟩

theorem spec_list : Spec S n (send .list) Listed s :=
  spec_send (fun _ _ _ hi => hi) (fun s' _ _ hi => ⟨s'.history, hi.present, rfl⟩)
    fun _ _ _ hg h => h.grows hg

theorem spec_getFrozen :
    Spec S n (send .getFrozen) (fun r s => ∀ f, r = some f → s.frozen = some f) s :=
  spec_send (fun _ _ _ hi => hi) (fun _ _ _ _ _ h => h) fun _ _ _ hg h f hr => hg.frozen f (h f hr)

theorem spec_setFrozen (hf : f.Sound S s) : Spec S n (send (.setFrozen f)) (fun _ _ => True) s := by
  refine spec_send (fun s' r hg hi => ?_) (fun _ _ _ _ => trivial) fun _ _ _ _ _ => trivial
  have hgrows := perform_grows S.hashes s' (.setFrozen f) r
  refine ⟨hi.present, fun g hg' => ?_, fun a ha => (hi.answers a ha).grows hgrows⟩
  cases h : s'.frozen
  case none   =>
    obtain rfl : f = g := by simpa [perform, h] using hg'
    exact (hf.grows hg).grows hgrows
  case some f₀ =>
    obtain rfl : f₀ = g := by simpa [perform, h] using hg'
    exact (hi.frozen f₀ h).grows hgrows

theorem spec_answer (ha : a.Sound S s) : Spec S n (send (.answer a)) (fun _ _ => True) s := by
  refine spec_send (fun s' r hg hi => ?_) (fun _ _ _ _ => trivial) fun _ _ _ _ _ => trivial
  have hgrows := perform_grows S.hashes s' (.answer a) r
  refine ⟨hi.present, fun g hg' => (hi.frozen g hg').grows hgrows, fun b hb => ?_⟩
  rcases List.mem_cons.mp hb with rfl | hb
  · exact (ha.grows hg).grows hgrows
  · exact (hi.answers b hb).grows hgrows

theorem spec_verify {hash : P} {ruleHash : Q} :
    Spec S n (verify S packet hash ruleHash) (fun _ _ => True) s := by
  unfold verify
  split
  case h_1 => exact spec_pure fun _ _ => trivial
  case h_2 => exact spec_fail

theorem spec_decodePacket {hash : P} {found : Option Packet} :
    Spec S n (decodePacket S hash found) (fun _ _ => True) s := by
  refine spec_bind spec_orFail fun packet s₁ _ _ => ?_
  refine spec_bind spec_verify fun _ s₂ _ _ => ?_
  exact spec_pure fun _ _ => trivial

theorem spec_packetPut {hash : P} : Spec S n (packetPut S packet hash) (fun _ _ => True) s := by
  refine spec_bind spec_decodePacket fun _ s₁ _ _ => ?_
  refine spec_bind (spec_archive fun _ _ => ⟨rfl, rfl, rfl⟩) fun _ s₂ _ _ => ?_
  refine spec_bind (spec_read rfl) fun _ s₃ _ _ => ?_
  refine spec_bind spec_decodePacket fun _ s₄ _ _ => ?_
  exact spec_pure fun _ _ => trivial

theorem spec_packetVerifyPublic {hash : P} :
    Spec S n (packetVerifyPublic S hash) (fun _ _ => True) s := by
  refine spec_bind (spec_read rfl) fun _ s₁ _ _ => ?_
  refine spec_bind spec_decodePacket fun _ s₂ _ _ => ?_
  refine spec_bind (spec_read rfl) fun _ s₃ _ _ => ?_
  refine spec_bind spec_decodePacket fun _ s₄ _ _ => ?_
  refine spec_bind spec_require fun _ s₅ _ _ => ?_
  exact spec_pure fun _ _ => trivial

theorem spec_archivePut {body : Body P Q} :
    Spec S n (archivePut S body) (fun hash _ => hash = S.hashes.evidence body) s := by
  refine spec_bind spec_require fun _ s₁ _ _ => ?_
  refine spec_bind (spec_read rfl) fun _ s₂ _ _ => ?_
  split
  case isTrue  => exact spec_pure fun _ _ => rfl
  case isFalse =>
    refine spec_bind (spec_read rfl) fun _ s₃ _ _ => ?_
    refine spec_bind spec_require fun _ s₄ _ _ => ?_
    refine spec_bind (spec_read rfl) fun _ s₅ _ _ => ?_
    refine spec_bind spec_require fun _ s₆ _ _ => ?_
    refine spec_bind (spec_archive fun _ _ => ⟨rfl, rfl, rfl⟩) fun _ s₇ _ _ => ?_
    refine spec_bind (spec_read rfl) fun _ s₈ _ _ => ?_
    refine spec_bind spec_require fun _ s₉ _ _ => ?_
    exact spec_pure fun _ _ => rfl

theorem spec_archiveGet {hash : E} :
    Spec S n (archiveGet S hash) (fun body _ => S.hashes.evidence body = hash) s := by
  refine spec_bind (spec_read rfl) fun _ s₁ _ _ => ?_
  refine spec_bind spec_orFail fun body s₂ _ _ => ?_
  refine spec_bind spec_require fun _ s₃ _ h => ?_
  exact spec_pure fun _ _ => h

theorem spec_attach : Spec S n (attach S packet) (fun _ _ => True) s := by
  unfold attach
  dsimp only
  split
  case isTrue  => exact spec_pure fun _ _ => trivial
  case isFalse =>
    refine spec_bind spec_packetPut fun _ s₁ _ _ => ?_
    refine spec_bind (spec_read rfl) fun _ s₂ _ _ => ?_
    refine spec_bind spec_decodePacket fun _ s₃ _ _ => ?_
    refine spec_bind spec_verify fun _ s₄ _ _ => ?_
    exact spec_pure fun _ _ => trivial

theorem spec_archiveProposal (hl : Listed captures s) :
    Spec S n (archiveSettlementProposal S captures at_) (fun r s => ∀ packet hash, r = some (packet, hash) →
      Evaluated S s packet ∧ ∃ attachment, hash = S.hashes.evidence (bodyOf S packet attachment)) s := by
  unfold archiveSettlementProposal
  split
  case h_2           => exact spec_fail
  case h_3           => exact spec_pure fun _ _ _ _ h => nomatch h
  case h_1 packet he =>
    refine spec_bind spec_verify fun _ s₁ h₁ _ => ?_
    refine spec_bind spec_attach fun attachment s₂ h₂ _ => ?_
    refine spec_bind spec_archivePut fun hash s₃ h₃ hh => ?_
    refine spec_pure fun s₄ h₄ packet' hash' h => ?_
    cases h
    exact ⟨(hl.evaluated he).grows (((h₁.trans h₂).trans h₃).trans h₄), attachment, hh⟩

theorem spec_freeze (hl : Listed captures s) :
    Spec S n (freeze S captures at_) (fun r s => ∀ f, r = some f → s.frozen = some f) s := by
  refine spec_bind (spec_archiveProposal hl) fun r s₁ h₁ hr => ?_
  split
  case h_1             => exact spec_pure fun _ _ _ h => nomatch h
  case h_2 packet hash =>
    have ⟨he, attachment, hh⟩ := hr packet hash rfl
    refine spec_bind (spec_setFrozen ⟨packet, attachment, he, rfl, rfl, hh⟩) fun _ s₂ h₂ _ => ?_
    refine spec_bind spec_getFrozen fun r s₃ h₃ hr => ?_
    refine spec_bind spec_require fun _ s₄ h₄ he => ?_
    refine spec_pure fun s₅ h₅ f hf => ?_
    cases hf
    exact (h₄.trans h₅).frozen _ (hr _ he)

theorem spec_savedProposal (hl : Listed captures s) :
    Spec S n (savedProposal S captures at_) (fun r s => ∀ f, r = some f → s.frozen = some f) s := by
  refine spec_bind spec_getFrozen fun r s₁ h₁ hr => ?_
  split
  case h_1 f => exact spec_pure fun s₂ h₂ g hg => h₂.frozen g (hr g hg)
  case h_2   => exact spec_freeze (hl.grows h₁)

theorem spec_attachedPacket {attachment : Attachment P Q} :
    Spec S n (attachedPacket S attachment) (fun _ _ => True) s := by
  cases attachment
  case inline    => exact spec_pure fun _ _ => trivial
  case reference => exact spec_bind spec_packetVerifyPublic fun _ _ _ _ => spec_pure fun _ _ => trivial

-- What the evidence of a saved proposal is.
def Confirms (S : Setting E P Q) (saved : Frozen E P Q) (e : Evidence E) : Prop :=
  e.hash = saved.hash ∧ e.uri = saved.uri ∧ saved.uri = S.hashes.uri saved.hash ∧
    ∃ body, S.hashes.evidence body = saved.hash ∧ body.outcome = e.outcome

theorem spec_verifyPublic :
    Spec S n (verifyPublicSettlementEvidence S f)
      (fun body _ => f.uri = S.hashes.uri f.hash ∧ S.hashes.evidence body = f.hash) s := by
  refine spec_bind spec_require fun _ s₁ _ hu => ?_
  refine spec_bind spec_archiveGet fun expected s₂ _ hh => ?_
  refine spec_bind (spec_read rfl) fun _ s₃ _ _ => ?_
  refine spec_bind spec_orFail fun body s₄ _ _ => ?_
  refine spec_bind spec_require fun _ s₅ _ he => ?_
  exact spec_pure fun _ _ => ⟨hu, he ▸ hh⟩

theorem spec_verifyFrozen : Spec S n (verifyFrozen S f) (fun e _ => Confirms S f e) s := by
  refine spec_bind spec_require fun _ s₁ _ _ => ?_
  refine spec_bind spec_verifyPublic fun body s₂ _ ⟨hu, hh⟩ => ?_
  refine spec_bind spec_require fun _ s₃ _ _ => ?_
  refine spec_bind spec_attachedPacket fun ⟨packet, packetHash⟩ s₄ _ _ => ?_
  refine spec_bind spec_verify fun _ s₅ _ _ => ?_
  refine spec_bind spec_require fun _ s₆ _ _ => ?_
  exact spec_pure fun _ _ => ⟨rfl, rfl, hu, body, hh, rfl⟩

-- The frozen evidence answers for an evaluation that agrees with it.
omit [DecidableEq E] [DecidableEq P] [DecidableEq Q] in
theorem Confirms.sound {e : Evidence E} {pending : Option (Pending E)} (h : Confirms S f e)
    (hf : s.frozen = some f) (he : Evaluated S s packet) (hi : f.identity = identityOf S packet)
    (hp : ∀ p ∈ pending, e.hash = p.evidenceHash ∧ e.outcome = p.outcome ∧
      ∀ uri ∈ p.evidenceURI, e.uri = uri) : Answer.Sound S s ⟨pending, e, packet⟩ := by
  have ⟨hh, hu, hu', body, hb, ho⟩ := h
  exact ⟨he, ⟨f, hf, hh, hu, hu', hi⟩, ⟨body, hb.trans hh.symm, ho⟩, hp⟩

theorem spec_proposal :
    Spec S n (proposal S) (fun r s => ∀ a, r = some a → a.Sound S s) s := by
  refine spec_bind (spec_read rfl) fun at_ s₁ _ _ => ?_
  refine spec_bind (spec_read rfl) fun attempt s₂ _ _ => ?_
  split
  case isTrue  => exact spec_pure fun _ _ _ h => nomatch h
  case isFalse =>
    refine spec_bind spec_list fun captures s₃ _ hl => ?_
    split
    case h_2           => exact spec_fail
    case h_3           => exact spec_pure fun _ _ _ h => nomatch h
    case h_1 packet he =>
      refine spec_bind (spec_savedProposal hl) fun r s₄ h₄ hr => ?_
      split
      case h_1       => exact spec_pure fun _ _ _ h => nomatch h
      case h_2 saved =>
        refine spec_bind spec_require fun _ s₅ h₅ ⟨_, hi⟩ => ?_
        refine spec_bind spec_verifyFrozen fun e s₆ h₆ hc => ?_
        refine spec_pure fun s₇ h₇ a ha => ?_
        cases ha
        have hg := (h₅.trans h₆).trans h₇
        exact hc.sound (hg.frozen saved (hr saved rfl)) ((hl.evaluated he).grows (h₄.trans hg)) hi nofun

theorem spec_verifyPending {pending : Pending E} :
    Spec S n (verifyPending S pending) (fun a s => a.Sound S s) s := by
  refine spec_bind (spec_read rfl) fun at_ s₁ _ _ => ?_
  refine spec_bind (spec_read rfl) fun attempt s₂ _ _ => ?_
  refine spec_bind spec_require fun _ s₃ _ _ => ?_
  refine spec_bind spec_list fun captures s₄ _ hl => ?_
  split
  case h_2           => exact spec_fail
  case h_1 packet he =>
    refine spec_bind spec_getFrozen fun r s₅ h₅ hr => ?_
    refine spec_bind spec_orFail fun saved s₆ h₆ hs => ?_
    refine spec_bind spec_require fun _ s₇ h₇ hi => ?_
    refine spec_bind spec_verifyFrozen fun e s₈ h₈ hc => ?_
    refine spec_bind spec_require fun _ s₉ h₉ hp => ?_
    refine spec_pure fun s₁₀ h₁₀ => ?_
    have hg := (((h₆.trans h₇).trans h₈).trans h₉).trans h₁₀
    refine hc.sound (hg.frozen saved (hr saved hs)) ((hl.evaluated he).grows (h₅.trans hg)) hi ?_
    rintro p ⟨⟩
    exact hp

theorem query_safe {q : Query E} : Spec S n (query S q) (fun _ _ => True) s := by
  cases q
  case proposal      =>
    refine spec_bind spec_proposal fun r s₁ _ hr => ?_
    split
    case h_1   => exact spec_pure fun _ _ => trivial
    case h_2 a => exact spec_answer (hr a rfl)
  case verifyPending =>
    exact spec_bind spec_verifyPending fun a s₁ _ ha => spec_answer ha

end Programs

section Runs

theorem service_obeys : (service S).Obeys (discipline S) where
  code n q s _  := query_safe.weaken fun _ _ _ _ => trivial
  drift s e hi  := by
    cases e
    case tick d    =>
      have hg : Grows s { s with clock := s.clock + d } := ⟨fun _ h => h, fun _ h => h⟩
      exact ⟨hi.congr hg rfl rfl rfl, fun _ => hg⟩
    case capture c =>
      simp only [service, drift]
      cases s.history.put c
      case none   => exact ⟨hi, fun _ => .refl s⟩
      case some h => exact ⟨hi.become h, fun _ => become_grows h⟩
    case attempt a => exact ⟨hi.become _, fun _ => become_grows _⟩
    case upload b  =>
      have hg := perform_grows S.hashes s (.setEvidence b) ()
      exact ⟨hi.congr hg rfl rfl rfl, fun _ => hg⟩
    case store p   =>
      have hg := perform_grows S.hashes s (.setPacket p) ()
      exact ⟨hi.congr hg rfl rfl rfl, fun _ => hg⟩

-- What is returned is the frozen evidence, whose outcome was computed from captures that had been
-- retained, and who returned it saw captures that lead to the same.
structure OneAnswer (S : Setting E P Q) (s : Store E P Q) : Prop where
  agree    : ∀ a ∈ s.answers, ∀ b ∈ s.answers, a.evidence = b.evidence
  frozen   : ∀ a ∈ s.answers, ∃ f, s.frozen = some f ∧
    a.evidence = ⟨f.hash, f.uri, f.identity.outcome⟩ ∧ identityOf S a.evaluated = f.identity
  computed : ∀ a ∈ s.answers, Evaluated S s a.evaluated ∧ a.evaluated.outcome = a.evidence.outcome
  pending  : ∀ a ∈ s.answers, ∀ p ∈ a.pending, ∃ f, s.frozen = some f ∧ p.evidenceHash = f.hash ∧
    p.outcome = f.identity.outcome ∧ ∀ uri ∈ p.evidenceURI, uri = f.uri

omit [DecidableEq E] [DecidableEq P] [DecidableEq Q] in
theorem Invariant.oneAnswer (hi : Invariant S s) (hH : Function.Injective S.hashes.evidence) :
    OneAnswer S s where
  agree a ha b hb   := by
    have ⟨f, hf, he, _⟩ := (hi.answers a ha).eq_frozen hi hH
    have ⟨g, hg, he', _⟩ := (hi.answers b hb).eq_frozen hi hH
    cases hf.symm.trans hg
    exact he.trans he'.symm
  frozen a ha       := by
    have ⟨f, hf, he, hid⟩ := (hi.answers a ha).eq_frozen hi hH
    exact ⟨f, hf, he, hid.symm⟩
  computed a ha     := by
    have ⟨f, hf, he, hid⟩ := (hi.answers a ha).eq_frozen hi hH
    refine ⟨(hi.answers a ha).evaluated, ?_⟩
    rw [he, hid]
    rfl
  pending a ha p hp := by
    have ⟨f, hf, he, _⟩ := (hi.answers a ha).eq_frozen hi hH
    have ⟨hh, ho, hu⟩ := (hi.answers a ha).pending p hp
    rw [he] at hh ho hu
    exact ⟨f, hf, hh.symm, ho.symm, fun uri h => (hu uri h).symm⟩

abbrev reached (S : Setting E P Q) (clock : ℕ)
    (es : List (Program.Event (@Command.Reply E P Q) (Query E) (Drift E P Q))) : Store E P Q :=
  (Run.run (service S).step (.initial (.initial clock)) es).store

-- Interleavings of any number of requests, with failures and crashes at every step.
theorem one_answer (hH : Function.Injective S.hashes.evidence) (clock : ℕ)
    (es : List (Program.Event (@Command.Reply E P Q) (Query E) (Drift E P Q))) :
    OneAnswer S (reached S clock es) := by
  have hp : Run.Along (service S).step (discipline S).Permits (.initial (.initial clock)) es :=
    .of_forall fun e _ w => Program.Discipline.Permits.of_forall (fun _ _ => trivial) w e
  have hw := Program.World.Sound.run service_obeys (.initial (initial_invariant clock)) hp
  exact hw.invariant.oneAnswer hH

end Runs

section Samples

-- Hashes that stand for themselves.
def sampleSetting : Setting (Body Packet Rule) Packet Rule where
  readers   := sampleReaders
  hashes    := ⟨id, id, id, fun _ => "uri"⟩
  rule      := sampleRule
  owner     := 1
  draftHash := 2
  fits _    := true
  admits _  := true

def sampleCapture (url : Url) (at_ : ℕ) : Capture :=
  ⟨url, url, at_, 200, none, true, 4, "body", 0⟩

def samplePacket : Packet where
  rule             := sampleRule
  evaluatedAt      := 20
  outcome          := 2
  selectedRecordId := sampleId
  measuredValue    := .text "5"
  records          := [⟨⟨sampleId, ⟨"series", "period", "unit"⟩, .initial, .text "5", 12, none⟩, "a", "a", 12, 0, 4⟩]
  captures         := [sampleCapture "a" 12, sampleCapture "b" 13]

def sampleBody : Body Packet Rule := bodyOf sampleSetting samplePacket (.inline samplePacket samplePacket)

def answers : (c : Command (Body Packet Rule) Packet Rule) → c.Reply
  | .now              => (0 : ℕ)
  | .latestAttempt    => none
  | .list             => []
  | .getFrozen        => none
  | .getEvidence _    => none
  | .quota            => true
  | .publicEvidence _ => some sampleBody
  | .getPacket _      => none
  | .publicPacket _   => none
  | .setFrozen _ | .setEvidence _ | .setPacket _ | .answer _ => ()

-- A proposal is archived, frozen and returned, and confirmed when it is pending.
def sampleRun : List (Program.Event (@Command.Reply (Body Packet Rule) Packet Rule) (Query (Body Packet Rule))
    (Drift (Body Packet Rule) Packet Rule)) :=
  [.drift (.capture (sampleCapture "a" 12)), .drift (.capture (sampleCapture "b" 13)),
    .drift (.attempt ⟨20, true, []⟩), .start 0 .proposal] ++
  List.replicate 14 (.proceed 0 .done answers) ++
  [.start 1 (.verifyPending ⟨sampleBody, some "uri", 2⟩)] ++
  List.replicate 7 (.proceed 1 .done answers)

theorem one_answer_sample : OneAnswer sampleSetting (reached sampleSetting 20 sampleRun) ∧
    (reached sampleSetting 20 sampleRun).answers.map (·.evidence) =
      [⟨sampleBody, "uri", 2⟩, ⟨sampleBody, "uri", 2⟩] :=
  ⟨one_answer Function.injective_id 20 sampleRun, by decide +kernel⟩

end Samples

end Settlement.Proposing
