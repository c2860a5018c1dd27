import Flurbo.Sdk.Release

-- The nonces that the entries of a journal hold.

open Evm Except

namespace Sdk

variable {o : Options} {s s' : System} {w w' : World} {e x y : JournalEntry} {j j' : Journal} {n m : ℕ}
  {event : Event} {happening : Happening} {pending : ℕ} {update : Update} {id : String}

-- An entry that is not final holds the nonce that it was signed with.
def JournalEntry.Holds (e : JournalEntry) (n : ℕ) : Prop := e.isFinal = false ∧ e.nonce = some n

instance JournalEntry.decidableHolds : Decidable (e.Holds n) := inferInstanceAs (Decidable (_ ∧ _))

section NextNonce

theorem foldl_max (ns : List ℕ) (a : ℤ) :
    let highest := ns.foldl (fun (m : ℤ) (n : ℕ) => max m n) a
    a ≤ highest ∧ (∀ n ∈ ns, (n : ℤ) ≤ highest) ∧ (highest = a ∨ ∃ n ∈ ns, highest = (n : ℤ)) := by
  induction ns generalizing a
  case nil          => simp
  case cons n ns hi =>
    have ⟨h₁, h₂, h₃⟩ := hi (max a n)
    rw [List.foldl_cons]
    refine ⟨by omega, List.forall_mem_cons.mpr ⟨by omega, h₂⟩, ?_⟩
    rcases h₃ with h₃ | ⟨k, hk, h₃⟩
    · rcases max_choice a (n : ℤ) with hm | hm
      · exact .inl (h₃.trans hm)
      · exact .inr ⟨n, List.mem_cons_self, h₃.trans hm⟩
    · exact .inr ⟨k, List.mem_cons_of_mem _ hk, h₃⟩

theorem mem_held : n ∈ (j.filter (!·.isFinal)).filterMap (·.nonce) ↔ ∃ e ∈ j, e.Holds n := by
  simp only [List.mem_filterMap, List.mem_filter, JournalEntry.Holds, Bool.not_eq_true', and_assoc]

-- The next nonce is above all that are held.
theorem JournalEntry.Holds.lt_nextNonce (h : e.Holds n) (he : e ∈ j) : n < nextNonce pending j := by
  have ⟨_, hle, _⟩ := foldl_max ((j.filter (!·.isFinal)).filterMap (·.nonce)) (-1)
  have := hle n (mem_held.mpr ⟨e, he, h⟩)
  simp only [nextNonce, highest]
  omega

-- Below it there are only nonces that count as pending, and those up to one that is held.
theorem lt_nextNonce (h : m < nextNonce pending j) : m < pending ∨ ∃ e ∈ j, ∃ n, e.Holds n ∧ m ≤ n := by
  have ⟨_, _, hcase⟩ := foldl_max ((j.filter (!·.isFinal)).filterMap (·.nonce)) (-1)
  simp only [nextNonce, highest] at h
  rcases hcase with hcase | ⟨n, hn, hcase⟩
  · exact .inl (by omega)
  · by_cases hp : m < pending
    · exact .inl hp
    · obtain ⟨e, he, hh⟩ := mem_held.mp hn
      exact .inr ⟨e, he, n, hh, by omega⟩

theorem le_nextNonce : pending ≤ nextNonce pending j := by
  simp only [nextNonce]
  omega

end NextNonce

section Steps

-- Nonces are only given up.
def Loses (e x : JournalEntry) : Prop := ∀ n, x.Holds n → e.Holds n

theorem holds_of_planned (he : e.Proper) (h : e.status = .planned) : ¬ e.Holds n := by
  rintro ⟨_, hn⟩
  rw [he.nonce, he.unsigned (.inl h)] at hn
  cases hn

-- A nonce is held until the entry is final.
theorem JournalEntry.Holds.evolves (h : e.Holds n) (he : e.Proper) (hx : x.Proper) (hev : e.Evolves x)
    (hf : x.isFinal = false) : x.Holds n := by
  obtain ⟨tx, htx, rfl⟩ : ∃ tx, e.rawTransaction = some tx ∧ tx.nonce = n := by
    simpa [he.nonce] using h.right
  exact ⟨hf, by rw [hx.nonce, hev.raw tx htx]; rfl⟩

theorem sign_holds {now : ℤ} : (e.sign n now).Holds m ↔ m = n := by
  simp [JournalEntry.Holds, JournalEntry.sign, JournalEntry.isFinal, JournalStatus.unfinished, eq_comm]

theorem markSent_holds {now : ℤ} : (e.markSent now).Holds n ↔ e.Holds n := by
  unfold JournalEntry.markSent
  split
  case isTrue h  => simp [JournalEntry.Holds, JournalEntry.isFinal, h, JournalStatus.unfinished]
  case isFalse   => exact .rfl

theorem settle_holds (hf : e.isFinal = false) :
    (settleEntry e update x).Holds n ↔
      x.Holds n ∧ (x.status = e.status → update.status ∈ JournalStatus.unfinished) := by
  unfold settleEntry
  split
  case isFalse h => simp [h]
  case isTrue h  =>
    have hx : x.isFinal = false := by rw [JournalEntry.isFinal, h]; exact hf
    have hn : (update.apply x).nonce = x.nonce := by cases update <;> rfl
    have hu : (update.apply x).isFinal = false ↔ update.status ∈ JournalStatus.unfinished := by
      simp [JournalEntry.isFinal, apply_status]
    simp [JournalEntry.Holds, hx, hn, hu, h, and_comm]

-- The event settles the entry with the update.
def Settles (s : System) (event : Event) (x : JournalEntry) (update : Update) : Prop :=
  ∃ n e, event = .settle n ∧ s.tasks n = some (.settle e update) ∧ findEntry e.id s.journal = some x ∧
    x.status = e.status

-- The event signs a planned entry, with the answer on the pending nonce.
def Signs (s : System) (event : Event) (x : JournalEntry) (pending : ℕ) : Prop :=
  ∃ n view id d j' e', event = .sign n view id d ∧ view.pending = pending ∧
    sign view id d s.journal = .ok (j', some e') ∧ findEntry id s.journal = some x

-- A step plans an entry that holds nothing, or signs one with the next nonce, or gives nonces up.
inductive Held (s : System) (event : Event) : Journal → Prop
  | plan (x : JournalEntry) (h : ∀ n, ¬ x.Holds n) : Held s event (s.journal ++ [x])
  | sign (x : JournalEntry) (pending : ℕ) (now : ℤ) (id : String) (h : Signs s event x pending)
    (hf : findEntry id s.journal = some x) (hp : x.status = .planned) :
    Held s event (onEntry id (·.sign (nextNonce pending s.journal) now) s.journal)
  | lose (j : Journal) (h : List.Forall₂ Loses s.journal j)
    (hk : ∀ x ∈ s.journal, ∀ n, x.Holds n → (∃ x' ∈ j, x'.Holds n) ∨
      ∃ update, Settles s event x update ∧ update.status ∉ JournalStatus.unfinished) :
    Held s event j

theorem Stepped.held (h : Stepped o s event s') (hc : Careful s) : Held s event s'.journal := by
  have hsame : Held s event s.journal :=
    .lose _ (List.forall₂_same.mpr fun _ _ _ => id) fun x hx n hn => .inl ⟨x, hx, hn⟩
  cases h
  case plan hp                         =>
    obtain ⟨gas, tx, _, _, rfl⟩ := plan_eq_ok hp
    exact .plan _ fun n hn => by cases hn.right
  case sign n view id d j' signed _ _ hs =>
    have hsigned := sign_eq_ok hs
    cases hsigned
    case none                     => exact hsame
    case abandoned x note hf hp   =>
      have hx (y : JournalEntry) (hy : findEntry id s.journal = some y) : ∀ n, ¬ y.Holds n := by
        cases hf.symm.trans hy
        exact fun n => holds_of_planned (hc.proper x (Records.find_mem hf)) hp
      refine .lose _ (Records.change_forall₂ (fun _ _ h => h) fun y hy n hn => ?_) fun y hy n hn => ?_
      · simp [JournalEntry.Holds, JournalEntry.isFinal, JournalEntry.abandon, JournalStatus.unfinished] at hn
      · rcases Records.mem_change (·.abandon view.now note) id hy with hy | ⟨hy, _⟩
        · exact .inl ⟨y, hy, hn⟩
        · exact absurd hn (hx y hy n)
    case signed x hf hp           =>
      exact .sign x view.pending view.now id ⟨n, view, id, d, _, _, rfl, rfl, hs, hf⟩ hf hp
  case mark e now _ _                  =>
    refine .lose _ (Records.change_forall₂ (fun _ _ => id) fun _ _ _ => markSent_holds.mp) fun y hy n hn => ?_
    rcases Records.mem_change (·.markSent now) e.id hy with hy | ⟨_, hy⟩
    · exact .inl ⟨y, hy, hn⟩
    · exact .inl ⟨_, hy, markSent_holds.mpr hn⟩
  case settle k e update hk            =>
    obtain ⟨hf, _⟩ := hc.careful _ _ hk
    refine .lose _ (Records.change_forall₂ (fun _ _ => id) fun _ _ _ hn => ((settle_holds hf).mp hn).left)
      fun y hy n hn => ?_
    rcases Records.mem_change (settleEntry e update) e.id hy with hy | ⟨hfind, hy⟩
    · exact .inl ⟨y, hy, hn⟩
    · by_cases hu : y.status = e.status → update.status ∈ JournalStatus.unfinished
      · exact .inl ⟨_, hy, (settle_holds hf).mpr ⟨hn, hu⟩⟩
      · obtain ⟨hs, hu⟩ := Classical.not_imp.mp hu
        exact .inr ⟨update, ⟨k, e, rfl, hk, hfind, hs⟩, hu⟩
  all_goals exact hsame

end Steps

section Distinct

-- No two entries hold one nonce.
def Distinct (j : Journal) : Prop := j.Pairwise fun e e' => ∀ n, e.Holds n → ¬ e'.Holds n

theorem Distinct.unique (h : Distinct j) (hx : x ∈ j) (hy : y ∈ j) (hn : x.Holds n) (hm : y.Holds n) :
    x = y := by
  by_contra hne
  have : Std.Symm fun (e e' : JournalEntry) => ∀ n, e.Holds n → ¬ e'.Holds n :=
    ⟨fun _ _ h n hx hy => h n hy hx⟩
  exact h.forall hx hy hne n hn hm

theorem Held.distinct (h : Held s event j) (hd : Distinct s.journal) : Distinct j := by
  cases h
  case plan x hx             =>
    exact List.pairwise_append.mpr ⟨hd, List.pairwise_singleton _ _, fun y _ z hz n _ hn =>
      hx n (List.mem_singleton.mp hz ▸ hn)⟩
  case sign x pending now id _ _ _ =>
    refine Records.change_pairwise hd fun x _ y hy => ⟨fun n hn hm => ?_, fun n hm hn => ?_⟩
    all_goals
      rw [sign_holds.mp hn] at hm
      exact absurd (hm.lt_nextNonce hy) (lt_irrefl _)
  case lose h _              =>
    exact Records.forall₂_pairwise h (fun ha hb hab n hn hm => hab n (ha n hn) (hb n hm)) hd

end Distinct

section Sent

-- Whatever is in the pool was signed by the journal.
structure Sent (w : World) : Prop where
  sent : ∀ tx ∈ w.chain.sent, ∃ e ∈ w.system.journal, e.rawTransaction = some tx
  pool : ∀ tx ∈ w.chain.pool, ∃ e ∈ w.system.journal, e.rawTransaction = some tx

theorem Sent.initial {clock : ℤ} {head : Block} {first : ℕ} : Sent (World.initial clock head first) :=
  ⟨List.forall_mem_nil _, List.forall_mem_nil _⟩

theorem bytes_signed (hi : Informed w) {tx : SignedTransaction} (h : w.bytes n = some tx) :
    ∃ e ∈ w.system.journal, e.rawTransaction = some tx := by
  obtain ⟨task, ht, htx⟩ := Option.bind_eq_some_iff.mp h
  obtain ⟨x, hx, he⟩ := hi.careful.tracked n task ht
  exact ⟨x, Records.find_mem hx, he.raw tx htx⟩

theorem Sent.step (h : Sent w) (hi : Informed w) (hs : World.Stepped o w happening w') : Sent w' := by
  have hgrows (tx : SignedTransaction) (he : ∃ e ∈ w.system.journal, e.rawTransaction = some tx) :
      ∃ e ∈ w'.system.journal, e.rawTransaction = some tx := by
    obtain ⟨e, he, htx⟩ := he
    obtain ⟨x, hx, hev⟩ := (hi.grows hs).mem he
    exact ⟨x, hx, hev.raw tx htx⟩
  cases hs
  case runtime event system ha hs =>
    cases event
    case send n accepted =>
      refine ⟨fun tx htx => hgrows tx ?_, fun tx htx => hgrows tx ?_⟩
      · rcases List.mem_append.mp htx with htx | htx
        · exact bytes_signed hi (Option.mem_toList.mp htx)
        · exact h.sent tx htx
      · simp only [World.sending] at htx
        split at htx
        · rcases List.mem_append.mp htx with htx | htx
          · exact bytes_signed hi (Option.mem_toList.mp htx)
          · exact h.pool tx htx
        · exact h.pool tx htx
    all_goals exact ⟨fun tx htx => hgrows tx (h.sent tx htx), fun tx htx => hgrows tx (h.pool tx htx)⟩
  case block hs                   => exact ⟨hs.left ▸ h.sent, hs.right ▸ h.pool⟩
  case receive tx hm              => exact ⟨h.sent, List.forall_mem_cons.mpr ⟨h.sent tx hm, h.pool⟩⟩
  case evict tx                   => exact ⟨h.sent, fun tx htx => h.pool tx (List.mem_of_mem_filter htx)⟩

end Sent

section Contiguous

-- The nonces from the latest count up to each one that is held are held too.
def Contiguous (w : World) : Prop :=
  ∀ e ∈ w.system.journal, ∀ n, e.Holds n →
    ∀ m, w.chain.latest ≤ m → m < n → ∃ e' ∈ w.system.journal, e'.Holds m

-- An entry expires only if no higher nonce is held, and an entry is signed only if the pending count
-- passes over no expired entry whose nonce has not been assigned again. Nonces that are used up do not
-- matter.
def Orderly (w : World) : Happening → Prop
  | .runtime event =>
    (∀ x update, Settles w.system event x update → update.status = .expired →
      ∀ n, w.chain.latest ≤ n → x.Holds n → ∀ y ∈ w.system.journal, ∀ m, y.Holds m → m ≤ n) ∧
    (∀ x pending, Signs w.system event x pending →
      ∀ y ∈ w.system.journal, y.status = .expired → ∀ n, y.nonce = some n →
        w.chain.latest ≤ n → n < pending → ∃ e ∈ w.system.journal, e.Holds n)
  | _              => True

-- What an update that makes an entry final shows of its nonce, unless it has expired.
theorem settled_used (hi : Informed w) (h : Settles w.system event x update)
    (hu : update.status ∉ JournalStatus.unfinished) (hn : x.Holds n) :
    update.status = .expired ∨ n < w.chain.latest := by
  obtain ⟨k, e, _, hk, hx, hs⟩ := h
  obtain ⟨⟨hf, hsound⟩, he, y, hy, hev⟩ := hi.careful.follows hk
  cases hy.symm.trans hx
  have hp := hi.careful.proper x (Records.find_mem hx)
  have hraw := raw_eq_of_status he hp hf hev hs
  obtain ⟨tx, htx, rfl⟩ : ∃ tx, x.rawTransaction = some tx ∧ tx.nonce = n := by
    simpa [hp.nonce] using hn.right
  have hshows := hi.tasks k _ hk tx (hraw ▸ htx)
  cases update
  case verified status finalAt cost receipt =>
    rcases hsound.left with rfl | rfl <;> exact .inr hshows
  case released status finalAt receipt      =>
    have ⟨hmem, habandoned⟩ := hsound
    simp only [List.mem_cons, List.not_mem_nil, or_false] at hmem
    rcases hmem with rfl | rfl | rfl | rfl
    · exact absurd hn (holds_of_planned hp (hs.trans (habandoned rfl)))
    · exact .inr (hi.ordered.lt hshows)
    · exact .inr hshows
    · exact .inl rfl
  case seen broadcastAt                     =>
    exact absurd (by simp [Update.status, JournalStatus.unfinished]) hu

-- Bytes that are in the pool under a nonce that is not used up belong to an entry that holds it, or
-- that has expired.
theorem pool_holds (hi : Informed w) (hsent : Sent w) (hm : w.chain.pool.any (·.nonce = m))
    (hl : w.chain.latest ≤ m) :
    ∃ e ∈ w.system.journal, e.Holds m ∨ e.status = .expired ∧ e.nonce = some m := by
  obtain ⟨tx, htx, hn⟩ := List.any_eq_true.mp hm
  obtain ⟨e, he, hraw⟩ := hsent.pool tx htx
  have hp := hi.careful.proper e he
  have hnonce : e.nonce = some m := by rw [hp.nonce, hraw]; simpa using hn
  have hlt (h : tx.nonce < w.chain.latest) : False := by
    have : tx.nonce = m := by simpa using hn
    omega
  have hshows := hi.entries e he tx hraw
  refine ⟨e, he, ?_⟩
  cases hs : e.status
  case expired   => exact .inr ⟨rfl, hnonce⟩
  case abandoned => cases (hp.unsigned (.inr hs)).symm.trans hraw
  case confirmed => rw [hs] at hshows; exact (hlt hshows).elim
  case mismatch  => rw [hs] at hshows; exact (hlt hshows).elim
  case replaced  => rw [hs] at hshows; exact (hlt hshows).elim
  case reverted  => rw [hs] at hshows; exact (hlt (hi.ordered.lt hshows)).elim
  all_goals exact .inl ⟨by simp [JournalEntry.isFinal, hs, JournalStatus.unfinished], hnonce⟩

theorem Contiguous.after (h : Contiguous w) (hi : Informed w) (hsent : Sent w) (ha : w.answers event)
    (hs : Held w.system event j) (ho : Orderly w (.runtime event)) :
    ∀ e ∈ j, ∀ n, e.Holds n → ∀ m, w.chain.latest ≤ m → m < n → ∃ e' ∈ j, e'.Holds m := by
  intro e he n hn m hl hm
  cases hs
  case plan x hx                    =>
    rcases List.mem_append.mp he with he | he
    · obtain ⟨e', he', h⟩ := h e he n hn m hl hm
      exact ⟨e', List.mem_append_left _ he', h⟩
    · exact absurd hn (List.mem_singleton.mp he ▸ hx n)
  case sign x pending now id hsg hf hp =>
    have hx := hi.careful.proper x (Records.find_mem hf)
    have hstays (h : ∃ e' ∈ w.system.journal, e'.Holds m) :
        ∃ e' ∈ onEntry id (·.sign (nextNonce pending w.system.journal) now) w.system.journal, e'.Holds m := by
      obtain ⟨e', he', h⟩ := h
      rcases Records.mem_change (·.sign (nextNonce pending w.system.journal) now) id he' with he' | ⟨hf', _⟩
      · exact ⟨e', he', h⟩
      · cases hf.symm.trans hf'
        exact absurd h (holds_of_planned hx hp)
    apply hstays
    rcases Records.change_mem he with he | ⟨y, _, rfl⟩
    · exact h e he n hn m hl hm
    · rw [sign_holds.mp hn] at hm
      rcases lt_nextNonce hm with hpending | ⟨e', he', k, hk, hle⟩
      · obtain ⟨task, view, id', d, j', e', rfl, rfl, hsign, hfind⟩ := hsg
        have hpool : w.chain.pool.any (·.nonce = m) := by
          simp only [World.answers, decide_eq_true_eq] at ha
          exact ha.right m hpending hl
        obtain ⟨e₁, he₁, hh | ⟨hs, hnonce⟩⟩ := pool_holds hi hsent hpool hl
        · exact ⟨e₁, he₁, hh⟩
        · exact ho.right x _ ⟨task, view, id', d, j', e', rfl, rfl, hsign, hfind⟩ e₁ he₁ hs m hnonce hl hpending
      · rcases hle.eq_or_lt with rfl | hlt
        · exact ⟨e', he', hk⟩
        · exact h e' he' k hk m hl hlt
  case lose hloses hk               =>
    obtain ⟨a, ha, hae⟩ := Records.forall₂_mem hloses he
    obtain ⟨x, hx, hh⟩ := h a ha n (hae n hn) m hl hm
    rcases hk x hx m hh with hkeeps | ⟨update, hsettles, hu⟩
    · exact hkeeps
    · rcases settled_used hi hsettles hu hh with hexpired | hused
      · exact absurd (ho.left x update hsettles hexpired m hl hh a ha n (hae n hn)) (not_le.mpr hm)
      · exact absurd hl (not_le.mpr hused)

-- What holds of the nonces whatever the runtimes do.
structure Numbered (w : World) : Prop where
  informed : Informed w
  sent     : Sent w
  distinct : Distinct w.system.journal

theorem Numbered.initial {clock : ℤ} {head : Block} {first : ℕ} : Numbered (World.initial clock head first) :=
  ⟨.initial, .initial, .nil⟩

theorem Numbered.step (h : Numbered w) (hs : World.Stepped o w happening w') : Numbered w' := by
  refine ⟨h.informed.step hs, h.sent.step h.informed hs, ?_⟩
  cases hs
  case runtime hs => exact (hs.held h.informed.careful).distinct h.distinct
  all_goals exact h.distinct

theorem Contiguous.step (h : Contiguous w) (hi : Numbered w) (ho : Orderly w happening)
    (hs : World.Stepped o w happening w') : Contiguous w' := by
  cases hs
  case runtime event system ha hs =>
    have hl : (w.sending event).latest = w.chain.latest := by cases event <;> rfl
    intro e he n hn m hm
    exact h.after hi.informed hi.sent ha (hs.held hi.informed.careful) ho e he n hn m (hl ▸ hm)
  case block hc _                 =>
    exact fun e he n hn m hm => h e he n hn m (hc.latest.trans hm)
  all_goals exact h

-- If the nonce of an expired entry is still held, no other was above it.
theorem Contiguous.of_settle {k : ℕ} {c : Chain} (h : Contiguous ⟨s, c⟩) (hi : Numbered w)
    (hs : Sdk.Stepped o w.system (.settle k) s) (hk : w.system.tasks k = some (.settle e update))
    (hx : findEntry e.id w.system.journal = some x) (hstatus : x.status = e.status)
    (hu : update.status = .expired) (hl : c.latest ≤ n) (hn : x.Holds n) (hy : y ∈ w.system.journal)
    (hm : y.Holds m) (hlt : n < m) : False := by
  have ⟨hf, _⟩ := hi.informed.careful.careful _ _ hk
  cases hs
  case settle e₁ update₁ hk₁ =>
    cases hk.symm.trans hk₁
    have hgone : ¬ (settleEntry e update x).Holds n := by
      rw [settle_holds hf]
      rintro ⟨_, hstays⟩
      have := hstays hstatus
      simp [hu, JournalStatus.unfinished] at this
    have hy' : y ∈ onEntry e.id (settleEntry e update) w.system.journal := by
      rcases Records.mem_change (settleEntry e update) e.id hy with hy | ⟨hfind, _⟩
      · exact hy
      · cases hx.symm.trans hfind
        cases hn.right.symm.trans hm.right
        exact absurd hlt (lt_irrefl _)
    obtain ⟨a, ha, hh⟩ := h y hy' m hm n hl hlt
    have hne : a ≠ settleEntry e update x := by rintro rfl; exact hgone hh
    have hmem : a ∈ w.system.journal := by
      rcases Records.change_mem ha with ha | ⟨x', hx', rfl⟩
      · exact ha
      · cases hx.symm.trans hx'
        exact absurd rfl hne
    have hold : a ≠ x := Records.change_ne hi.distinct hx (fun h => h n hn hn) ha hne
    exact hold (hi.distinct.unique hmem (Records.find_mem hx) hh hn)

-- If a nonce that the pending count passed over is held, it was held before.
theorem Contiguous.of_sign {k : ℕ} {c : Chain} {view : SignView} {d : Deployment} {j' : Journal}
    {e' : JournalEntry} (h : Contiguous ⟨s, c⟩) (hs : Sdk.Stepped o w.system (.sign k view id d) s)
    (hsign : sign view id d w.system.journal = .ok (j', some e')) (hl : c.latest ≤ n)
    (hlt : n < view.pending) : ∃ e ∈ w.system.journal, e.Holds n := by
  cases hs
  case sign j₁ signed _ _ hs =>
    cases hs.symm.trans hsign
    have hsigned := sign_eq_ok hsign
    cases hsigned
    case signed x hf hp =>
      have hmem : x.sign (nextNonce view.pending w.system.journal) view.now ∈
          onEntry id (·.sign (nextNonce view.pending w.system.journal) view.now) w.system.journal := by
        have hfind : findEntry id (onEntry id (·.sign (nextNonce view.pending w.system.journal) view.now)
            w.system.journal) = _ := findEntry_onEntry fun _ => rfl
        rw [if_pos rfl, hf] at hfind
        exact Records.find_mem hfind
      obtain ⟨a, ha, hh⟩ := h _ hmem _ (sign_holds.mpr rfl) n hl (hlt.trans_le le_nextNonce)
      rcases Records.change_mem ha with ha | ⟨y, _, rfl⟩
      · exact ⟨a, ha, hh⟩
      · have := sign_holds.mp hh
        have : view.pending ≤ nextNonce view.pending w.system.journal := le_nextNonce
        omega

-- A step that is not orderly leaves a nonce behind.
theorem Contiguous.orderly (h : Contiguous w') (hi : Numbered w) (hs : World.Stepped o w happening w') :
    Orderly w happening := by
  cases hs
  case runtime event system ha hs =>
    have hl : (w.sending event).latest = w.chain.latest := by cases event <;> rfl
    refine ⟨fun x update hsettles hu n hle hn y hy m hm => ?_, fun x pending hsigns y hy hst n hn hle hlt => ?_⟩
    · obtain ⟨k, e, rfl, hk, hx, hstatus⟩ := hsettles
      by_contra hlt
      exact h.of_settle hi hs hk hx hstatus hu hle hn hy hm (not_le.mp hlt)
    · obtain ⟨k, view, id, d, j', e', rfl, rfl, hsign, hx⟩ := hsigns
      exact h.of_sign hs hsign hle hlt
  all_goals trivial

end Contiguous

section Minable

-- A later run gives the nonce `m` to an entry, while the entry with index `i` still holds `n`.
def Reassigned (o : Options) (w : World) (i n m : ℕ) : Prop :=
  ∃ later, let w' := Run.run (World.step o) w later
    (∃ e, w'.system.journal[i]? = some e ∧ e.Holds n) ∧ ∃ e ∈ w'.system.journal, e.Holds m

-- Every nonce from the latest count up to each one that is held is held too, or will be.
def Minable (o : Options) (w : World) : Prop :=
  ∀ (i : ℕ) e, w.system.journal[i]? = some e → ∀ n, e.Holds n → ∀ m, w.chain.latest ≤ m → m < n →
    (∃ e' ∈ w.system.journal, e'.Holds m) ∨ Reassigned o w i n m

theorem Held.holds (h : Held s event j) (hx : x ∈ j) (hm : x.Holds m) :
    (∃ y ∈ s.journal, y.Holds m) ∨ ∀ e ∈ s.journal, ∀ n, e.Holds n → n < m := by
  cases h
  case plan y hy             =>
    rcases List.mem_append.mp hx with hx | hx
    · exact .inl ⟨x, hx, hm⟩
    · exact absurd hm (List.mem_singleton.mp hx ▸ hy m)
  case sign y pending now id _ _ _ =>
    rcases Records.change_mem hx with hx | ⟨y, _, rfl⟩
    · exact .inl ⟨x, hx, hm⟩
    · rw [sign_holds.mp hm]
      exact .inr fun e he n hn => hn.lt_nextNonce he
  case lose h _              =>
    obtain ⟨y, hy, hyx⟩ := Records.forall₂_mem h hx
    exact .inl ⟨y, hy, hyx m hm⟩

-- A nonce below one that is held is never given to an entry again.
theorem hole_stays {i : ℕ} (hw : Numbered w) (he : w.system.journal[i]? = some e) (hn : e.Holds n)
    (hlt : m < n) (hno : ∀ x ∈ w.system.journal, ¬ x.Holds m) : ¬ Reassigned o w i n m := by
  rintro ⟨later, ⟨e', he', hn'⟩, x, hx, hm⟩
  have hinv : Numbered (Run.run (World.step o) w later) ∧
      ∃ e', (Run.run (World.step o) w later).system.journal[i]? = some e' ∧ e.Evolves e' ∧
        (e'.Holds n → ∀ x ∈ (Run.run (World.step o) w later).system.journal, ¬ x.Holds m) := by
    refine Run.run_invariant (I := fun w => Numbered w ∧ ∃ e', w.system.journal[i]? = some e' ∧
      e.Evolves e' ∧ (e'.Holds n → ∀ x ∈ w.system.journal, ¬ x.Holds m))
      ⟨hw, e, he, .refl e, fun _ => hno⟩ fun w₁ w₂ happening hmem h hs => ?_
    clear hmem
    obtain ⟨hi, e₁, he₁, hev, hno⟩ := h
    replace hs := World.step_eq_ok hs
    obtain ⟨e₂, he₂, hev₂⟩ := (hi.informed.grows hs).getElem? he₁
    refine ⟨hi.step hs, e₂, he₂, hev.trans hev₂, fun hn₂ x hx hm => ?_⟩
    have hf₁ : e₁.isFinal = false := by
      by_contra hf
      exact absurd (hev₂.final (by simpa using hf)).left (by simp [hn₂.left])
    have hn₁ : e₁.Holds n := hn.evolves (hw.informed.careful.proper e (List.mem_of_getElem? he))
      (hi.informed.careful.proper e₁ (List.mem_of_getElem? he₁)) hev hf₁
    cases hs
    case runtime hs =>
      rcases (hs.held hi.informed.careful).holds hx hm with ⟨y, hy, hm⟩ | hall
      · exact hno hn₁ y hy hm
      · exact absurd (hall e₁ (List.mem_of_getElem? he₁) n hn₁) (by omega)
    all_goals exact hno hn₁ x hx hm
  obtain ⟨_, e₁, he₁, _, hno⟩ := hinv
  cases he₁.symm.trans he'
  exact hno hn' x hx hm

theorem minable_iff (h : Numbered w) : Minable o w ↔ Contiguous w := by
  constructor
  · intro hm e he n hn m hl hlt
    obtain ⟨i, hi, rfl⟩ := List.mem_iff_getElem.mp he
    have hget := List.getElem?_eq_getElem hi
    by_contra hno
    rcases hm i _ hget n hn m hl hlt with hheld | hlater
    · exact hno hheld
    · exact hole_stays h hget hn hlt (fun x hx hm => hno ⟨x, hx, hm⟩) hlater
  · exact fun hc i e he n hn m hl hlt => .inl (hc e (List.mem_of_getElem? he) n hn m hl hlt)

theorem Numbered.run {events : List Happening} (h : Numbered w) :
    Numbered (Run.run (World.step o) w events) :=
  Run.run_invariant h fun _ _ _ _ h hs => h.step (World.step_eq_ok hs)

-- Nonces never collide, and none is left behind as long as the steps of a run are orderly, but not
-- longer.
theorem nonces_minable (o : Options) (clock : ℤ) (head : Block) (first : ℕ) (events : List Happening) :
    let w := World.initial clock head first
    (∀ earlier, earlier <+: events → Distinct (Run.run (World.step o) w earlier).system.journal) ∧
      ((∀ earlier, earlier <+: events → Minable o (Run.run (World.step o) w earlier)) ↔
        Run.Along (World.step o) (fun w happening => ∀ w', w.step o happening = .ok w' → Orderly w happening)
          w events) := by
  intro w
  have hnumbered (earlier : List Happening) : Numbered (Run.run (World.step o) w earlier) :=
    Numbered.run .initial
  refine ⟨fun earlier _ => (hnumbered earlier).distinct, fun h => ?_, fun h earlier hp => ?_⟩
  · refine Run.Along.iff_append.mpr fun earlier happening later he w' hs => ?_
    have hc := (minable_iff (hnumbered _)).mp (h (earlier ++ [happening]) ⟨later, by simp [he]⟩)
    rw [Run.run_append, Run.run_cons, Run.run_nil, Run.attempt_ok hs] at hc
    exact hc.orderly (hnumbered earlier) (World.step_eq_ok hs)
  · obtain ⟨later, rfl⟩ := hp
    refine (minable_iff (hnumbered earlier)).mpr ?_
    refine (Run.run_invariant_along (I := fun w => Numbered w ∧ Contiguous w) (Run.Along.append.mp h).left
      ⟨.initial, fun _ he => by cases he⟩ fun w₁ w₂ _ ho hi hs => ?_).right
    exact ⟨hi.left.step (World.step_eq_ok hs), hi.right.step hi.left (ho w₂ hs) (World.step_eq_ok hs)⟩

end Minable

end Sdk

namespace Sdk.Pilot

def approval : Plan := ⟨deployment, .approve 1_000_000, "decision", some head, 50⟩

-- A purchase is lost, an approval is signed after it, and then the purchase expires.
def stranded : List Happening :=
  [planned (purchase 400) "purchase" 100, signed 0 "purchase" 0 101, .runtime (.send 0 false),
    planned approval "approval" 102, signed 0 "approval" 0 103, .block 500 [],
    .runtime (.read 1 "purchase" 501 1), .runtime (.block 1 ⟨11, 500⟩), .runtime (.receipt 1 none),
    .runtime (.transaction 1 false), .runtime (.nonce 1 0 0 502), .runtime (.settle 1)]

end Sdk.Pilot

open Sdk Pilot in
theorem Sdk.nonce_left_behind :
    ¬ ∀ (o : Options) (clock : ℤ) (head : Block) (first : ℕ) (events : List Happening),
      Minable o (Run.run (World.step o) (World.initial clock head first) events) := by
  intro h
  have hnumbered : Numbered (Run.run (World.step options) (World.initial 100 head 0) stranded) :=
    Numbered.run .initial
  have hc := (minable_iff hnumbered).mp (h options 100 head 0 stranded)
  obtain ⟨e, he, hn⟩ :
      ∃ e ∈ (Run.run (World.step options) (World.initial 100 head 0) stranded).system.journal,
        e.Holds 1 := by decide +kernel
  have hl : (Run.run (World.step options) (World.initial 100 head 0) stranded).chain.latest ≤ 0 := by
    decide +kernel
  have hnone : ¬ ∃ e ∈ (Run.run (World.step options) (World.initial 100 head 0) stranded).system.journal,
        e.Holds 0 := by decide +kernel
  exact hnone (hc e he 1 hn 0 hl Nat.zero_lt_one)
