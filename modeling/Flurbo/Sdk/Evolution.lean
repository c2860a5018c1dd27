import Flurbo.Sdk.Executor

-- What may become of the entries of a journal, whatever its runtimes do.

open Evm Except

namespace Sdk

variable {o : Options} {s s' : System} {event : Event} {e x y : JournalEntry} {j j' : Journal}
  {policy : PolicyConfig}

section Spending

variable {p : PolicyEntry}

theorem spendOf_not_buy (h : p.action ≠ .buy) : p.spendOf = 0 := by
  simp [PolicyEntry.spendOf, h]

theorem spendOf_unfinished (h : p.status ∈ JournalStatus.unfinished) (ha : p.action = .buy) :
    p.spendOf = p.limitAtoms := by
  have hc : p.status ≠ .confirmed := by rintro hc; rw [hc] at h; simp [JournalStatus.unfinished] at h
  simp [PolicyEntry.spendOf, ha, hc, h]

-- Only a confirmed cost beyond the limit would count for more than the limit.
theorem spendOf_le (h : p.action = .buy → p.status = .confirmed → p.costAtoms.getD 0 ≤ p.limitAtoms) :
    p.spendOf ≤ p.limitAtoms := by
  unfold PolicyEntry.spendOf
  split
  case isTrue     => exact Nat.zero_le _
  case isFalse ha =>
    split
    case isTrue hc => exact h (not_not.mp ha) hc
    case isFalse   => split <;> omega

end Spending

-- What holds of an entry throughout: its deadline is that of its call, and what is signed is the
-- request under the nonce that the entry holds.
structure JournalEntry.Proper (e : JournalEntry) : Prop where
  deadline : e.deadline = e.data.deadline?
  unsigned : e.status = .planned ∨ e.status = .abandoned → e.rawTransaction = none
  signed   : e.status = .signed ∨ e.status = .broadcast → e.rawTransaction.isSome
  nonce    : e.nonce = e.rawTransaction.map (·.nonce)
  content  : ∀ tx, e.rawTransaction = some tx → tx.toTransactionRequest = e.toTransactionRequest

-- What may become of an entry: its intent and its signed bytes stay, its spending never grows, and
-- it stays final.
structure JournalEntry.Evolves (e x : JournalEntry) : Prop where
  id        : x.id = e.id
  action    : x.action = e.action
  limit     : x.limitAtoms = e.limitAtoms
  plannedAt : x.plannedAt = e.plannedAt
  request   : x.toTransactionRequest = e.toTransactionRequest
  raw       : ∀ tx, e.rawTransaction = some tx → x.rawTransaction = some tx
  spend     : x.spendOf ≤ e.spendOf
  final     : e.isFinal → x.isFinal ∧ x.status = e.status ∧ x.costAtoms = e.costAtoms ∧
                x.rawTransaction = e.rawTransaction

namespace JournalEntry.Evolves

theorem refl (e : JournalEntry) : e.Evolves e :=
  ⟨rfl, rfl, rfl, rfl, rfl, fun _ h => h, le_rfl, fun h => ⟨h, rfl, rfl, rfl⟩⟩

theorem trans (h₁ : e.Evolves x) (h₂ : x.Evolves y) : e.Evolves y where
  id         := h₂.id.trans h₁.id
  action     := h₂.action.trans h₁.action
  limit      := h₂.limit.trans h₁.limit
  plannedAt  := h₂.plannedAt.trans h₁.plannedAt
  request    := h₂.request.trans h₁.request
  raw tx htx := h₂.raw tx (h₁.raw tx htx)
  spend      := h₂.spend.trans h₁.spend
  final hf   :=
    have ⟨hx, hs, hc, hr⟩ := h₁.final hf
    have ⟨hy, hs', hc', hr'⟩ := h₂.final hx
    ⟨hy, hs'.trans hs, hc'.trans hc, hr'.trans hr⟩

end JournalEntry.Evolves

-- What is changed of an unfinished entry. Its limit is reserved, so any cost within it is covered.
structure JournalEntry.Changes (e x : JournalEntry) : Prop where
  id        : x.id = e.id
  action    : x.action = e.action
  limit     : x.limitAtoms = e.limitAtoms
  plannedAt : x.plannedAt = e.plannedAt
  request   : x.toTransactionRequest = e.toTransactionRequest
  raw       : ∀ tx, e.rawTransaction = some tx → x.rawTransaction = some tx
  cost      : x.action = .buy → x.status = .confirmed → x.costAtoms.getD 0 ≤ x.limitAtoms

theorem JournalEntry.Changes.evolves (h : e.Changes x) (hf : e.isFinal = false) : e.Evolves x where
  id        := h.id
  action    := h.action
  limit     := h.limit
  plannedAt := h.plannedAt
  request   := h.request
  raw       := h.raw
  spend     := by
    by_cases hb : x.action = .buy
    · have hu : e.status ∈ JournalStatus.unfinished := by simpa [isFinal] using hf
      rw [spendOf_unfinished hu (h.action ▸ hb), ← h.limit]
      exact spendOf_le h.cost
    · rw [spendOf_not_buy hb]
      exact Nat.zero_le _
  final hn  := absurd hn (by simp [hf])

section Changes

variable {now : ℤ} {note : String} {nonce : ℕ} {update : Update} {task : Task}

theorem planned_not_final (h : e.status = .planned) : e.isFinal = false := by
  simp [JournalEntry.isFinal, h, JournalStatus.unfinished]

theorem abandon_evolves (h : e.status = .planned) : e.Evolves (e.abandon now note) :=
  JournalEntry.Changes.evolves ⟨rfl, rfl, rfl, rfl, rfl, fun _ h => h, fun _ h => by cases h⟩
    (planned_not_final h)

theorem abandon_proper (he : e.Proper) (h : e.status = .planned) : (e.abandon now note).Proper :=
  ⟨he.deadline, fun _ => he.unsigned (.inl h), fun h => by simp [JournalEntry.abandon] at h, he.nonce,
    he.content⟩

theorem sign_evolves (he : e.Proper) (h : e.status = .planned) : e.Evolves (e.sign nonce now) :=
  JournalEntry.Changes.evolves ⟨rfl, rfl, rfl, rfl, rfl,
    fun _ htx => absurd htx (by simp [he.unsigned (.inl h)]), fun _ h => by cases h⟩
    (planned_not_final h)

theorem sign_proper (he : e.Proper) : (e.sign nonce now).Proper :=
  ⟨he.deadline, fun h => by simp [JournalEntry.sign] at h, fun _ => rfl, rfl,
    fun _ htx => by cases htx; rfl⟩

theorem markSent_evolves : e.Evolves (e.markSent now) := by
  unfold JournalEntry.markSent
  split
  case isTrue h  =>
    exact JournalEntry.Changes.evolves ⟨rfl, rfl, rfl, rfl, rfl, fun _ h => h, fun _ h => by cases h⟩
      (by simp [JournalEntry.isFinal, h, JournalStatus.unfinished])
  case isFalse   => exact .refl e

theorem markSent_proper (he : e.Proper) : (e.markSent now).Proper := by
  unfold JournalEntry.markSent
  split
  case isTrue h =>
    exact ⟨he.deadline, fun h => by simp at h, fun _ => he.signed (.inl h), he.nonce, he.content⟩
  case isFalse  => exact he

-- An update that keeps within the limit of the entry it was computed from, and that abandons nothing
-- but plans.
def Update.Sound (e : JournalEntry) : Update → Prop
  | verified status _ cost _ =>
    (status = .confirmed ∨ status = .mismatch) ∧
      (e.action = .buy → status = .confirmed → cost.getD 0 ≤ e.limitAtoms)
  | released status ..       =>
    status ∈ [.abandoned, .reverted, .replaced, .expired] ∧ (status = .abandoned → e.status = .planned)
  | seen _                   => e.status = .signed

-- The entry may have changed since the update was computed, but not if it still has the same status.
theorem settle_evolves (hu : update.Sound e) (hf : e.isFinal = false) (hx : e.Evolves x) :
    x.Evolves (settleEntry e update x) := by
  unfold settleEntry
  split
  case isFalse   => exact .refl x
  case isTrue hs =>
    have hfx : x.isFinal = false := by simpa [JournalEntry.isFinal, hs] using hf
    refine JournalEntry.Changes.evolves ?_ hfx
    cases update
    case verified status finalAt cost receipt =>
      refine ⟨rfl, rfl, rfl, rfl, rfl, fun _ h => h, fun ha hc => ?_⟩
      exact (hu.right (hx.action ▸ ha) hc).trans_eq hx.limit.symm
    case released status finalAt receipt      =>
      exact ⟨rfl, rfl, rfl, rfl, rfl, fun _ h => h, fun _ hc => by cases hc; simp [Update.Sound] at hu⟩
    case seen broadcastAt                     =>
      exact ⟨rfl, rfl, rfl, rfl, rfl, fun _ h => h, fun _ hc => by cases hc⟩

theorem settle_proper (hu : update.Sound e) (hx : x.Proper) : (settleEntry e update x).Proper := by
  unfold settleEntry
  split
  case isFalse   => exact hx
  case isTrue hs =>
    cases update
    case verified status finalAt cost receipt =>
      refine ⟨hx.deadline, fun h => ?_, fun h => ?_, hx.nonce, hx.content⟩
      all_goals rcases hu.left with rfl | rfl <;> simp [Update.apply] at h
    case released status finalAt receipt      =>
      refine ⟨hx.deadline, fun h => hx.unsigned (.inl ?_), fun h => ?_, hx.nonce, hx.content⟩
      · rcases h with rfl | rfl
        · simp [Update.Sound] at hu
        · exact hs.trans (hu.right rfl)
      · rcases h with rfl | rfl <;> simp [Update.Sound] at hu
    case seen broadcastAt                     =>
      exact ⟨hx.deadline, fun h => by simp [Update.apply] at h, fun _ => hx.signed (.inl (hs.trans hu)),
        hx.nonce, hx.content⟩

-- The entry that a call of `reconcileEntry` has read, and what it has decided so far.
def Task.Careful : Task → Prop
  | .broadcast _ | .mark _ => True
  | .settle e update       => e.isFinal = false ∧ update.Sound e
  | .block e | .receipt e _ | .transaction e _ | .nonce e .. | .rebroadcast e => e.isFinal = false

def Task.entry : Task → JournalEntry
  | .broadcast e | .mark e | .block e | .receipt e _ | .transaction e _ | .nonce e .. | .rebroadcast e
  | .settle e _ => e

theorem recoveryStep_release {status status' : JournalStatus} {nonce : Option ℕ} {deadline : Option ℤ}
    {chain : ChainView} (h : recoveryStep status nonce deadline chain now = (status', .release)) :
    status' = .abandoned ∧ status = .planned ∨
      status' = .reverted ∧ chain.receiptStatus = some false ∨
      status' = .replaced ∧ chain.txFound = false ∧ nonce.any (chain.nonceLatest > ·) ∨
      status' = .expired ∧ chain.txFound = false ∧ deadline.any (now > ·) := by
  unfold recoveryStep at h
  grind

theorem verifyReceipt_sound {wallet : Address} {r : Receipt} {allowance : ℕ} :
    (verifyReceipt wallet e r allowance now).Sound e := by
  unfold verifyReceipt
  split
  case h_1 cost hc =>
    refine ⟨.inl rfl, fun ha _ => ?_⟩
    simpa [JournalEntry.executionIntent, ha] using verifyEffect_le hc ha
  case h_2         => exact ⟨.inr rfl, fun _ hc => by cases hc⟩

theorem reconcile_careful {wallet : Address} {head : Block} {receipt : Option Receipt} {found : Bool}
    {latest allowance : ℕ} (hf : e.isFinal = false)
    (h : reconcile wallet e head receipt found latest allowance now = some task) :
    task.entry = e ∧ task.Careful := by
  simp only [reconcile] at h
  split at h
  case h_1    =>
    cases h
    exact ⟨rfl, hf, verifyReceipt_sound⟩
  case h_2 hr =>
    cases h
    refine ⟨rfl, hf, ?_⟩
    rcases recoveryStep_release (Prod.ext rfl hr) with ⟨hs, hp⟩ | ⟨hs, _⟩ | ⟨hs, _⟩ | ⟨hs, _⟩
    all_goals simp only [Update.Sound, hs]
    · exact ⟨by simp, fun _ => hp⟩
    all_goals simp
  case h_3    =>
    cases h
    exact ⟨rfl, hf⟩
  case h_4    =>
    split at h
    case isTrue hs => cases h; exact ⟨rfl, hf, hs⟩
    case isFalse   => cases h
  case h_5    => cases h

end Changes

section Steps

variable {n : ℕ} {task : Task} {t : Option Task} {view : SignView} {id : String}
  {signed : Option JournalEntry} {clock : ℤ}

abbrev Grows (j j' : Journal) : Prop := Records.Grows JournalEntry.Evolves j j'

-- The journal knows a later version of the entry.
def Tracked (j : Journal) (e : JournalEntry) : Prop :=
  ∃ x, findEntry e.id j = some x ∧ e.Evolves x

theorem Tracked.grows (h : Tracked j e) (hg : Grows j j') : Tracked j' e := by
  have ⟨x, hx, he⟩ := h
  have ⟨y, hy, hxy⟩ := hg.find (fun h => h.id) hx
  exact ⟨y, hy, he.trans hxy⟩

theorem Tracked.of_find (h : findEntry id j = some e) : Tracked j e :=
  ⟨e, by rw [Records.find_key h]; exact h, .refl e⟩

structure Careful (s : System) : Prop where
  proper  : ∀ e ∈ s.journal, e.Proper
  careful : ∀ n task, s.tasks n = some task → task.Careful
  known   : ∀ n task, s.tasks n = some task → task.entry.Proper
  tracked : ∀ n task, s.tasks n = some task → Tracked s.journal task.entry

theorem Careful.initial : Careful (System.initial clock) :=
  ⟨List.forall_mem_nil _, fun _ _ h => (by cases h), fun _ _ h => (by cases h),
    fun _ _ h => (by cases h)⟩

-- A task as a step leaves it: careful, and about a proper entry that the journal knows.
def Task.Follows (j : Journal) (task : Task) : Prop :=
  task.Careful ∧ task.entry.Proper ∧ Tracked j task.entry

theorem Careful.follows (h : Careful s) (hn : s.tasks n = some task) : task.Follows s.journal :=
  ⟨h.careful n task hn, h.known n task hn, h.tracked n task hn⟩

theorem Careful.set (h : Careful s) (hp : ∀ e ∈ j', e.Proper) (hg : Grows s.journal j')
    (ht : ∀ task, t = some task → task.Follows j') :
    Careful { s.set n t with journal := j', clock } := by
  have hcase (m : ℕ) (task : Task) (hm : Function.update s.tasks n t m = some task) :
      task.Follows j' := by
    by_cases hmn : m = n
    · subst hmn
      rw [Function.update_self] at hm
      exact ht task hm
    · rw [Function.update_of_ne hmn] at hm
      exact ⟨h.careful m task hm, h.known m task hm, (h.tracked m task hm).grows hg⟩
  exact ⟨hp, fun m task hm => (hcase m task hm).left, fun m task hm => (hcase m task hm).right.left,
    fun m task hm => (hcase m task hm).right.right⟩

theorem onEntry_evolves {f : JournalEntry → JournalEntry}
    (h : ∀ x, findEntry id j = some x → x.Evolves (f x)) :
    List.Forall₂ JournalEntry.Evolves j (onEntry id f j) :=
  Records.change_forall₂ .refl h

theorem onEntry_proper {f : JournalEntry → JournalEntry} (hj : ∀ e ∈ j, e.Proper)
    (h : ∀ x, findEntry id j = some x → x.Proper → (f x).Proper) : ∀ e ∈ onEntry id f j, e.Proper := by
  intro e he
  rcases Records.change_mem he with he | ⟨x, hx, rfl⟩
  · exact hj e he
  · exact h x hx (hj x (Records.find_mem hx))

theorem Signed.evolves (h : Signed view id j j' signed) (hj : ∀ e ∈ j, e.Proper) :
    List.Forall₂ JournalEntry.Evolves j j' := by
  cases h
  case none                => exact List.forall₂_same.mpr fun e _ => .refl e
  case abandoned e _ hf hp =>
    exact onEntry_evolves fun x hx => abandon_evolves (by cases hf.symm.trans hx; exact hp)
  case signed e hf hp      =>
    exact onEntry_evolves fun x hx =>
      sign_evolves (hj x (Records.find_mem hx)) (by cases hf.symm.trans hx; exact hp)

theorem Signed.proper (h : Signed view id j j' signed) (hj : ∀ e ∈ j, e.Proper) : ∀ e ∈ j', e.Proper := by
  cases h
  case none                => exact hj
  case abandoned e _ hf hp =>
    exact onEntry_proper hj fun x hx hxp => abandon_proper hxp (by cases hf.symm.trans hx; exact hp)
  case signed              => exact onEntry_proper hj fun x _ hxp => sign_proper hxp

theorem Signed.tracked (h : Signed view id j j' signed) (hj : ∀ e ∈ j, e.Proper) (he : signed = some e) :
    e.Proper ∧ Tracked j' e := by
  cases h
  case none           => cases he
  case abandoned      => cases he
  case signed x hf hp =>
    cases he
    refine ⟨sign_proper (hj x (Records.find_mem hf)), .of_find <|
      (findEntry_onEntry (f := (·.sign (nextNonce view.pending j) view.now)) fun _ => rfl).trans <|
        by rw [if_pos rfl, hf]; rfl⟩

theorem plan_eq_ok {p : Plan} {view : PlanView} {times : PlanTimes} {owner : Owner}
    (h : plan o p view times j id owner = .ok j') :
    ∃ gas tx, buildTransaction p.intent p.deployment = .ok tx ∧
      p.violations o view times gas j = [] ∧ j' = j ++ [p.entry view times gas tx id owner] := by
  simp only [plan, bind_eq_ok, refuseIf_eq_ok, pure_eq_ok, ok.injEq, not_not] at h
  obtain ⟨tx, htx, _, _, gas, _, _, hv, rfl⟩ := h
  exact ⟨gas, tx, htx, hv, rfl⟩

theorem entry_proper {p : Plan} {view : PlanView} {times : PlanTimes} {gas : ℕ} {tx : TransactionRequest}
    {owner : Owner} (h : buildTransaction p.intent p.deployment = .ok tx) :
    (p.entry view times gas tx id owner).Proper :=
  ⟨(buildTransaction_deadline h).symm, fun _ => rfl, fun h => by simp [Plan.entry] at h, rfl,
    fun _ h => by cases h⟩

-- A step plans an entry, or lets the entries that are there evolve.
theorem Stepped.journal (h : Stepped o s event s') (hc : Careful s) :
    List.Forall₂ JournalEntry.Evolves s.journal s'.journal ∨
      ∃ p view times id owner, times.evaluatedAt ≤ times.plannedAt ∧
        Sdk.plan o p view times s.journal id owner = .ok s'.journal := by
  cases h
  case plan ht hp => exact .inr ⟨_, _, _, _, _, ht.left.trans ht.right, hp⟩
  case sign hs    => exact .inl <| (sign_eq_ok hs).evolves hc.proper
  case mark       => exact .inl <| onEntry_evolves fun x _ => markSent_evolves
  case settle hn  =>
    have ⟨hf, hw⟩ := hc.careful _ _ hn
    have ⟨y, hy, he⟩ := hc.tracked _ _ hn
    exact .inl <| onEntry_evolves fun x hx => settle_evolves hw hf (by cases hy.symm.trans hx; exact he)
  all_goals exact .inl <| List.forall₂_same.mpr fun e _ => .refl e

theorem Stepped.grows (h : Stepped o s event s') (hc : Careful s) : Grows s.journal s'.journal := by
  rcases h.journal hc with h | ⟨_, _, _, _, _, _, h⟩
  · exact .of_forall₂ h
  · obtain ⟨_, _, _, _, h⟩ := plan_eq_ok h
    exact h ▸ .append .refl

theorem Stepped.proper (h : Stepped o s event s') (hc : Careful s) : ∀ e ∈ s'.journal, e.Proper := by
  cases h
  case plan hp   =>
    obtain ⟨_, _, hb, _, rfl⟩ := plan_eq_ok hp
    intro e he
    rcases List.mem_append.mp he with he | he
    · exact hc.proper e he
    · rw [List.mem_singleton.mp he]
      exact entry_proper hb
  case sign hs   => exact (sign_eq_ok hs).proper hc.proper
  case mark      => exact onEntry_proper hc.proper fun x _ => markSent_proper
  case settle hn =>
    have ⟨_, hw⟩ := hc.careful _ _ hn
    exact onEntry_proper hc.proper fun x _ => settle_proper hw
  all_goals exact hc.proper

theorem lookUp_careful (head : Block) (r : Option Receipt) (hf : e.isFinal = false) :
    (lookUp e head r).entry = e ∧ (lookUp e head r).Careful := by
  unfold lookUp
  split <;> exact ⟨rfl, hf⟩

theorem Stepped.careful (h : Stepped o s event s') (hc : Careful s) : Careful s' := by
  have hg := h.grows hc
  have hp := h.proper hc
  cases h
  case plan                     =>
    exact ⟨hp, hc.careful, hc.known, fun n task hn => (hc.tracked n task hn).grows hg⟩
  case sign hs                  =>
    refine hc.set hp hg fun task ht => ?_
    obtain ⟨e, he, rfl⟩ := Option.map_eq_some_iff.mp ht
    exact ⟨trivial, (sign_eq_ok hs).tracked hc.proper he⟩
  case send e accepted hn       =>
    have ⟨_, hk⟩ := hc.follows hn
    refine hc.set hp hg fun task ht => ?_
    split at ht
    · cases ht; exact ⟨trivial, hk⟩
    · cases ht
  case read id now pid _ _      =>
    refine hc.set hp hg fun task ht => ?_
    obtain ⟨e, he, rfl⟩ := Option.map_eq_some_iff.mp ht
    obtain ⟨he, hr⟩ := Option.filter_eq_some_iff.mp he
    have hf : e.isFinal = false := by simp only [reconcilable] at hr; simp_all
    exact ⟨hf, hc.proper e (Records.find_mem he), .of_find he⟩
  case block hn                 =>
    have hfollows := hc.follows hn
    exact hc.set hp hg fun task ht => by cases ht; exact hfollows
  case transaction hn           =>
    have hfollows := hc.follows hn
    exact hc.set hp hg fun task ht => by cases ht; exact hfollows
  case receipt e head r hn      =>
    have ⟨hf, hk⟩ := hc.follows hn
    refine hc.set hp hg fun task ht => ?_
    cases ht
    have ⟨he, hl⟩ := lookUp_careful head r hf
    exact ⟨hl, he.symm ▸ hk⟩
  case nonce e _ _ _ _ _ _ _ hn =>
    have ⟨hf, hk⟩ := hc.follows hn
    refine hc.set hp hg fun task ht => ?_
    have ⟨he, hr⟩ := reconcile_careful hf ht
    exact ⟨hr, he.symm ▸ hk⟩
  all_goals exact hc.set hp hg (fun task ht => by cases ht)

end Steps

end Sdk
