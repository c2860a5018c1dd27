import Flurbo.Contracts.Pools.Redemption
import Flurbo.Contracts.Resolvers.Windows

-- The resolver and its pool together: the pool is resolved by delivery alone, with the outcomes that
-- the cases have, and every resolution can be completed.

open Evm Except FactoredPositions

namespace Pools.PilotPool

variable {D : Dependencies} {cfg : Config} {msg : Msg cfg.self} {w : World D Void} {yesMask invalidMask : ℕ}

-- The checks of a resolution are the only ways in which it fails.
theorem resolve_ok (msg : Msg cfg.self) (h : Solvent cfg (fun _ => []) w) (he : cfg.eventCount ≤ 4)
    (hs : msg.sender = cfg.resolver) (hf : w.pool.funded) (hr : w.pool.resolved = false)
    (hc : cfg.closesAt ≤ msg.timestamp) (hd : yesMask &&& invalidMask = 0)
    (hy : yesMask < 2 ^ cfg.eventCount) (hv : invalidMask < 2 ^ cfg.eventCount) :
    ∃ w', resolve cfg msg yesMask invalidMask w = .ok w' := by
  have hor : (yesMask ||| invalidMask) >>> cfg.eventCount = 0 := by
    rw [Nat.shiftRight_eq_div_pow, Nat.div_eq_zero_iff_lt (Nat.two_pow_pos _)]
    exact Nat.or_lt_two_pow hy hv
  set states := completions cfg yesMask invalidMask with hstates
  have hpos : 0 < states.length := List.length_pos_of_mem (yesMask_mem hd hy)
  have hcount : states.length ≤ 16 := by
    refine (List.length_filter_le _ _).trans ?_
    rw [List.length_range, Nat.one_shiftLeft]
    exact Nat.pow_le_pow_right (by decide) he
  have hle : (states.map (liability w.pool.storedFactors)).sum ≤ 16 * 2 ^ 128 := by
    have hall : ∀ x ∈ states.map (liability w.pool.storedFactors), x ≤ 2 ^ 128 := by
      intro x hx
      obtain ⟨state, hs, rfl⟩ := List.mem_map.mp hx
      have hlt := (mem_completions.mp hs).left
      exact (FactoredCost.le_maximumLiability hlt).trans (h.maximum_eq ▸ h.maximum_lt).le
    refine (List.sum_le_card_nsmul _ _ hall).trans ?_
    rw [List.length_map, smul_eq_mul]
    exact Nat.mul_le_mul_right _ hcount
  have hsum : states.foldlM (fun total state => w.pool.storedFactors.foldlM (fun total f => do
      checkedAdd 256 total (← nth f.values (FactoredCost.project f.scope state))) total) 0 =
      .ok (states.map (liability w.pool.storedFactors)).sum := by
    refine (payouts_eq_ok (Nat.two_pow_pos 256)).mpr ⟨fun state _ f hf => ?_, by omega, Nat.zero_add _⟩
    rw [h.tally.length_eq f hf]
    exact FactoredCost.project_lt ((h.tally.scope_lt f hf).trans_le
      (Nat.pow_le_pow_right (by decide) (he.trans (by decide)))) state
  generalize (states.map (liability w.pool.storedFactors)).sum = total at *
  have hauth : revertIf (msg.sender ≠ cfg.resolver) .unauthorizedResolver = .ok () :=
    revertIf_ok (not_not.mpr hs)
  have hsettle : revertIf (¬ w.pool.funded ∨ w.pool.resolved ∨ msg.timestamp < cfg.closesAt ∨
      yesMask &&& invalidMask ≠ 0 ∨ (yesMask ||| invalidMask) >>> cfg.eventCount ≠ 0)
      .invalidSettlement = .ok () :=
    revertIf_ok (by simp [hf, hr, hc, hd, hor])
  have hadd : checkedAdd 256 total states.length = .ok (total + states.length) :=
    checkedAdd_eq_ok.mpr ⟨by omega, rfl⟩
  have hsub : checkedSub (total + states.length) 1 = .ok (total + states.length - 1) :=
    checkedSub_eq_ok.mpr ⟨by omega, rfl⟩
  have hdiv : checkedDiv (total + states.length - 1) states.length =
      .ok ((total + states.length - 1) / states.length) :=
    checkedDiv_eq_ok.mpr ⟨hpos.ne', rfl⟩
  exact ⟨_, by simp only [resolve, hauth, hsettle, ← hstates, hsum, hadd, hsub, hdiv, ok_bind]; rfl⟩

-- A resolved pool keeps its outcome.
theorem step_outcome {w' : World D Void} {call : Call D} (hs : step cfg w (msg, call) = .ok w')
    (hr : w.pool.resolved) (hc : cfg.closesAt ≤ msg.timestamp) (he : cfg.eventCount ≤ 32) :
    w'.pool.resolved ∧ w'.pool.resolvedState = w.pool.resolvedState ∧ w'.pool.ext = w.pool.ext := by
  cases call
  case action a =>
    have ⟨_, _, hf⟩ := ((act_eq_ok hs).passive hc he).frame
    rw [hf]
    exact ⟨hr, rfl, rfl⟩
  case resolve =>
    have ⟨_, _, _, h⟩ := resolve_eq_ok hs
    exact absurd hr (by simp [h.unresolved])
  case redeem =>
    obtain ⟨⟨_, _⟩, h, rfl⟩ := map_eq_ok.mp hs
    have hf := (redeem_eq_ok h).left.frame
    rw [hf]
    exact ⟨hr, rfl, rfl⟩

-- Only the resolver resolves a pool.
theorem step_resolved {w' : World D Void} {call : Call D} (hs : step cfg w (msg, call) = .ok w')
    (ht : Tally cfg.eventCount w.pool.storedFactors w.pool.positions) (hr : w'.pool.resolved)
    (hm : msg.sender ≠ cfg.resolver) : w.pool.resolved := by
  cases call
  case action a => exact (act_eq_ok hs).resolved uniform_sound ht ▸ hr
  case resolve  =>
    simp only [step, resolve, bind_eq_ok, revertIf_eq_ok, not_not] at hs
    obtain ⟨_, h, _⟩ := hs
    exact absurd h hm
  case redeem   =>
    obtain ⟨⟨_, _⟩, h, rfl⟩ := map_eq_ok.mp hs
    exact (redeem_eq_ok h).left.resolved

end Pools.PilotPool

namespace Resolvers

variable {D : Dependencies} {ε ρ : Type} {V : Variant D ε ρ} {site : Site} {w w' : World D ε}
  {a : Action D site ρ}

section Masks

variable {r : Resolver} {cases : List Case} {yesMask invalidMask : ℕ}

-- The masks that stand for the results of the cases.
structure Masked (cases : List Case) (n yesMask invalidMask : ℕ) : Prop where
  yes       : ∀ i c, cases[i]? = some c → i < n → (yesMask.testBit i = true ↔ c.result = .yes)
  void      : ∀ i c, cases[i]? = some c → i < n → (invalidMask.testBit i = true ↔ c.result = .void)
  finalized : ∀ i < n, ∃ c, cases[i]? = some c ∧ c.phase = .finalized
  yes_lt    : yesMask < 2 ^ n
  void_lt   : invalidMask < 2 ^ n

theorem addResults_eq_ok {n : ℕ}
    (h : (List.range n).foldlM (addResult cases) (0, 0) = .ok (yesMask, invalidMask)) :
    Masked cases n yesMask invalidMask := by
  induction n generalizing yesMask invalidMask
  case zero   =>
    cases h
    exact ⟨fun i _ _ hi => (by omega), fun i _ _ hi => (by omega), fun i hi => (by omega), by decide, by decide⟩
  case succ n ih =>
    rw [List.range_succ, List.foldlM_append] at h
    simp only [List.foldlM_cons, List.foldlM_nil, addResult, bind_eq_ok, nth_eq_ok, revertIf_eq_ok,
      pure_eq_ok, ok.injEq, not_not, Prod.exists, Prod.mk.injEq] at h
    obtain ⟨y, v, h, _, _, ⟨c, hc, _, hp, rfl, rfl⟩, rfl, rfl⟩ := h
    have hm := ih h
    have hbit {b : Prop} [Decidable b] {m i : ℕ} (hlt : m < 2 ^ n) :
        (if b then m ||| 1 <<< n else m).testBit i = true ↔ (i < n ∧ m.testBit i = true) ∨ (i = n ∧ b) := by
      have hn := Bits.testBit_eq_false hlt (le_refl n)
      by_cases hi : i < n
      case pos =>
        have : i ≠ n := hi.ne
        split <;> simp [Nat.one_shiftLeft, hi, this, this.symm]
      case neg =>
        have hf := Bits.testBit_eq_false hlt (not_lt.mp hi)
        split <;> simp [Nat.one_shiftLeft, Nat.testBit_two_pow, *, eq_comm]
    have hlt {b : Prop} [Decidable b] {m : ℕ} (h : m < 2 ^ n) :
        (if b then m ||| 1 <<< n else m) < 2 ^ (n + 1) := by
      have : m < 2 ^ (n + 1) := h.trans (Nat.pow_lt_pow_right (by decide) (by omega))
      split
      · rw [Nat.one_shiftLeft]
        exact Nat.or_lt_two_pow this (Nat.pow_lt_pow_right (by decide) (by omega))
      · exact this
    have hfind {i : ℕ} {c' : Case} (hi : cases[i]? = some c') (he : i = n) : c' = c := by
      subst he
      exact Option.some.inj (hi.symm.trans hc)
    refine ⟨fun i c' hi hlt => ?_, fun i c' hi hlt => ?_, fun i hi => ?_, hlt hm.yes_lt, hlt hm.void_lt⟩
    · rw [hbit hm.yes_lt]
      rcases Nat.lt_succ_iff_lt_or_eq.mp hlt with hlt | he
      · simp [hlt, hlt.ne, hm.yes i c' hi hlt]
      · simp [he, hfind hi he]
    · rw [hbit hm.void_lt]
      rcases Nat.lt_succ_iff_lt_or_eq.mp hlt with hlt | he
      · simp [hlt, hlt.ne, hm.void i c' hi hlt]
      · simp [he, hfind hi he]
    · rcases Nat.lt_succ_iff_lt_or_eq.mp hi with hi | rfl
      · exact hm.finalized i hi
      · exact ⟨c, hc, hp⟩

theorem masks_ok (h : ∀ i < r.eventCount, ∃ c, cases[i]? = some c ∧ c.phase = .finalized) :
    ∃ m, masks r cases = .ok m := by
  unfold masks
  generalize r.eventCount = n at h
  induction n
  case zero      => exact ⟨(0, 0), rfl⟩
  case succ n ih =>
    obtain ⟨m, hm⟩ := ih fun i hi => h i (by omega)
    obtain ⟨c, hc, hp⟩ := h n (by omega)
    have hadd : ∃ m', addResult cases m n = .ok m' :=
      ⟨_, by rw [addResult, nth_eq_ok.mpr hc, ok_bind, revertIf_ok (not_not.mpr hp)]; rfl⟩
    obtain ⟨m', hadd⟩ := hadd
    exact ⟨m', by rw [List.range_succ, List.foldlM_append, hm, ok_bind, List.foldlM_cons, hadd]; rfl⟩

theorem masks_eq_ok (h : masks r cases = .ok (yesMask, invalidMask)) :
    Masked cases r.eventCount yesMask invalidMask :=
  addResults_eq_ok h

theorem Masked.disjoint {n : ℕ} (h : Masked cases n yesMask invalidMask) : yesMask &&& invalidMask = 0 := by
  refine Nat.eq_of_testBit_eq fun i => ?_
  rw [Nat.testBit_and, Nat.zero_testBit]
  by_cases hi : i < n
  case pos =>
    obtain ⟨c, hc, _⟩ := h.finalized i hi
    have hy := h.yes i c hc hi
    have hv := h.void i c hc hi
    by_contra hb
    rw [Bool.not_eq_false, Bool.and_eq_true, hy, hv] at hb
    exact absurd (hb.1.symm.trans hb.2) (by decide)
  case neg => rw [Bits.testBit_eq_false h.yes_lt (not_lt.mp hi), Bool.false_and]

end Masks

section Joint

-- The pool as the pool's own model sees it.
def World.poolWorld (w : World D ε) : Pools.World D Pools.PilotPool.Void := ⟨w.token, w.pool⟩

-- A delivered resolution: the pool is resolved with the results of the cases, and pays.
structure Settled (site : Site) (w : World D ε) : Prop where
  matching : Matching site
  closed   : site.pool.closesAt ≤ w.now
  resolved : w.pool.resolved
  masked   : Masked w.resolver.cases site.resolver.eventCount w.pool.resolvedState w.pool.ext.voidMask
  paying   : Pools.PilotPool.Paying site.pool w.poolWorld

structure Joint (site : Site) (w : World D ε) : Prop extends Orderly site w where
  live      : Pools.Live site.pool (Pools.Open site.pool) w.poolWorld
  bound     : w.resolver.pool ≠ none → Matching site
  resolved  : Matching site → w.pool.resolved → w.resolver.delivered
  delivered : w.resolver.delivered → Settled site w

theorem Joint.initial (hp : site.pool.Accepted D) {token : D.collateral.State} {ext : ε} :
    Joint site (World.initial site token ext) where
  toOrderly := Orderly.initial
  live      := Pools.Live.initial (Pools.Open.initial hp)
  bound h   := absurd rfl h
  resolved _ h := by cases h
  delivered h  := by cases h

-- The token moves without anything being taken from the pool.
theorem live_of_balance (hp : site.pool.Accepted D) {pw pw' : Pools.World D Pools.PilotPool.Void}
    (h : Pools.Live site.pool (Pools.Open site.pool) pw) (hpool : pw'.pool = pw.pool)
    (hb : pw.balance site.pool.self ≤ pw'.balance site.pool.self) :
    Pools.Live site.pool (Pools.Open site.pool) pw' := by
  have ha : Pools.Acted (Pools.uniform site.pool) site.pool
      ⟨site.resolver.self, 0, site.ne, site.resolver_ne_0⟩ pw { pw with token := pw'.token } := .collateral hb
  have he : pw' = { pw with token := pw'.token } := by rw [← hpool]
  rw [he]
  exact h.acted ha Pools.uniform_sound hp.events_le fun ho => ho.acted hp ha

theorem paying_of_balance {pw pw' : Pools.World D Pools.PilotPool.Void}
    (h : Pools.PilotPool.Paying site.pool pw) (hpool : pw'.pool = pw.pool)
    (hb : pw.balance site.pool.self ≤ pw'.balance site.pool.self) : Pools.PilotPool.Paying site.pool pw' := by
  have he : pw' = { pw with token := pw'.token } := by rw [← hpool]
  rw [he]
  exact ⟨h.tally, h.resolved, h.pos, h.payout, h.balance.trans hb⟩

-- What only changes the resolver and the token, and nothing that is finalized.
theorem Joint.keep (hp : site.pool.Accepted D) (h : Joint site w) (ho : Orderly site w')
    (hn : w.now ≤ w'.now) (hpool : w'.pool = w.pool)
    (hb : w.balance site.pool.self ≤ w'.balance site.pool.self)
    (hbound : w'.resolver.pool ≠ none → Matching site)
    (hd : w'.resolver.delivered = w.resolver.delivered)
    (hc : ∀ (i : ℕ) c, w.resolver.cases[i]? = some c → c.phase = .finalized →
      w'.resolver.cases[i]? = some c) : Joint site w' where
  toOrderly := ho
  live      := live_of_balance hp h.live hpool hb
  bound     := hbound
  resolved hm hr := hd ▸ h.resolved hm (hpool ▸ hr)
  delivered hd' := by
    have hs := h.delivered (hd ▸ hd')
    refine ⟨hs.matching, hs.closed.trans hn, hpool ▸ hs.resolved, ?_, paying_of_balance hs.paying hpool hb⟩
    have hm := hs.masked
    have hback {i : ℕ} {c : Case} (hi : w'.resolver.cases[i]? = some c) (hlt : i < site.resolver.eventCount) :
        w.resolver.cases[i]? = some c := by
      obtain ⟨c', hc', hp'⟩ := hm.finalized i hlt
      rw [hc', ← hc i c' hc' hp', hi]
    rw [hpool]
    refine ⟨fun i c hi hlt => hm.yes i c (hback hi hlt) hlt, fun i c hi hlt => hm.void i c (hback hi hlt) hlt,
      fun i hi => ?_, hm.yes_lt, hm.void_lt⟩
    obtain ⟨c, hci, hpi⟩ := hm.finalized i hi
    exact ⟨c, hc i c hci hpi, hpi⟩

theorem Joint.pool {tx : Tx site} {call : Pools.PilotPool.Call D} {pw : Pools.World D Pools.PilotPool.Void}
    (hp : site.pool.Accepted D) (h : Joint site w) (ht : w.now ≤ tx.timestamp)
    (ho : Orderly site { w with now := tx.timestamp, token := pw.token, pool := pw.pool })
    (hs : Pools.PilotPool.step site.pool w.poolWorld (tx.toPool, call) = .ok pw) :
    Joint site { w with now := tx.timestamp, token := pw.token, pool := pw.pool } where
  toOrderly := ho
  live      := Pools.PilotPool.step_live hs h.live hp.events_le fun ha ho => ho.acted hp ha
  bound     := h.bound
  resolved hm hr := h.resolved hm <| Pools.PilotPool.step_resolved hs h.live.tally hr fun he =>
    tx.ne_resolver (he.trans hm.resolver)
  delivered hd := by
    have hset := h.delivered hd
    have hc : site.pool.closesAt ≤ tx.toPool.timestamp := hset.closed.trans ht
    obtain ⟨h₁, h₂, h₃⟩ := Pools.PilotPool.step_outcome hs hset.resolved hc hp.events_le
    refine ⟨hset.matching, hc, h₁, ?_, Pools.PilotPool.step_paying hset.paying hp.events_le hc hs⟩
    change Masked w.resolver.cases _ pw.pool.resolvedState pw.pool.ext.voidMask
    rw [h₂, h₃]
    exact hset.masked

theorem Joint.deliver {tx : Tx site} {yesMask invalidMask : ℕ} {pw : Pools.World D Pools.PilotPool.Void}
    (hp : site.pool.Accepted D) (h : Joint site w) (hact : Active w)
    (ho : Orderly site { w with
      now := tx.timestamp, pool := pw.pool, resolver := { w.resolver with delivered := true } })
    (hm : masks site.resolver w.resolver.cases = .ok (yesMask, invalidMask))
    (hs : Pools.PilotPool.resolve site.pool ⟨site.resolver.self, tx.timestamp, site.ne, site.resolver_ne_0⟩
      yesMask invalidMask w.poolWorld = .ok pw) :
    Joint site { w with
      now := tx.timestamp, pool := pw.pool, resolver := { w.resolver with delivered := true } } := by
  have ⟨_, _, _, hr⟩ := Pools.PilotPool.resolve_eq_ok hs
  have hw : pw = ⟨w.token, pw.pool⟩ := by rw [hr.eq]; rfl
  refine ⟨ho, ?_, h.bound, fun _ _ => rfl, fun _ => ⟨h.bound hact.bound, hr.closed, ?_, ?_, ?_⟩⟩
  · have := h.live.resolved hr
    rwa [hw] at this
  · change pw.pool.resolved = true
    rw [hr.eq]
  · change Masked w.resolver.cases _ pw.pool.resolvedState pw.pool.ext.voidMask
    rw [hr.eq]
    exact masks_eq_ok hm
  · have hpay := (Pools.PilotPool.resolve_paying (h.live.unresolved hr.unresolved).solvent hp.events_le hs).left
    rwa [hw] at hpay

theorem Joint.step (ha : site.resolver.Accepted) (hT : D.collateral.Confined) (hp : site.pool.Accepted D)
    (h : Joint site w) (hstep : step V site w a = .ok w') : Joint site w' := by
  have ho := h.toOrderly.step ha hT hstep
  have ⟨hs, ht⟩ := step_eq_ok hT ha.bond_pos hstep
  have hn := now_le hs ht
  have hkeep := h.keep hp ho hn
  have hfinal : ∀ (i : ℕ) c, w.resolver.cases[i]? = some c → c.phase = .finalized →
      w'.resolver.cases[i]? = some c := fun i c hc hpc => (finalized_step hs hc hpc).left
  cases hs
  case bound hm               => exact hkeep rfl le_rfl (fun _ => hm) rfl hfinal
  case asserted _ htk         => exact hkeep rfl htk.pool.ge h.bound rfl hfinal
  case disputed _ _ htk       => exact hkeep rfl htk.pool.ge h.bound rfl hfinal
  case voted                  => exact hkeep rfl le_rfl h.bound rfl hfinal
  case decided hf             => exact hkeep rfl le_rfl (by rw [hf.eq]; exact h.bound) (by rw [hf.eq]; rfl) hfinal
  case finalized hf           => exact hkeep rfl le_rfl (by rw [hf.eq]; exact h.bound) (by rw [hf.eq]) hfinal
  case delivered hact hm hr   => exact h.deliver hp hact ho hm hr
  case withdrawn _ _ hrep     => exact hkeep rfl hrep.pool.ge h.bound rfl hfinal
  case pool tx call pw hd hst => exact h.pool hp (ht _ rfl) ho hst
  case collateral _ hb        => exact hkeep rfl hb h.bound rfl hfinal

end Joint

section Delivery

variable {chain : Chain} {self token resolver : Address} {events b closeTime rulesHash : ℕ} {order : List ℕ}
  {ext : ε}

theorem run_joint (hT : D.collateral.Confined) (ha : site.resolver.Accepted) (hp : site.pool.Accepted D)
    (collateral : D.collateral.State) (ext : ε) (actions : List (Action D site ρ)) :
    Joint site (Run.run (step V site) (World.initial site collateral ext) actions) :=
  Run.run_invariant (Joint.initial hp) fun _ _ _ _ h hs => h.step ha hT hp hs

theorem Settled.redeemable (h : Settled site w) (hp : site.pool.Accepted D) :
    Pools.PilotPool.Redeemable site.pool w.poolWorld :=
  ⟨fun _ _ _ _ hq hle => h.paying.redeem_ok hp.events_le hq hle, h.paying.sum_le hp.events_le⟩

def isDelivery (e : Entry D ε ρ site) : Bool :=
  match e.2.1 with
  | .call _ .deliver => true
  | _                => false

-- The pool is resolved by a delivery and by nothing else, once, and with the results of the cases.
structure DeliverySound (site : Site) (w : World D ε) (es : List (Entry D ε ρ site)) : Prop where
  resolved : Matching site → (w.pool.resolved = true ↔ w.resolver.delivered = true)
  settled  : w.resolver.delivered = true → Settled site w
  redeem   : w.resolver.delivered = true → Pools.PilotPool.Redeemable site.pool w.poolWorld
  once     : (es.filter isDelivery).length = if w.resolver.delivered then 1 else 0

theorem delivered_step (hs : Stepped V site w a w') :
    (w'.resolver.delivered = w.resolver.delivered ∧ isDelivery (w, a, w') = false) ∨
      (w.resolver.delivered = false ∧ w'.resolver.delivered = true ∧ isDelivery (w, a, w') = true) := by
  cases hs
  case delivered hact _ _ => exact .inr ⟨hact.undelivered, rfl, rfl⟩
  case decided hf         => exact .inl ⟨by rw [hf.eq]; rfl, rfl⟩
  case finalized hf       => exact .inl ⟨by rw [hf.eq], rfl⟩
  all_goals exact .inl ⟨rfl, rfl⟩

theorem delivery_sound (hT : D.collateral.Confined) (h : Deployed D V site.resolver ext)
    (hp : Pools.PilotPool.construct D chain self token events b closeTime order resolver rulesHash =
      .ok site.pool) (collateral : D.collateral.State) (actions : List (Action D site ρ)) :
    DeliverySound site (Run.run (step V site) (World.initial site collateral ext) actions)
      (Run.history (step V site) (World.initial site collateral ext) actions) := by
  have hp := Pools.PilotPool.construct_accepted hp
  have hj := run_joint (V := V) hT h.accepted hp collateral ext actions
  refine ⟨fun hm => ⟨hj.resolved hm, fun hd => (hj.delivered hd).resolved⟩, hj.delivered,
    fun hd => (hj.delivered hd).redeemable hp, ?_⟩
  refine Run.history_invariant (J := fun w es => (es.filter isDelivery).length =
    if w.resolver.delivered then 1 else 0) rfl fun w es w' a _ hes hs => ?_
  rw [List.filter_append, List.length_append, hes]
  rcases delivered_step (step_eq_ok hT h.accepted.bond_pos hs).left with ⟨hd, he⟩ | ⟨hd, hd', he⟩
  · simp [hd, he]
  · simp [hd, hd', he]

-- The calls that end every case, and deliver the results.
def completion (tx : Tx site) : List (Action D site ρ) :=
  (List.range site.resolver.eventCount).map (fun i => .call tx (.finalize i)) ++ [.call tx .deliver]

-- The state on the way to a delivery, in which the first `k` cases are finalized.
structure Completing (tx : Tx site) (k : ℕ) (w : World D ε) : Prop where
  joint     : Joint site w
  active    : Active w
  now       : w.now ≤ tx.timestamp
  finalized : ∀ i < k, ∃ c, w.resolver.cases[i]? = some c ∧ c.phase = .finalized

theorem Completing.finalize {tx : Tx site} {k : ℕ} (h : Completing tx k w) (ha : site.resolver.Accepted)
    (hT : D.collateral.Confined) (hp : site.pool.Accepted D) (hk : k < site.resolver.eventCount)
    (he : ∀ (i : ℕ) (e : ℕ), site.resolver.observationEnds[i]? = some e →
      e + site.resolver.assertionPeriod + site.resolver.challengePeriod + site.resolver.votingPeriod ≤
        tx.timestamp) :
    Completing tx (k + 1) (Run.attempt (step V site) w (.call tx (.finalize k))) := by
  obtain ⟨c, hc⟩ : ∃ c, w.resolver.cases[k]? = some c :=
    ⟨_, List.getElem?_eq_getElem (h.joint.length ▸ hk)⟩
  obtain ⟨e, hend⟩ := h.joint.end_eq ha hc
  by_cases hpc : c.phase = .finalized
  case pos =>
    have herr : ∀ w', step V site w (.call tx (.finalize k)) ≠ .ok w' := by
      intro w' hs
      have := (finalized_step (step_eq_ok hT ha.bond_pos hs).left hc hpc).right
      simp [Action.concerns] at this
    have hsame : Run.attempt (step V site) w (.call tx (.finalize k)) = w :=
      Run.attempt_cases (I := (· = w)) rfl fun w' hs => absurd hs (herr w')
    rw [hsame]
    refine ⟨h.joint, h.active, h.now, fun i hi => ?_⟩
    rcases Nat.lt_succ_iff_lt_or_eq.mp hi with hi | rfl
    · exact h.finalized i hi
    · exact ⟨c, hc, hpc⟩
  case neg =>
    have hdue := (h.joint.timed k c e hc hend).due hpc (he k e hend)
    obtain ⟨w', hw⟩ := (h.joint.toOrderly.finalize_iff (V := V) ha).mpr
      ⟨h.now, h.active, c, e, hc, hend, hdue⟩
    rw [Run.attempt_ok hw]
    have hj := h.joint.step ha hT hp hw
    have ⟨hs, _⟩ := step_eq_ok hT ha.bond_pos hw
    have hkeep (i : ℕ) (hi : i < k) : ∃ c, w'.resolver.cases[i]? = some c ∧ c.phase = .finalized := by
      obtain ⟨c', hc', hp'⟩ := h.finalized i hi
      exact ⟨c', (finalized_step hs hc' hp').left, hp'⟩
    have hlen := h.joint.length
    cases hs
    case finalized hact hc₀ _ hd hf =>
      refine ⟨hj, ⟨?_, hact.funded, ?_⟩, le_rfl, fun i hi => ?_⟩
      · rw [hf.eq]; exact hact.bound
      · rw [hf.eq]; exact hact.undelivered
      · rcases Nat.lt_succ_iff_lt_or_eq.mp hi with hi | rfl
        · exact hkeep i hi
        · rw [hf.eq]
          exact ⟨_, List.getElem?_set_self (by omega), rfl⟩

theorem Completing.deliver {tx : Tx site} (h : Completing tx site.resolver.eventCount w)
    (ha : site.resolver.Accepted)
    (he : ∀ (i : ℕ) (e : ℕ), site.resolver.observationEnds[i]? = some e → e ≤ tx.timestamp) :
    ∃ w', step V site w (.call tx .deliver) = .ok w' ∧ w'.resolver.delivered = true := by
  have hm := h.joint.bound h.active.bound
  have hunres : w.pool.resolved = false := by
    by_contra hr
    have := h.joint.resolved hm (by simpa using hr)
    rw [h.active.undelivered] at this
    cases this
  have hclosed : site.pool.closesAt ≤ tx.timestamp := by
    have hlen := ha.length
    have hge := ha.events_ge
    have hend := List.getElem?_eq_getElem (by omega : 0 < site.resolver.observationEnds.length)
    have h₁ := (ha.ends _ _ hend).left
    have h₂ := he _ _ hend
    rw [hm.closesAt]
    omega
  obtain ⟨⟨y, v⟩, hmask⟩ := masks_ok h.finalized
  have hmasked := masks_eq_ok hmask
  obtain ⟨pw, hpw⟩ := Pools.PilotPool.resolve_ok
    ⟨site.resolver.self, tx.timestamp, site.ne, site.resolver_ne_0⟩
    (h.joint.live.unresolved hunres).solvent (hm.eventCount ▸ ha.events_le) hm.resolver.symm
    h.active.funded hunres hclosed hmasked.disjoint (hm.eventCount ▸ hmasked.yes_lt)
    (hm.eventCount ▸ hmasked.void_lt)
  refine ⟨{ w.at tx.timestamp with
    pool := pw.pool, resolver := { w.resolver with delivered := true } }, ?_, rfl⟩
  simp only [step, perform, Resolvers.deliver, bind_eq_ok, advance_eq_ok, Prod.exists]
  exact ⟨_, ⟨h.now, rfl⟩, (), requireActive_eq_ok.mpr ⟨h.active.bound, h.active.funded, h.active.undelivered⟩,
    y, v, hmask, pw, hpw, rfl⟩

-- From every reachable state whose pool is bound and funded, anybody can complete the resolution once
-- all periods are over: every case ends, the results are delivered, and all claims can be redeemed.
theorem resolution_completes (hT : D.collateral.Confined) (h : Deployed D V site.resolver ext)
    (hp : Pools.PilotPool.construct D chain self token events b closeTime order resolver rulesHash =
      .ok site.pool) (collateral : D.collateral.State) (actions : List (Action D site ρ)) (tx : Tx site)
    (w : World D ε) (hw : w = Run.run (step V site) (World.initial site collateral ext) actions)
    (hact : Active w) (hn : w.now ≤ tx.timestamp)
    (he : ∀ (i : ℕ) (e : ℕ), site.resolver.observationEnds[i]? = some e →
      e + site.resolver.assertionPeriod + site.resolver.challengePeriod + site.resolver.votingPeriod ≤
        tx.timestamp) :
    let w' := Run.run (step V site) w (completion tx)
    w'.resolver.delivered = true ∧ Settled site w' ∧
      Pools.PilotPool.Redeemable site.pool w'.poolWorld := by
  have hp := Pools.PilotPool.construct_accepted hp
  have ha := h.accepted
  have hj : Joint site w := hw ▸ run_joint hT ha hp collateral ext actions
  have hrun : ∀ k ≤ site.resolver.eventCount, Completing tx k
      (Run.run (step V site) w ((List.range k).map fun i => .call tx (.finalize i))) := by
    intro k hk
    induction k
    case zero      => exact ⟨hj, hact, hn, fun i hi => (by omega)⟩
    case succ k hi =>
      rw [List.range_succ, List.map_append, Run.run_append]
      exact (hi (by omega)).finalize ha hT hp hk he
  have hall := hrun _ le_rfl
  obtain ⟨w', hs, hd⟩ := hall.deliver (V := V) ha fun i e hi => (by have := he i e hi; omega)
  have hset := (hall.joint.step ha hT hp hs).delivered hd
  have heq : Run.run (step V site) w (completion tx) = w' := by
    rw [completion, Run.run_append, Run.run_cons, Run.attempt_ok hs, Run.run_nil]
  rw [heq]
  exact ⟨hd, hset, hset.redeemable hp⟩

theorem Testnet.pool_constructed : Pools.PilotPool.construct Dependencies.testnet Pools.Testnet.chain 1 2 2
    (10 ^ 18) 100 [0, 1] 9 5 = .ok Testnet.site.pool := by
  decide +kernel

theorem delivery_sound_testnet :
    let V := PilotResolver.variant Dependencies.testnet
    let w := World.initial Testnet.site Testnet.funds ()
    DeliverySound Testnet.site (Run.run (step V Testnet.site) w Testnet.actions)
      (Run.history (step V Testnet.site) w Testnet.actions) :=
  have hT : Dependencies.testnet.collateral.Confined := Token.standard_confined 18
  delivery_sound hT Testnet.deployed Testnet.pool_constructed Testnet.funds Testnet.actions

theorem resolution_completes_testnet :
    let V := PilotResolver.variant Dependencies.testnet
    let w := Run.run (step V Testnet.site) (World.initial Testnet.site Testnet.funds ()) Testnet.actions
    let w' := Run.run (step V Testnet.site) w (completion (Testnet.trader 20000))
    w'.pool.resolvedState = 2 ∧ Settled Testnet.site w' := by
  have hT : Dependencies.testnet.collateral.Confined := Token.standard_confined 18
  have hact : Active (Run.run (step (PilotResolver.variant Dependencies.testnet) Testnet.site)
      (World.initial Testnet.site Testnet.funds ()) Testnet.actions) :=
    ⟨by decide +kernel, by decide +kernel, by decide +kernel⟩
  have hn : (Run.run (step (PilotResolver.variant Dependencies.testnet) Testnet.site)
      (World.initial Testnet.site Testnet.funds ()) Testnet.actions).now ≤ 20000 := by decide +kernel
  have he : ∀ i e : ℕ, [200, 300][i]? = some e → e + 3600 + 3600 + 3600 ≤ 20000 := by
    intro i e hi
    have := List.mem_of_getElem? hi
    simp at this
    omega
  have hall := resolution_completes hT Testnet.deployed Testnet.pool_constructed Testnet.funds
    Testnet.actions (Testnet.trader 20000) _ rfl hact hn he
  exact ⟨by decide +kernel, hall.right.left⟩

end Delivery

end Resolvers
