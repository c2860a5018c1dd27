import Flurbo.Contracts.FundedPricingEngine.Movement
import Flurbo.Contracts.Pools.BiasUpdate
import Flurbo.Contracts.Pools.FundedReserve

-- How much an updater can change over time.

open Evm Except
open FactoredCost (popcount)
open FundedPricingEngine (change Shaped Within)

namespace Pools.FundedFactoredPool

variable {D : Dependencies} {cfg : FundedConfig} {msg : Msg cfg.self} {w w' : World D Pricing}
  {proposal : Update} {call : Msg cfg.self × Call D} {calls : List (Msg cfg.self × Call D)}
  {added k : ℕ}

def Call.isUpdate : Call D → Bool
  | .updateBias _ => true
  | _             => false

def Call.isTrade : Call D → Bool
  | .base (.action (.buy ..))  => true
  | .base (.action (.sell ..)) => true
  | _                          => false

-- An accepted call with the states around it.
abbrev Accepted (D : Dependencies) (cfg : FundedConfig) :=
  World D Pricing × (Msg cfg.self × Call D) × World D Pricing

-- What the updater adds in the window of an epoch.
def fundedIn (cfg : FundedConfig) (epoch : ℕ) (accepted : List (Accepted D cfg)) : ℕ :=
  (accepted.map fun (w, (msg, call), w') =>
    if call.isUpdate ∧ epoch * cfg.policy.epochSeconds ≤ msg.timestamp ∧
        msg.timestamp < (epoch + 1) * cfg.policy.epochSeconds
      then w'.balance cfg.self - w.balance cfg.self else 0).sum

-- What calls other than updates leave as it is.
structure Unpaced (ext ext' : Pricing) : Prop where
  lastUpdateAt : ext'.lastUpdateAt = ext.lastUpdateAt
  updateCount  : ext'.updateCount = ext.updateCount
  epoch        : ext'.fundingEpoch = ext.fundingEpoch
  spent        : ext'.epochFundingSpent = ext.epochFundingSpent
  bias         : ext'.storedBias = ext.storedBias
  revision     : ext.revision ≤ ext'.revision

theorem Unpaced.refl (ext : Pricing) : Unpaced ext ext := ⟨rfl, rfl, rfl, rfl, rfl, le_rfl⟩

section Steps

theorem traded_ext {scope mask quantity reserve : ℕ} {isBuy : Bool} {quote : FactoredQuote.Quote}
    {priced applied : Storage D Pricing}
    (h : Traded (virtuals cfg) cfg.toConfig msg scope mask quantity isBuy w w' quote reserve priced
      applied) :
    w'.pool.ext = { w.pool.ext with pricingReserve := reserve, revision := w.pool.ext.revision + 1 } := by
  rw [afterTrade_eq_ok h.after_ok, applyQuote_ext h.applied_ok]

theorem acted_unpaced (h : Acted (virtuals cfg) cfg.toConfig msg w w') :
    Unpaced w.pool.ext w'.pool.ext := by
  cases h
  case fund hf    =>
    have ⟨_, hp, _⟩ := fundUnchecked_eq_ok hf
    rw [hp]
    exact .refl _
  case trade ht   =>
    rw [traded_ext ht]
    exact ⟨rfl, rfl, rfl, rfl, rfl, Nat.le_succ _⟩
  case escrow     => exact .refl _
  case receipts   => exact .refl _
  case collateral => exact .refl _

theorem base_unpaced {call : FactoredPool.Call D}
    (h : FactoredPool.step (virtuals cfg) cfg.toConfig w (msg, call) = .ok w') :
    Unpaced w.pool.ext w'.pool.ext := by
  cases call
  case action a                   => exact acted_unpaced (act_eq_ok h)
  case resolve terminalState      =>
    have ⟨_, hr⟩ := FactoredPool.resolve_eq_ok h
    rw [hr.eq]
    exact .refl _
  case redeem scope mask quantity =>
    obtain ⟨⟨_, _⟩, hr, rfl⟩ := map_eq_ok.mp h
    rw [(FactoredPool.redeem_eq_ok hr).left.frame]
    exact .refl _

-- An accepted call is an update, or leaves alone what updates are limited by.
theorem step_cases (h : step cfg w call = .ok w') :
    (call.2.isUpdate ∧ ∃ proposal added, BiasUpdated cfg call.1.timestamp added proposal w w') ∨
      (call.2.isUpdate = false ∧ Unpaced w.pool.ext w'.pool.ext) := by
  obtain ⟨msg, call | proposal⟩ := call
  · exact .inr ⟨rfl, base_unpaced h⟩
  · obtain ⟨⟨_, _⟩, hu, rfl⟩ := map_eq_ok.mp h
    exact .inl ⟨rfl, proposal, _, updateBias_eq_ok hu⟩

theorem step_revision (h : step cfg w call = .ok w') (hc : call.2.isTrade ∨ call.2.isUpdate) :
    w'.pool.ext.revision = w.pool.ext.revision + 1 := by
  obtain ⟨msg, (action | _ | _) | proposal⟩ := call
  case base.action =>
    cases action
    case buy  =>
      simp only [step, FactoredPool.step, act, buy, map_eq_ok, bind_eq_ok, pure_eq_ok, ok.injEq] at h
      obtain ⟨_, ⟨⟨_, _⟩, h, _, _, rfl⟩, rfl⟩ := h
      obtain ⟨_, _, _, _, _, h⟩ := buyUnchecked_eq_ok h
      rw [traded_ext h]
    case sell =>
      simp only [step, FactoredPool.step, act, sell, map_eq_ok, bind_eq_ok, pure_eq_ok, ok.injEq] at h
      obtain ⟨_, ⟨⟨_, _⟩, h, _, _, rfl⟩, rfl⟩ := h
      obtain ⟨_, _, _, _, _, h⟩ := sellUnchecked_eq_ok h
      rw [traded_ext h]
    all_goals simp [Call.isTrade, Call.isUpdate] at hc
  case updateBias  =>
    obtain ⟨⟨_, _⟩, hu, rfl⟩ := map_eq_ok.mp h
    rw [(updateBias_eq_ok hu).ext_eq]
  all_goals simp [Call.isTrade, Call.isUpdate] at hc

-- The tables of a bias that has a cost are complete.
theorem BiasUpdated.shaped (h : BiasUpdated cfg k added proposal w w') : Shaped proposal.bias := by
  have ⟨_, hc, _⟩ := FundedPricingEngine.reserve_eq_ok h.reserve
  have hv := FactoredQuote.costOf_valid (FundedPricingEngine.cost_eq_ok hc).right
  intro f hf
  have hw := hv.wellFormed _ (List.mem_map_of_mem (List.mem_append_right _ hf))
  exact ⟨hw.scope_lt_word hv.events_le, by simpa [Factor.scaleBy] using hw.length_eq⟩

end Steps

section Runs

-- What the limits of the next update rest on.
structure Paced (cfg : FundedConfig) (ext : Pricing) : Prop where
  spent  : ext.epochFundingSpent ≤ cfg.policy.epochFundingLimit
  fresh  : ext.updateCount = 0 → ext.epochFundingSpent = 0
  epoch  : ext.updateCount ≠ 0 → ext.fundingEpoch = ext.lastUpdateAt / cfg.policy.epochSeconds
  shaped : Shaped ext.storedBias

theorem Paced.initial : Paced cfg (initial cfg : Storage D Pricing).ext :=
  ⟨Nat.zero_le _, fun _ => rfl, fun h => absurd rfl h, List.forall_mem_nil _⟩

theorem Paced.step (h : Paced cfg w.pool.ext) (hs : step cfg w call = .ok w') :
    Paced cfg w'.pool.ext := by
  rcases step_cases hs with ⟨_, proposal, added, hu⟩ | ⟨_, hu⟩
  · rw [hu.ext_eq]
    exact ⟨hu.limit, fun h => absurd h (Nat.succ_ne_zero _), fun _ => rfl, hu.shaped⟩
  · exact ⟨hu.spent ▸ h.spent, hu.updateCount ▸ hu.spent ▸ h.fresh,
      hu.updateCount ▸ hu.epoch ▸ hu.lastUpdateAt ▸ h.epoch, hu.bias ▸ h.shaped⟩

theorem Paced.run (h : Paced cfg w.pool.ext) :
    Paced cfg (Run.run (FundedFactoredPool.step cfg) w calls).pool.ext :=
  Run.run_invariant (I := fun w : World D Pricing => Paced cfg w.pool.ext) h fun _ _ _ _ h hs => h.step hs

-- There has been an update at the given time or later.
structure Since (earliest : ℕ) (ext : Pricing) : Prop where
  updated : ext.updateCount ≠ 0
  le      : earliest ≤ ext.lastUpdateAt

theorem Since.step (h : Since k w.pool.ext) (hs : step cfg w call = .ok w') : Since k w'.pool.ext := by
  rcases step_cases hs with ⟨_, proposal, added, hu⟩ | ⟨_, hu⟩
  · have hle := h.le
    have hi := hu.interval h.updated
    rw [hu.ext_eq]
    exact ⟨Nat.succ_ne_zero _, by dsimp only; omega⟩
  · exact ⟨hu.updateCount ▸ h.updated, hu.lastUpdateAt ▸ h.le⟩

-- No update comes before an earlier one and its interval.
theorem updates_after (h : Since k w.pool.ext) :
    ∀ e ∈ Run.history (step cfg) w calls, e.2.1.2.isUpdate →
      k + cfg.policy.minUpdateInterval ≤ e.2.1.1.timestamp := by
  intro e he hu
  have ⟨h, _, hs⟩ := Run.mem_history he (I := fun w => Since k w.pool.ext) h fun _ _ _ _ h hs => h.step hs
  rcases step_cases hs with ⟨_, proposal, added, hb⟩ | ⟨hf, _⟩
  · exact (Nat.add_le_add_right h.le _).trans (hb.interval h.updated)
  · exact absurd hu (by simp [hf])

theorem BiasUpdated.since {timestamp : ℕ} (h : BiasUpdated cfg timestamp added proposal w w') :
    Since timestamp w'.pool.ext := by
  rw [h.ext_eq]
  exact ⟨Nat.succ_ne_zero _, le_rfl⟩

theorem updates_apart :
    (Run.history (step cfg) w calls).Pairwise fun first second =>
      first.2.1.2.isUpdate → second.2.1.2.isUpdate →
        first.2.1.1.timestamp + cfg.policy.minUpdateInterval ≤ second.2.1.1.timestamp := by
  induction calls generalizing w
  case nil             => exact .nil
  case cons call calls hi =>
    rw [Run.history]
    split
    case h_1 w' hs =>
      refine List.pairwise_cons.mpr ⟨fun e he hf hu => ?_, hi⟩
      rcases step_cases hs with ⟨_, proposal, added, hb⟩ | ⟨hn, _⟩
      · exact updates_after hb.since e he hu
      · exact absurd hf (by simp [hn])
    case h_2       => exact hi

theorem fundedIn_nil : fundedIn cfg k ([] : List (Accepted D cfg)) = 0 := rfl

theorem fundedIn_cons {e : Accepted D cfg} {accepted : List (Accepted D cfg)} :
    fundedIn cfg k (e :: accepted) = fundedIn cfg k [e] + fundedIn cfg k accepted := by
  simp [fundedIn]

theorem fundedIn_update {proposal : Update} (hc : call.2.isUpdate)
    (hu : BiasUpdated cfg call.1.timestamp added proposal w w') (hp : 0 < cfg.policy.epochSeconds) :
    fundedIn cfg k [(w, call, w')] = if call.1.timestamp / cfg.policy.epochSeconds = k then added else 0 := by
  have hk : call.1.timestamp / cfg.policy.epochSeconds = k ↔
      k * cfg.policy.epochSeconds ≤ call.1.timestamp ∧
        call.1.timestamp < (k + 1) * cfg.policy.epochSeconds := by
    rw [Nat.div_eq_iff hp, Nat.add_mul]
    omega
  have hb : w'.balance cfg.self - w.balance cfg.self = added := by rw [hu.balance]; omega
  simp [fundedIn, hc, hk, hb]

-- Nothing more is added in an epoch once there has been an update in a later one.
theorem fundedIn_past (h : Since ((k + 1) * cfg.policy.epochSeconds) w.pool.ext) :
    fundedIn cfg k (Run.history (step cfg) w calls) = 0 := by
  refine List.sum_eq_zero fun n hn => ?_
  obtain ⟨⟨v, ⟨msg, call⟩, v'⟩, he, rfl⟩ := List.mem_map.mp hn
  refine if_neg fun ⟨hu, _, hlt⟩ => ?_
  have := updates_after h _ he hu
  dsimp only at this
  omega

-- The counter of the current epoch counts towards the limit of that epoch.
theorem fundedIn_le (h : Paced cfg w.pool.ext) (hp : 0 < cfg.policy.epochSeconds) :
    fundedIn cfg k (Run.history (step cfg) w calls) +
      (if w.pool.ext.fundingEpoch = k then w.pool.ext.epochFundingSpent else 0) ≤
        cfg.policy.epochFundingLimit := by
  induction calls generalizing w
  case nil             =>
    rw [Run.history, fundedIn_nil]
    have := h.spent
    split <;> omega
  case cons call calls hi =>
    rw [Run.history]
    split
    case h_2       => exact hi h
    case h_1 w' hs =>
      have hi := hi (h.step hs)
      rw [fundedIn_cons]
      rcases step_cases hs with ⟨ht, proposal, added, hu⟩ | ⟨hf, hu⟩
      · rw [fundedIn_update ht hu hp]
        rw [hu.ext_eq] at hi
        dsimp only at hi
        by_cases he : call.1.timestamp / cfg.policy.epochSeconds = k
        · rw [if_pos he] at hi ⊢
          rw [spentIn, he] at hi
          split at hi
          case isTrue heq  => rw [if_pos heq.symm]; omega
          case isFalse hne => rw [if_neg (Ne.symm hne)]; omega
        · rw [if_neg he] at hi ⊢
          split
          case isFalse     => omega
          case isTrue heq  =>
            -- The counter is of an epoch that this update has left.
            by_cases hc : w.pool.ext.updateCount = 0
            · rw [h.fresh hc]; omega
            · have hk : k = w.pool.ext.lastUpdateAt / cfg.policy.epochSeconds := heq ▸ h.epoch hc
              have hle : k ≤ call.1.timestamp / cfg.policy.epochSeconds := by
                have hi := hu.interval hc
                rw [hk]
                exact Nat.div_le_div_right (show w.pool.ext.lastUpdateAt ≤ _ by omega)
              have hpast := (Nat.le_div_iff_mul_le hp).mp (show k + 1 ≤ call.1.timestamp / cfg.policy.epochSeconds by omega)
              rw [fundedIn_past ⟨hu.since.updated, hpast.trans hu.since.le⟩]
              have := h.spent
              omega
      · have hz : fundedIn cfg k [(w, call, w')] = 0 := by simp [fundedIn, hf]
        rw [hu.epoch, hu.spent] at hi
        omega

-- What has happened to the bias during an interval: a number of updates that fits into it.
structure Drifted (cfg : FundedConfig) (bias : List Factor) (start length : ℕ) (ext : Pricing) :
    Prop where
  shaped : Shaped ext.storedBias
  within : ∃ updates : ℕ, Within (change bias ext.storedBias) (updates * cfg.policy.maxBiasMovement) ∧
             (updates ≠ 0 → ext.lastUpdateAt ≤ start + length ∧
               Since (start + (updates - 1) * cfg.policy.minUpdateInterval) ext)

theorem change_self {bias : List Factor} : change bias bias = fun _ => 0 := by
  funext x
  exact Int.sub_self _

theorem change_trans {old mid new : List Factor} :
    change old new = fun x => change old mid x + change mid new x := by
  funext x
  simp only [change]
  omega

theorem Drifted.step {bias : List Factor} {start length : ℕ} (h : Drifted cfg bias start length w.pool.ext)
    (hs : step cfg w call = .ok w') (ht : start ≤ call.1.timestamp ∧ call.1.timestamp ≤ start + length) :
    Drifted cfg bias start length w'.pool.ext := by
  rcases step_cases hs with ⟨_, proposal, added, hu⟩ | ⟨_, hu⟩
  · have ⟨updates, hw, hk⟩ := h.within
    have ⟨m, hm, hmove⟩ := hu.movement
    have hb : w'.pool.ext.storedBias = proposal.bias := by rw [hu.ext_eq]
    have hl : w'.pool.ext.lastUpdateAt = call.1.timestamp := by rw [hu.ext_eq]
    refine ⟨hb ▸ hu.shaped, updates + 1, ?_, fun _ => ⟨hl ▸ ht.right, hu.since.updated, ?_⟩⟩
    · have hstep := (FundedPricingEngine.movement_within hmove h.shaped hu.shaped).mono (Int.ofNat_le.mpr hm)
      have := hw.add hstep
      rw [← change_trans, ← hb] at this
      rwa [Nat.cast_add, Nat.cast_one, Int.add_mul, Int.one_mul]
    · rw [hl, Nat.add_sub_cancel]
      by_cases hz : updates = 0
      · rw [hz]; omega
      · have ⟨_, hsince⟩ := hk hz
        have hi := hu.interval hsince.updated
        have hle := hsince.le
        have hsub : updates * cfg.policy.minUpdateInterval =
            (updates - 1) * cfg.policy.minUpdateInterval + cfg.policy.minUpdateInterval := by
          rw [← Nat.succ_mul, Nat.succ_eq_add_one, Nat.sub_add_cancel (Nat.pos_of_ne_zero hz)]
        omega
  · have ⟨updates, hw, hk⟩ := h.within
    refine ⟨hu.bias ▸ h.shaped, updates, hu.bias ▸ hw, fun hz => ?_⟩
    have ⟨hle, hs⟩ := hk hz
    exact ⟨hu.lastUpdateAt ▸ hle, hu.updateCount ▸ hs.updated, hu.lastUpdateAt ▸ hs.le⟩

theorem Drifted.within_le {bias : List Factor} {start length : ℕ} {ext : Pricing}
    (h : Drifted cfg bias start length ext) (hp : 0 < cfg.policy.minUpdateInterval) :
    Within (change bias ext.storedBias)
      ((length / cfg.policy.minUpdateInterval + 1) * cfg.policy.maxBiasMovement : ℕ) := by
  have ⟨updates, hw, hk⟩ := h.within
  refine hw.mono ?_
  rw [← Nat.cast_mul, Int.ofNat_le]
  refine Nat.mul_le_mul_right _ ?_
  by_cases hz : updates = 0
  · exact hz ▸ Nat.zero_le _
  · have ⟨hle, hs⟩ := hk hz
    have := hs.le
    have hfit : updates - 1 ≤ length / cfg.policy.minUpdateInterval :=
      (Nat.le_div_iff_mul_le hp).mpr (by omega)
    exact (Nat.sub_le_iff_le_add).mp hfit

-- What an accepted update policy limits, over a run from the given state.
structure RateLimited (cfg : FundedConfig) (w : World D Pricing) (calls : List (Msg cfg.self × Call D)) :
    Prop where
  funding  : ∀ epoch, fundedIn cfg epoch (Run.history (step cfg) w calls) ≤
               cfg.policy.epochFundingLimit
  interval : (Run.history (step cfg) w calls).Pairwise fun first second =>
               first.2.1.2.isUpdate → second.2.1.2.isUpdate →
                 first.2.1.1.timestamp + cfg.policy.minUpdateInterval ≤ second.2.1.1.timestamp
  movement : ∀ before during after start length, calls = before ++ during ++ after →
               (∀ call ∈ during, start ≤ call.1.timestamp ∧ call.1.timestamp ≤ start + length) →
               let w₁ := Run.run (step cfg) w before
               let w₂ := Run.run (step cfg) w₁ during
               ∀ x < 2 ^ cfg.eventCount, ∀ y < 2 ^ cfg.eventCount,
                 change w₁.pool.ext.storedBias w₂.pool.ext.storedBias x -
                     change w₁.pool.ext.storedBias w₂.pool.ext.storedBias y ≤
                   ((length / cfg.policy.minUpdateInterval + 1) * cfg.policy.maxBiasMovement : ℕ)
  revision : ∀ e ∈ Run.history (step cfg) w calls,
               e.1.pool.ext.revision ≤ e.2.2.pool.ext.revision ∧
                 (e.2.1.2.isTrade ∨ e.2.1.2.isUpdate →
                   e.1.pool.ext.revision < e.2.2.pool.ext.revision)
  frame    : ∀ e ∈ Run.history (step cfg) w calls, e.2.1.2.isUpdate →
               e.2.2.pool.positions = e.1.pool.positions ∧
                 e.2.2.pool.baseTokens = e.1.pool.baseTokens ∧
                 e.2.2.pool.storedFactors = e.1.pool.storedFactors ∧
                 e.2.2.pool.maximumLiability = e.1.pool.maximumLiability

theorem Paced.movement_le {during : List (Msg cfg.self × Call D)} {start length : ℕ}
    (h : Paced cfg w.pool.ext) (hp : 0 < cfg.policy.minUpdateInterval)
    (ht : ∀ call ∈ during, start ≤ call.1.timestamp ∧ call.1.timestamp ≤ start + length) :
    Within (change w.pool.ext.storedBias (Run.run (FundedFactoredPool.step cfg) w during).pool.ext.storedBias)
      ((length / cfg.policy.minUpdateInterval + 1) * cfg.policy.maxBiasMovement : ℕ) := by
  have hzero : Drifted cfg w.pool.ext.storedBias start length w.pool.ext :=
    ⟨h.shaped, 0, by rw [change_self]; simpa using Within.zero, fun h => absurd rfl h⟩
  have hrun : Drifted cfg w.pool.ext.storedBias start length
      (Run.run (FundedFactoredPool.step cfg) w during).pool.ext :=
    Run.run_invariant (I := fun v : World D Pricing => Drifted cfg w.pool.ext.storedBias start length v.pool.ext)
      hzero fun _ _ call hc hd hs => hd.step hs (ht call hc)
  exact hrun.within_le hp

theorem construct_policy {chain : Chain} {self token resolver : Address}
    {events b closeTime rulesHash : ℕ} {order : List ℕ} {policy : UpdatePolicy}
    (h : construct D chain self token events b closeTime order resolver rulesHash policy = .ok cfg) :
    0 < cfg.policy.epochSeconds ∧ 0 < cfg.policy.minUpdateInterval := by
  simp only [construct, bind_eq_ok, revertIf_eq_ok, pure_eq_ok, ok.injEq, not_or] at h
  obtain ⟨_, _, _, ⟨_, _, _, _, he, hi, _⟩, rfl⟩ := h
  exact ⟨Nat.pos_of_ne_zero he, Nat.pos_of_ne_zero hi⟩

-- Whatever is traded, donated and proposed in between.
theorem updates_limited {chain : Chain} {self token resolver : Address}
    {events b closeTime rulesHash : ℕ} {order : List ℕ} {policy : UpdatePolicy}
    (h : construct D chain self token events b closeTime order resolver rulesHash policy = .ok cfg)
    (collateral : D.collateral.State) (calls : List (Msg cfg.self × Call D)) :
    RateLimited cfg ⟨collateral, initial cfg⟩ calls := by
  have ⟨hepoch, hint⟩ := construct_policy h
  have hp : Paced cfg (⟨collateral, initial cfg⟩ : World D Pricing).pool.ext := Paced.initial
  have hhist {e : Accepted D cfg} (he : e ∈ Run.history (step cfg) ⟨collateral, initial cfg⟩ calls) :
      step cfg e.1 e.2.1 = .ok e.2.2 :=
    (Run.mem_history (I := fun _ => True) he trivial fun _ _ _ _ _ _ => trivial).right.right
  refine ⟨fun epoch => (Nat.le_add_right _ _).trans (fundedIn_le hp hepoch), updates_apart, ?_, ?_, ?_⟩
  case refine_1 =>
    intro before during after start length _ ht w₁ w₂ x _ y _
    exact (hp.run.movement_le hint ht).sub_le x y
  case refine_2 =>
    intro e he
    refine ⟨?_, fun hc => by rw [step_revision (hhist he) hc]; exact Nat.lt_succ_self _⟩
    rcases step_cases (hhist he) with ⟨_, _, _, hu⟩ | ⟨_, hu⟩
    · rw [hu.ext_eq]; exact Nat.le_succ _
    · exact hu.revision
  case refine_3 =>
    intro e he hu
    rcases step_cases (hhist he) with ⟨_, _, _, hu⟩ | ⟨hf, _⟩
    · rw [hu.pool_eq]; exact ⟨rfl, rfl, rfl, rfl⟩
    · exact absurd hu (by simp [hf])

end Runs

end Pools.FundedFactoredPool

open Pools Testnet FundedFactoredPool in
theorem Pools.FundedFactoredPool.updates_limited_testnet :
    let accepted := Run.history (step fundedConfig) ⟨funds, initial fundedConfig⟩ fundedCalls
    accepted.length = 5 ∧ fundedIn fundedConfig 0 accepted = 16666666666666666 ∧
      RateLimited fundedConfig ⟨funds, initial fundedConfig⟩ fundedCalls :=
  ⟨by decide +kernel, by decide +kernel, updates_limited construct_fundedConfig funds fundedCalls⟩
