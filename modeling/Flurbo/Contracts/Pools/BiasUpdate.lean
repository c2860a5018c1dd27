import Flurbo.Contracts.Pools.Settlement

-- What an accepted update of the bias has checked, and what it changes.

open Evm Except

namespace Pools.FundedFactoredPool

variable {D : Dependencies} {cfg : FundedConfig} {msg : Msg cfg.self} {proposal : Update}
  {w w' : World D Pricing} {added timestamp : ℕ}

-- What the updater has added in the epoch of the timestamp. The counter is reset lazily.
def spentIn (cfg : FundedConfig) (ext : Pricing) (timestamp : ℕ) : ℕ :=
  if timestamp / cfg.policy.epochSeconds = ext.fundingEpoch then ext.epochFundingSpent else 0

structure BiasUpdated (cfg : FundedConfig) (timestamp added : ℕ) (proposal : Update)
    (w w' : World D Pricing) : Prop where
  funded   : w.pool.funded
  isOpen   : timestamp < cfg.closesAt
  interval : w.pool.ext.updateCount ≠ 0 →
               w.pool.ext.lastUpdateAt + cfg.policy.minUpdateInterval ≤ timestamp
  reserve  : FundedPricingEngine.reserve D.prb (market cfg.toConfig w.pool) proposal.bias =
               .ok w'.pool.ext.pricingReserve
  movement : ∃ movement, movement ≤ cfg.policy.maxBiasMovement ∧
               FundedPricingEngine.movement w.pool.ext.storedBias proposal.bias = .ok movement
  added_eq : added = if w'.pool.ext.pricingReserve > w.balance cfg.self then
               truncate 128 (w'.pool.ext.pricingReserve - w.balance cfg.self) else 0
  limit    : spentIn cfg w.pool.ext timestamp + added ≤ cfg.policy.epochFundingLimit
  balance  : w'.balance cfg.self = w.balance cfg.self + added
  pool_eq  : w'.pool = { w.pool with ext := w'.pool.ext }
  ext_eq   : w'.pool.ext =
               { revision          := w.pool.ext.revision + 1
                 lastUpdateAt      := timestamp
                 updateCount       := w.pool.ext.updateCount + 1
                 fundingEpoch      := timestamp / cfg.policy.epochSeconds
                 epochFundingSpent := spentIn cfg w.pool.ext timestamp + added
                 pricingReserve    := w'.pool.ext.pricingReserve
                 storedBias        := proposal.bias }

theorem requireInterval_eq_ok {ext : Pricing} {u : Unit}
    (h : requireInterval cfg ext timestamp = .ok u) :
    ext.updateCount ≠ 0 → ext.lastUpdateAt + cfg.policy.minUpdateInterval ≤ timestamp := by
  intro hc
  rw [requireInterval, if_pos hc] at h
  simp only [bind_eq_ok, checkedAdd_eq_ok, revertIf_eq_ok, not_lt] at h
  obtain ⟨_, ⟨_, rfl⟩, h⟩ := h
  exact h

theorem updateBiasUnchecked_eq_ok (h : updateBiasUnchecked cfg msg proposal w = .ok (w', added)) :
    BiasUpdated cfg msg.timestamp added proposal w w' := by
  simp only [updateBiasUnchecked, requireOpen, assess, bind_eq_ok, revertIf_eq_ok, pure_eq_ok, ok.injEq,
    checkedDiv_eq_ok, checkedAdd_eq_ok, not_or, not_not, not_le, not_lt, Prod.mk.injEq, Prod.exists] at h
  obtain ⟨_, _, _, ⟨_, hf, ho⟩, _, _, _, _, _, _, _, _, _, hi, reserve, added, ⟨_, hr, movement, hm, _, hle,
    rfl, rfl⟩, _, ⟨_, rfl⟩, _, hlim, _, ⟨_, rfl⟩, _, ⟨_, rfl⟩, _, ⟨_, rfl⟩, token, ht, rfl, rfl⟩ := h
  exact ⟨hf, ho, requireInterval_eq_ok hi, hr, ⟨movement, hle, hm⟩, rfl, hlim.right,
    transferNonzero_in ht, rfl, rfl⟩

theorem updateBias_eq_ok (h : updateBias cfg msg proposal w = .ok (w', added)) :
    BiasUpdated cfg msg.timestamp added proposal w w' := by
  simp only [updateBias, bind_eq_ok, pure_eq_ok, ok.injEq, Prod.mk.injEq, Prod.exists] at h
  obtain ⟨_, _, h, _, _, rfl, rfl⟩ := h
  exact updateBiasUnchecked_eq_ok h

theorem step_live {P : World D Pricing → Prop} {call : Call D} (hs : step cfg w (msg, call) = .ok w')
    (h : Live cfg.toConfig P w) (he : cfg.eventCount ≤ 32)
    (hP : ∀ {w w'}, Acted (virtuals cfg) cfg.toConfig msg w w' → P w → P w')
    (hU : ∀ {w w' proposal added}, BiasUpdated cfg msg.timestamp added proposal w w' → P w → P w') :
    Live cfg.toConfig P w' := by
  cases call
  case base call           => exact FactoredPool.step_live hs h virtuals_sound he hP
  case updateBias proposal =>
    obtain ⟨⟨_, _⟩, hu, rfl⟩ := map_eq_ok.mp hs
    have hu := updateBias_eq_ok hu
    refine ⟨by rw [hu.pool_eq]; exact h.tally, fun hn => hU hu (h.unresolved ?_)⟩
    rw [hu.pool_eq] at hn
    exact hn

end Pools.FundedFactoredPool
