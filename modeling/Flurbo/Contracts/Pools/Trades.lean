import Flurbo.Contracts.Pools.FundedFactoredPool
import Flurbo.Contracts.Pools.PilotPool

-- What the calls that all pools have in common do to the two ledgers of a pool.

open Evm Except FactoredPositions
open FactoredQuote (Quote Priced costOf)
open QuoteMath (CostBounds wadPerAtom)

namespace Pools

variable {D : Dependencies} {ε : Type}

-- What a constructor has checked, and the funding it has computed.
structure Config.Accepted (D : Dependencies) (cfg : Config) : Prop where
  initial : ∃ c, FactoredCost.bounds D.prb cfg.eventCount
              (cfg.liquidity * wadPerAtom cfg.collateralDecimals) [] cfg.order = .ok c ∧
              cfg.requiredFunding = c.upperWad ⌈/⌉ wadPerAtom cfg.collateralDecimals

-- The virtual functions of a pool price trades as the cost under its bias demands.
structure Virtuals.Sound (V : Virtuals D ε) (cfg : Config) (bias : ε → List Factor) : Prop where
  priced : ∀ {s scope mask quantity limit isBuy quote reserve},
             V.priceTrade s scope mask quantity limit isBuy = .ok (quote, reserve) →
             ∃ before after, Priced D.prb (market cfg s) (bias s.ext) scope mask quantity isBuy
               before after quote
  after  : ∀ {reserve s s'}, V.afterTrade reserve s = .ok s' →
             ∃ ext, s' = { s with ext } ∧ bias ext = bias s.ext

section Config

variable {cfg : Config} {chain : Chain} {self token resolver : Address}
  {events b closeTime rulesHash : ℕ} {order : List ℕ}

theorem Config.Accepted.events_le (h : cfg.Accepted D) : cfg.eventCount ≤ 32 := by
  have ⟨_, h, _⟩ := h.initial
  simp only [FactoredCost.bounds, bind_eq_ok] at h
  have ⟨_, hv, _⟩ := h
  exact (FactoredCost.validate_eq_ok.mp hv).left.events_le

theorem requiredFunding_eq_ok {r : ℕ}
    (h : requiredFunding D chain token events b closeTime order = .ok r) :
    ∃ c, FactoredCost.bounds D.prb events (b * wadPerAtom D.collateral.decimals) [] order = .ok c ∧
      r = c.upperWad ⌈/⌉ wadPerAtom D.collateral.decimals := by
  simp only [requiredFunding, bind_eq_ok, QuoteMath.toWad_eq_ok, QuoteMath.fromWadUp_eq_ok] at h
  obtain ⟨_, _, _, ⟨_, _, rfl⟩, c, hc, _, _, hr⟩ := h
  exact ⟨c, hc, hr.symm⟩

theorem FactoredPool.construct_accepted
    (h : construct D chain self token events b closeTime order resolver rulesHash = .ok cfg) :
    cfg.Accepted D := by
  simp only [construct, bind_eq_ok, pure_eq_ok, ok.injEq] at h
  obtain ⟨_, hr, _, _, rfl⟩ := h
  exact ⟨requiredFunding_eq_ok hr⟩

theorem FundedFactoredPool.construct_accepted {cfg : FundedConfig} {policy : UpdatePolicy}
    (h : construct D chain self token events b closeTime order resolver rulesHash policy = .ok cfg) :
    cfg.Accepted D := by
  simp only [construct, bind_eq_ok, pure_eq_ok, ok.injEq] at h
  obtain ⟨_, hc, _, _, rfl⟩ := h
  exact FactoredPool.construct_accepted hc

theorem PilotPool.construct_accepted
    (h : construct D chain self token events b closeTime order resolver rulesHash = .ok cfg) :
    cfg.Accepted D := by
  simp only [construct, bind_eq_ok, pure_eq_ok, ok.injEq] at h
  obtain ⟨_, hr, _, _, rfl⟩ := h
  exact ⟨requiredFunding_eq_ok hr⟩

end Config

section Virtuals

variable {cfg : Config}

theorem uniform_sound : (uniform cfg : Virtuals D ε).Sound cfg fun _ => [] where
  priced := by
    intro s scope mask quantity limit isBuy quote reserve h
    cases isBuy
    all_goals
      simp only [uniform, priceTrade, Bool.false_eq_true, if_false, if_true, bind_eq_ok, pure_eq_ok,
        ok.injEq, Prod.mk.injEq] at h
      obtain ⟨_, h, rfl, _⟩ := h
    · exact FactoredQuote.sell_eq_ok h
    · exact FactoredQuote.buy_eq_ok h
  after := by
    rintro reserve s s' h
    cases h
    exact ⟨s.ext, rfl, rfl⟩

namespace FundedFactoredPool

variable {cfg : FundedConfig} {s s' : Storage D Pricing} {scope mask quantity limit reserve : ℕ}
  {isBuy : Bool} {quote : Quote}

theorem priceTrade_eq_ok (h : priceTrade cfg s scope mask quantity limit isBuy = .ok (quote, reserve)) :
    FundedPricingEngine.quote D.prb (market cfg.toConfig s) s.ext.storedBias scope mask quantity isBuy =
      .ok (quote, reserve) := by
  simp only [priceTrade, bind_eq_ok, pure_eq_ok, ok.injEq, Prod.mk.injEq] at h
  obtain ⟨⟨_, _⟩, h, _, _, _, _, rfl, rfl⟩ := h
  exact h

theorem afterTrade_eq_ok (h : afterTrade reserve s = .ok s') :
    s' = { s with ext := { s.ext with pricingReserve := reserve, revision := s.ext.revision + 1 } } := by
  simp only [afterTrade, bind_eq_ok, checkedAdd_eq_ok, pure_eq_ok, ok.injEq] at h
  obtain ⟨_, ⟨_, rfl⟩, rfl⟩ := h
  rfl

theorem virtuals_sound : (virtuals cfg : Virtuals D Pricing).Sound cfg.toConfig (·.storedBias) where
  priced := by
    intro s scope mask quantity limit isBuy quote reserve h
    have ⟨before, after, h, _⟩ := FundedPricingEngine.quote_eq_ok (priceTrade_eq_ok h)
    exact ⟨before, after, h⟩
  after := by
    intro reserve s s' h
    exact ⟨_, afterTrade_eq_ok h, rfl⟩

end FundedFactoredPool

end Virtuals

section Trades

variable {V : Virtuals D ε} {cfg : Config} {bias : ε → List Factor} {w w' : World D ε}
  {msg : Msg cfg.self} {sender : Address} {scope mask quantity reserve : ℕ} {isBuy : Bool}
  {quote : Quote} {priced applied : Storage D ε} {before after : CostBounds}

-- The effect of a trade, in terms of the ledgers and the costs around it.
structure TradeEffect (cfg : Config) (bias : ε → List Factor) (sender : Address)
    (scope mask quantity : ℕ) (isBuy : Bool) (w w' : World D ε) (quote : Quote)
    (before after : CostBounds) : Prop where
  priced   : Priced D.prb (market cfg w.pool) (bias w.pool.ext) scope mask quantity isBuy before
               after quote
  stored   : w'.pool.storedFactors.Perm quote.factorsAfter
  maximum  : w'.pool.maximumLiability = quote.maxLiabilityAfter
  position : trade w.pool.positions sender scope mask quantity isBuy = .ok w'.pool.positions
  moved    : Moved isBuy quote.collateral (w.balance cfg.self) (w'.balance cfg.self)
  funded   : w.pool.funded ∧ w'.pool.funded
  resolved : w'.pool.resolved = w.pool.resolved
  bias     : bias w'.pool.ext = bias w.pool.ext

theorem Traded.effect (h : Traded V cfg msg scope mask quantity isBuy w w' quote reserve priced applied)
    (hV : V.Sound cfg bias) (ht : Tally cfg.eventCount w.pool.storedFactors w.pool.positions) :
    ∃ before after,
      TradeEffect cfg bias msg.sender scope mask quantity isBuy w w' quote before after := by
  obtain ⟨positions, rfl⟩ := h.priced_eq
  have ⟨limit, hp⟩ := h.priced_ok
  have ⟨before, after, hp⟩ := hV.priced hp
  have ⟨values, hu⟩ := FactoredQuote.updatedFactors_eq_ok hp.updated
  have ⟨hperm, hs⟩ := applyQuote_eq_ok h.applied_ok ht rfl hu
  have ⟨ext, hext, hbias⟩ := hV.after h.after_ok
  refine ⟨before, after, hp, ?_, ?_, ?_, h.moved, ⟨h.funded, ?_⟩, ?_, ?_⟩
  all_goals rw [hext]
  · exact hperm
  · rw [hs]
  · exact h.position
  · rw [hs]; exact h.funded
  · rw [hs]
  · dsimp only; rw [hbias, hs]

theorem TradeEffect.tally
    (h : TradeEffect cfg bias sender scope mask quantity isBuy w w' quote before after)
    (ht : Tally cfg.eventCount w.pool.storedFactors w.pool.positions) (he : cfg.eventCount ≤ 32) :
    Tally cfg.eventCount w'.pool.storedFactors w'.pool.positions := by
  have ⟨_, hu⟩ := FactoredQuote.updatedFactors_eq_ok h.priced.updated
  exact (ht.update hu h.position he).perm h.stored.symm

theorem baseClaim_scope_lt {eventIndex : ℕ} {outcome : Bool} {claim : Claim}
    (h : baseClaim cfg eventIndex outcome = .ok claim) (he : cfg.eventCount ≤ 32) :
    claim.scope < 2 ^ 32 := by
  have ⟨hlt, hc⟩ := baseClaim_eq_ok h
  rw [hc]
  exact Nat.pow_lt_pow_right (by decide) (hlt.trans_le he)

theorem Acted.tally (h : Acted V cfg msg w w') (hV : V.Sound cfg bias)
    (ht : Tally cfg.eventCount w.pool.storedFactors w.pool.positions) (he : cfg.eventCount ≤ 32) :
    Tally cfg.eventCount w'.pool.storedFactors w'.pool.positions := by
  cases h
  case fund hf         =>
    have ⟨_, hp, _⟩ := fundUnchecked_eq_ok hf
    rwa [hp]
  case trade htr       =>
    have ⟨_, _, heff⟩ := htr.effect hV ht
    exact heff.tally ht he
  case escrow hb hd hc => exact ht.escrow hd hc (baseClaim_scope_lt hb he)
  case receipts        => exact ht
  case collateral      => exact ht

theorem Acted.resolved (h : Acted V cfg msg w w') (hV : V.Sound cfg bias)
    (ht : Tally cfg.eventCount w.pool.storedFactors w.pool.positions) :
    w'.pool.resolved = w.pool.resolved := by
  cases h
  case fund hf   =>
    have ⟨_, hp, _⟩ := fundUnchecked_eq_ok hf
    rw [hp]
  case trade htr =>
    have ⟨_, _, heff⟩ := htr.effect hV ht
    exact heff.resolved
  case escrow     => rfl
  case receipts   => rfl
  case collateral => rfl

-- What is left to do once a pool has closed: claims move between owners, and receipts and
-- collateral change outside the pool.
structure Passive (cfg : Config) (w w' : World D ε) : Prop where
  balance : w.balance cfg.self ≤ w'.balance cfg.self
  frame   : ∃ positions baseTokens, w'.pool = { w.pool with positions, baseTokens }
  totals  : ∀ weight, Holdings.weigh Claim.all weight w'.pool.positions =
              Holdings.weigh Claim.all weight w.pool.positions

theorem Acted.passive (h : Acted V cfg msg w w') (hc : cfg.closesAt ≤ msg.timestamp)
    (he : cfg.eventCount ≤ 32) : Passive cfg w w' := by
  cases h
  case fund hf          => exact absurd (fundUnchecked_open hf) (not_lt.mpr hc)
  case trade ht         => exact absurd ht.isOpen (not_lt.mpr hc)
  case escrow hb hd hcr =>
    exact ⟨le_rfl, ⟨_, _, rfl⟩, fun _ => weigh_escrow hd hcr (baseClaim_scope_lt hb he)⟩
  case receipts         => exact ⟨le_rfl, ⟨_, _, rfl⟩, fun _ => rfl⟩
  case collateral hb    => exact ⟨hb, ⟨_, _, rfl⟩, fun _ => rfl⟩

end Trades

end Pools
