import Flurbo.Contracts.Pools.BiasUpdate
import Flurbo.Contracts.Pools.Solvency

-- The pricing reserve of a pool whose prices are biased. The bias is priced like a liability, but
-- nothing is ever owed on it.

open Evm Except FactoredPositions
open FactoredQuote (costOf)
open FundedPricingEngine (minimumLiability)
open QuoteMath (CostBounds wadPerAtom)

namespace Pools.FundedFactoredPool

variable {D : Dependencies} {cfg : FundedConfig} {msg : Msg cfg.self} {w w' : World D Pricing}
  {proposal : Update} {added timestamp : ℕ}

-- The reserve that a cost requires under a bias.
def reserveAt (cfg : Config) (bias : List Factor) (c : CostBounds) : ℕ :=
  (c.upperWad - minimumLiability cfg.eventCount bias * wadPerAtom cfg.collateralDecimals) ⌈/⌉
    wadPerAtom cfg.collateralDecimals

structure Reserved (cfg : FundedConfig) (w : World D Pricing) : Prop where
  solvent    : Solvent cfg.toConfig (·.storedBias) w
  unresolved : w.pool.resolved = false
  reserve    : ∃ c, costOf D.prb (market cfg.toConfig w.pool)
                 (w.pool.storedFactors ++ w.pool.ext.storedBias) = .ok c ∧
                 w.pool.ext.pricingReserve = reserveAt cfg.toConfig w.pool.ext.storedBias c

namespace Reserved

theorem initial {token : D.collateral.State} (hc : cfg.Accepted D) :
    Reserved cfg ⟨token, FundedFactoredPool.initial cfg⟩ where
  solvent    := Solvent.initial hc rfl
  unresolved := rfl
  reserve := by
    have ⟨c, hcost, hr⟩ := hc.initial
    refine ⟨c, hcost, ?_⟩
    rw [FundedFactoredPool.initial, Storage.initial, reserveAt,
      FundedPricingEngine.minimumLiability_nil, Nat.zero_mul, Nat.sub_zero]
    exact hr

theorem of_eq (h : Reserved cfg w) (hs : Solvent cfg.toConfig (·.storedBias) w')
    (hr : w'.pool.resolved = false)
    (hf : w'.pool.storedFactors = w.pool.storedFactors) (he : w'.pool.ext = w.pool.ext) :
    Reserved cfg w' where
  solvent    := hs
  unresolved := hr
  reserve := by
    have ⟨c, hcost, hr⟩ := h.reserve
    exact ⟨c, by rw [hf, he]; exact hcost, by rw [he]; exact hr⟩

-- The reserve after a trade is the one that its quote came with.
theorem traded {scope mask quantity reserve : ℕ} {isBuy : Bool} {quote : FactoredQuote.Quote}
    {priced applied : Storage D Pricing} (hs : Solvent cfg.toConfig (·.storedBias) w')
    (hn : w'.pool.resolved = false)
    (ht : Traded (virtuals cfg) cfg.toConfig msg scope mask quantity isBuy w w' quote reserve priced
      applied)
    (htally : Tally cfg.eventCount w.pool.storedFactors w.pool.positions) : Reserved cfg w' := by
  have ⟨_, _, he⟩ := ht.effect virtuals_sound htally
  refine ⟨hs, hn, ?_⟩
  obtain ⟨_, rfl⟩ := ht.priced_eq
  have ⟨_, hp⟩ := ht.priced_ok
  have ⟨before, after, hp, hr⟩ := FundedPricingEngine.quote_eq_ok (priceTrade_eq_ok hp)
  have ⟨_, _, hr⟩ := FundedPricingEngine.reserveFromCost_eq_ok hr
  have hw : w'.pool.ext.pricingReserve = reserve := by rw [afterTrade_eq_ok ht.after_ok]
  refine ⟨after, ?_, ?_⟩
  · rw [he.bias]
    exact FactoredQuote.costOf_perm (he.stored.symm.append_right _) hp.after_eq
  · rw [hw, he.bias]
    exact hr

theorem acted (h : Reserved cfg w) (hc : cfg.Accepted D)
    (ha : Acted (virtuals cfg) cfg.toConfig msg w w') : Reserved cfg w' := by
  have hs := h.solvent.acted virtuals_sound hc ha
  have hn := (ha.resolved virtuals_sound h.solvent.tally).trans h.unresolved
  cases ha
  case fund hf    =>
    have ⟨_, hp, _⟩ := fundUnchecked_eq_ok hf
    exact h.of_eq hs hn (by rw [hp]) (by rw [hp])
  case trade ht   => exact traded hs hn ht h.solvent.tally
  case escrow     => exact h.of_eq hs hn rfl rfl
  case receipts   => exact h.of_eq hs hn rfl rfl
  case collateral => exact h.of_eq hs hn rfl rfl

-- Whatever bias an update proposes, the collateral that it adds makes up for the new reserve.
theorem updated (h : Reserved cfg w) (hu : BiasUpdated cfg timestamp added proposal w w') :
    Reserved cfg w' := by
  have ⟨c, hcost, hr⟩ := FundedPricingEngine.reserve_eq_ok hu.reserve
  have ⟨_, hcost⟩ := FundedPricingEngine.cost_eq_ok hcost
  have ⟨hle, hlt, hr⟩ := FundedPricingEngine.reserveFromCost_eq_ok hr
  have hs : 0 < wadPerAtom cfg.collateralDecimals := QuoteMath.wadPerAtom_pos
  have hb : w'.pool.ext.pricingReserve ≤ w'.balance cfg.self := by
    have ha := hu.added_eq
    rw [hu.balance]
    split at ha
    case isTrue  => rw [truncate_of_lt (by omega)] at ha; omega
    case isFalse => omega
  have hbias : w'.pool.ext.storedBias = proposal.bias := by rw [hu.ext_eq]
  have hstored : w'.pool.storedFactors = w.pool.storedFactors := by rw [hu.pool_eq]
  have hmarket : market cfg.toConfig w'.pool = market cfg.toConfig w.pool := by rw [market, hstored]; rfl
  have hcost' : costOf D.prb (market cfg.toConfig w'.pool)
      (w'.pool.storedFactors ++ w'.pool.ext.storedBias) = .ok c := by
    rw [hmarket, hstored, hbias]; exact hcost
  refine ⟨⟨?_, ?_, ?_, ?_, c, hcost', fun _ => ?_⟩, ?_, c, hcost', by rw [hbias]; exact hr⟩
  · rw [hu.pool_eq]; exact h.solvent.tally
  · rw [hu.pool_eq]; exact h.solvent.maximum_eq
  · rw [hu.pool_eq]; exact h.solvent.maximum_lt
  · intro hf
    rw [hu.pool_eq] at hf
    exact absurd hu.funded (by simpa using hf)
  · have hceil := Rounding.le_mul_ceilDiv hs (n := c.upperWad -
      minimumLiability cfg.eventCount proposal.bias * wadPerAtom cfg.collateralDecimals)
    have hbal := Nat.mul_le_mul_right (wadPerAtom cfg.collateralDecimals) (hr ▸ hb)
    rw [hbias, Nat.add_mul]
    rw [mul_comm (wadPerAtom _)] at hceil
    dsimp only [market] at hle hbal
    omega
  · rw [hu.pool_eq]; exact h.unresolved

theorem reserve_le (h : Reserved cfg w) :
    w.pool.maximumLiability ≤ w.pool.ext.pricingReserve ∧
      (w.pool.funded → w.pool.ext.pricingReserve ≤ w.balance cfg.self) := by
  have ⟨c, hcost, hr⟩ := h.reserve
  have ⟨c', hcost', hle⟩ := h.solvent.reserve_le
  cases hcost.symm.trans hcost'
  rw [hr]
  exact hle

theorem requiredCollateral_le (h : Reserved cfg w) (hf : w.pool.funded) :
    requiredCollateral w.pool ≤ w.balance cfg.self := by
  have ⟨hm, hb⟩ := h.reserve_le
  have hb := hb hf
  simp only [requiredCollateral, Pools.requiredCollateral, h.unresolved, Bool.false_eq_true, if_false]
  split <;> omega

theorem coversNext (h : Reserved cfg w) (hc : cfg.Accepted D) :
    CoversNext (virtuals cfg) cfg.toConfig w :=
  fun _ _ ha hf => (h.acted hc ha).requiredCollateral_le hf

theorem updateBias_eq (h : Reserved cfg w) :
    updateBias cfg msg proposal w = updateBiasUnchecked cfg msg proposal w := by
  refine bind_eq_self fun ⟨w', added⟩ hu => ?_
  have hu := updateBiasUnchecked_eq_ok hu
  have hf : w'.pool.funded := by rw [hu.pool_eq]; exact hu.funded
  have hcov : requireCovered (virtuals cfg) cfg.toConfig w' = .ok () :=
    requireCovered_eq_ok.mpr <| (h.updated hu).requiredCollateral_le hf
  simp only [hcov, ok_bind, pure_eq_ok]

end Reserved

theorem step_settled {call : Call D} (h : step cfg w (msg, call) = .ok w')
    (hs : Settled cfg.toConfig w) (he : cfg.eventCount ≤ 32) (hc : cfg.closesAt ≤ msg.timestamp) :
    Settled cfg.toConfig w' := by
  cases call
  case base call           => exact FactoredPool.step_settled h hs virtuals_sound he hc
  case updateBias proposal =>
    obtain ⟨⟨_, _⟩, hu, rfl⟩ := map_eq_ok.mp h
    exact absurd (updateBias_eq_ok hu).isOpen (not_lt.mpr hc)

-- What holds before resolution. The final checks of trades and updates could be dropped.
structure ReserveCovered (cfg : FundedConfig) (w : World D Pricing) : Prop where
  reserve    : ∃ c, costOf D.prb (market cfg.toConfig w.pool)
                 (w.pool.storedFactors ++ w.pool.ext.storedBias) = .ok c ∧
                 minimumLiability cfg.eventCount w.pool.ext.storedBias *
                   wadPerAtom cfg.collateralDecimals ≤ c.upperWad ∧
                 w.pool.ext.pricingReserve = reserveAt cfg.toConfig w.pool.ext.storedBias c
  maximum_le : w.pool.maximumLiability ≤ w.pool.ext.pricingReserve
  maximum_eq : w.pool.maximumLiability =
                 (Finset.range (2 ^ cfg.eventCount)).sup (owed w.pool.positions)
  balance    : w.pool.funded → w.pool.ext.pricingReserve ≤ w.balance cfg.self
  fund       : ∀ msg, fund (virtuals cfg) cfg.toConfig msg w = fundUnchecked cfg.toConfig msg w
  buy        : ∀ msg scope mask quantity maxCost deadline,
                 buy (virtuals cfg) cfg.toConfig msg scope mask quantity maxCost deadline w =
                   buyUnchecked (virtuals cfg) cfg.toConfig msg scope mask quantity maxCost deadline w
  sell       : ∀ msg scope mask quantity minProceeds deadline,
                 sell (virtuals cfg) cfg.toConfig msg scope mask quantity minProceeds deadline w =
                   sellUnchecked (virtuals cfg) cfg.toConfig msg scope mask quantity minProceeds
                     deadline w
  updateBias : ∀ msg proposal,
                 updateBias cfg msg proposal w = updateBiasUnchecked cfg msg proposal w

theorem Reserved.covered (h : Reserved cfg w) (hc : cfg.Accepted D) : ReserveCovered cfg w where
  reserve          :=
    have ⟨c, hcost, hr⟩ := h.reserve
    ⟨c, hcost, FundedPricingEngine.minimumLiability_le_upper hcost, hr⟩
  maximum_le       := h.reserve_le.left
  maximum_eq       := h.solvent.maximum_eq_owed hc
  balance          := h.reserve_le.right
  fund _           := (h.coversNext hc).fund_eq
  buy _ _ _ _ _ _  := ((h.coversNext hc).trade_eq virtuals_sound h.solvent.tally).left
  sell _ _ _ _ _ _ := ((h.coversNext hc).trade_eq virtuals_sound h.solvent.tally).right
  updateBias _ _   := h.updateBias_eq

-- In every run, the reserve is the conservative cost less the smallest bias, it covers the exact
-- liability, and it is covered by the collateral. After resolution the collateral covers what is
-- left to be paid to the holders of winning claims.
theorem funded_pool_reserve {chain : Chain} {self token resolver : Address}
    {events b closeTime rulesHash : ℕ} {order : List ℕ} {policy : UpdatePolicy}
    (h : construct D chain self token events b closeTime order resolver rulesHash policy = .ok cfg)
    (collateral : D.collateral.State) (calls : List (Msg cfg.self × Call D)) :
    let w := Run.run (step cfg) ⟨collateral, initial cfg⟩ calls
    w.pool.resolved = false →
      ReserveCovered cfg w ∧
      ∀ msg terminalState w', FactoredPool.resolve cfg.toConfig msg terminalState w = .ok w' →
        ∀ later : List (Msg cfg.self × Call D), (∀ call ∈ later, cfg.closesAt ≤ call.1.timestamp) →
          Settled cfg.toConfig (Run.run (step cfg) w' later) := by
  intro w hn
  have hc := construct_accepted h
  have hlive : Live cfg.toConfig (Reserved cfg) w := Run.run_invariant
    (Live.initial (Reserved.initial hc)) fun _ _ _ _ hw hs =>
      step_live hs hw hc.events_le (fun ha h => h.acted hc ha) (fun hu h => h.updated hu)
  have hres := hlive.unresolved hn
  refine ⟨hres.covered hc, fun msg terminalState w' hr later hl => ?_⟩
  have ⟨hx, hr⟩ := FactoredPool.resolve_eq_ok hr
  refine Run.run_invariant (hr.settled hres.solvent.tally hc.events_le ?_) fun w w' call hcall hs hstep =>
    step_settled hstep hs hc.events_le (hl call hcall)
  exact (FactoredCost.le_maximumLiability hx).trans
    (hres.solvent.maximum_eq ▸ hres.solvent.maximum_le_balance hr.funded)

end Pools.FundedFactoredPool

namespace Pools.Testnet

open FundedFactoredPool

-- The deployment with an update policy.

def policy : UpdatePolicy := ⟨7, 10 ^ 17, 10 ^ 18, 50, 10⟩

def fundedConfig : FundedConfig := { config with policy, chainId := 10143 }

theorem construct_fundedConfig : construct Dependencies.testnet chain 1 2 2 (10 ^ 18) 100 [0, 1] 9 5
    policy = .ok fundedConfig := by decide +kernel

def later : Msg fundedConfig.self := ⟨7, 15, trader.ne_target, trader.ne_zero⟩

def update (revision : ℕ) (bias : List Factor) : Update := ⟨10143, 1, revision, 60, 10 ^ 18, bias⟩

def fundedCalls : List (Msg fundedConfig.self × Call Dependencies.testnet) :=
  [(trader, .base (.action .fund)), (trader, .updateBias (update 0 [⟨1, [0, 5 * 10 ^ 16]⟩])),
    (trader, .base (.action (.buy 3 2 (10 ^ 15) (10 ^ 15) 50))),
    (later, .updateBias (update 2 [⟨1, [0, 10 ^ 16]⟩, ⟨2, [10 ^ 16, 0]⟩])),
    (later, .base (.action (.sell 3 2 (10 ^ 14) 0 50)))]

end Pools.Testnet

open Pools Testnet FundedFactoredPool in
theorem Pools.FundedFactoredPool.funded_pool_reserve_testnet :
    let w := Run.run (step fundedConfig) ⟨funds, initial fundedConfig⟩ fundedCalls
    w.pool.ext.revision = 4 ∧ w.pool.maximumLiability = 9 * 10 ^ 14 ∧
      w.pool.ext.pricingReserve = 1406227460089368819 ∧ ReserveCovered fundedConfig w :=
  ⟨by decide +kernel, by decide +kernel, by decide +kernel,
    (funded_pool_reserve construct_fundedConfig funds fundedCalls (by decide +kernel)).left⟩
