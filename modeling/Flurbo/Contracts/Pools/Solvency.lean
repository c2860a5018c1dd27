import Flurbo.Contracts.Pools.Trades

-- Before resolution a funded pool has the collateral for the upper end of its cost, less what is
-- due to the bias alone. This is more than the pools check, and it is what every trade preserves.

open Evm Except FactoredPositions
open FactoredCost (maximumLiability)
open FactoredQuote (Quote Priced costOf)
open FundedPricingEngine (minimumLiability)
open QuoteMath (CostBounds wadPerAtom)

namespace Pools

variable {D : Dependencies} {ε : Type}

structure Solvent (cfg : Config) (bias : ε → List Factor) (w : World D ε) : Prop where
  tally      : Tally cfg.eventCount w.pool.storedFactors w.pool.positions
  maximum_eq : w.pool.maximumLiability = maximumLiability cfg.eventCount w.pool.storedFactors
  maximum_lt : w.pool.maximumLiability < 2 ^ 128
  unfunded   : w.pool.funded = false → w.pool.storedFactors = [] ∧ bias w.pool.ext = []
  cost       : ∃ c, costOf D.prb (market cfg w.pool)
                 (w.pool.storedFactors ++ bias w.pool.ext) = .ok c ∧
                 (w.pool.funded → c.upperWad ≤
                   (w.balance cfg.self + minimumLiability cfg.eventCount (bias w.pool.ext)) *
                     wadPerAtom cfg.collateralDecimals)

namespace Solvent

variable {V : Virtuals D ε} {cfg : Config} {bias : ε → List Factor} {w w' : World D ε}
  {msg : Msg cfg.self} {sender : Address} {scope mask quantity reserve : ℕ} {isBuy : Bool}
  {quote : Quote} {before after : CostBounds}

theorem initial {token : D.collateral.State} {ext : ε} (hc : cfg.Accepted D) (hb : bias ext = []) :
    Solvent cfg bias ⟨token, Storage.initial ext⟩ where
  tally      := Tally.empty
  maximum_eq := FactoredCost.maximumLiability_nil.symm
  maximum_lt := by simp [Storage.initial]
  unfunded _ := ⟨rfl, hb⟩
  cost := by
    have ⟨c, hc, _⟩ := hc.initial
    exact ⟨c, by simpa [Storage.initial, hb, costOf, market] using hc, by simp [Storage.initial]⟩

theorem traded (h : Solvent cfg bias w) (hc : cfg.Accepted D)
    (ht : TradeEffect cfg bias sender scope mask quantity isBuy w w' quote before after) :
    Solvent cfg bias w' := by
  have ⟨c, hcost, hcov⟩ := h.cost
  cases hcost.symm.trans ht.priced.before_eq
  constructor
  case tally      => exact ht.tally h.tally hc.events_le
  case maximum_eq =>
    rw [ht.maximum, ht.priced.maximum_eq]
    exact FactoredCost.maximumLiability_perm ht.stored.symm
  case maximum_lt => exact ht.maximum ▸ ht.priced.maximum_lt
  case unfunded   => exact fun hf => absurd ht.funded.right (by simp [hf])
  case cost       =>
    rw [ht.bias]
    refine ⟨after, FactoredQuote.costOf_perm (ht.stored.symm.append_right _) ht.priced.after_eq, fun _ => ?_⟩
    exact ht.priced.charged.covers QuoteMath.wadPerAtom_pos
      (FactoredQuote.costOf_lower_le_upper ht.priced.before_eq) ht.moved (hcov ht.funded.left)

theorem funded (h : Solvent cfg bias w) (hc : cfg.Accepted D)
    (hf : fundUnchecked cfg msg w = .ok w') : Solvent cfg bias w' := by
  have ⟨hn, hp, hb⟩ := fundUnchecked_eq_ok hf
  have ⟨hs, hbias⟩ := h.unfunded hn
  have ⟨c, hcost, _⟩ := h.cost
  have ⟨c₀, h₀, hr⟩ := hc.initial
  have hc₀ : costOf D.prb (market cfg w.pool) (w.pool.storedFactors ++ bias w.pool.ext) = .ok c₀ := by
    simpa [hs, hbias, costOf, market] using h₀
  constructor
  case tally      => rw [hp]; exact h.tally
  case maximum_eq => rw [hp]; exact h.maximum_eq
  case maximum_lt => rw [hp]; exact h.maximum_lt
  case unfunded   => rw [hp]; simp
  case cost       =>
    rw [hp]
    refine ⟨c₀, hc₀, fun _ => ?_⟩
    have hs : 0 < wadPerAtom cfg.collateralDecimals := QuoteMath.wadPerAtom_pos
    have := Rounding.le_mul_ceilDiv (n := c₀.upperWad) hs
    rw [hb, hr]
    simp only [Nat.add_mul]
    rw [mul_comm] at this
    omega

-- Changes that concern neither the tables nor the collateral of the pool.
theorem of_eq (h : Solvent cfg bias w) (ht : Tally cfg.eventCount w'.pool.storedFactors w'.pool.positions)
    (hs : w'.pool.storedFactors = w.pool.storedFactors)
    (hm : w'.pool.maximumLiability = w.pool.maximumLiability)
    (hf : w'.pool.funded = w.pool.funded) (he : w'.pool.ext = w.pool.ext)
    (hb : w.balance cfg.self ≤ w'.balance cfg.self) : Solvent cfg bias w' where
  tally      := ht
  maximum_eq := by rw [hm, hs, h.maximum_eq]
  maximum_lt := hm ▸ h.maximum_lt
  unfunded   := by rw [hs, hf, he]; exact h.unfunded
  cost := by
    have ⟨c, hc, hcov⟩ := h.cost
    rw [hs, hf, he]
    refine ⟨c, hc, fun hf => (hcov hf).trans ?_⟩
    exact Nat.mul_le_mul_right _ (by omega)

theorem acted (h : Solvent cfg bias w) (hV : V.Sound cfg bias) (hc : cfg.Accepted D)
    (ha : Acted V cfg msg w w') : Solvent cfg bias w' := by
  have ht := ha.tally hV h.tally hc.events_le
  cases ha
  case fund hf         => exact h.funded hc hf
  case trade htr       =>
    have ⟨_, _, he⟩ := htr.effect hV h.tally
    exact h.traded hc he
  case escrow          => exact h.of_eq ht rfl rfl rfl rfl le_rfl
  case receipts        => exact h.of_eq ht rfl rfl rfl rfl le_rfl
  case collateral hb   => exact h.of_eq ht rfl rfl rfl rfl hb

-- The conservative cost without the smallest bias, rounded up to whole atoms, lies between the
-- exact liability and the balance.
theorem reserve_le (h : Solvent cfg bias w) :
    ∃ c, costOf D.prb (market cfg w.pool) (w.pool.storedFactors ++ bias w.pool.ext) = .ok c ∧
      let reserve := (c.upperWad - minimumLiability cfg.eventCount (bias w.pool.ext) *
        wadPerAtom cfg.collateralDecimals) ⌈/⌉ wadPerAtom cfg.collateralDecimals
      w.pool.maximumLiability ≤ reserve ∧ (w.pool.funded → reserve ≤ w.balance cfg.self) := by
  have ⟨c, hcost, hcov⟩ := h.cost
  have hs : 0 < wadPerAtom cfg.collateralDecimals := QuoteMath.wadPerAtom_pos
  refine ⟨c, hcost, ?_, fun hf => ?_⟩
  · have hle := FundedPricingEngine.maximumLiability_append_ge cfg.eventCount w.pool.storedFactors
      (bias w.pool.ext)
    have hup := (Nat.mul_le_mul_right _ hle).trans (FactoredQuote.costOf_upper_ge hcost)
    have hceil := Rounding.le_mul_ceilDiv hs (n := c.upperWad -
      minimumLiability cfg.eventCount (bias w.pool.ext) * wadPerAtom cfg.collateralDecimals)
    rw [h.maximum_eq]
    apply Nat.le_of_mul_le_mul_left _ hs
    apply le_trans _ hceil
    rw [Nat.add_mul] at hup
    rw [mul_comm]
    exact Nat.le_sub_of_add_le hup
  · have := hcov hf
    rw [Nat.add_mul] at this
    rw [Rounding.ceilDiv_le_iff hs, mul_comm (wadPerAtom _) (w.balance _)]
    omega

theorem maximum_le_balance (h : Solvent cfg bias w) (hf : w.pool.funded) :
    w.pool.maximumLiability ≤ w.balance cfg.self :=
  have ⟨_, _, h₁, h₂⟩ := h.reserve_le
  h₁.trans (h₂ hf)

theorem maximum_eq_owed (h : Solvent cfg bias w) (hc : cfg.Accepted D) :
    w.pool.maximumLiability = (Finset.range (2 ^ cfg.eventCount)).sup (owed w.pool.positions) := by
  rw [h.maximum_eq, maximumLiability, h.tally.liability_eq_owed hc.events_le]

end Solvent

section Checks

-- The final checks of the calls never fail if the virtual requirement is always covered.

variable {V : Virtuals D ε} {cfg : Config} {bias : ε → List Factor} {w w' : World D ε}
  {msg : Msg cfg.self} {scope mask quantity limit deadline : ℕ}

def CoversNext (V : Virtuals D ε) (cfg : Config) (w : World D ε) : Prop :=
  ∀ msg w', Acted V cfg msg w w' → w'.pool.funded →
    V.requiredCollateral w'.pool ≤ w'.balance cfg.self

theorem CoversNext.fund_eq (h : CoversNext V cfg w) :
    fund V cfg msg w = fundUnchecked cfg msg w := by
  refine bind_eq_self fun w' hf => ?_
  have ⟨_, hp, _⟩ := fundUnchecked_eq_ok hf
  have hcov : requireCovered V cfg w' = .ok () :=
    requireCovered_eq_ok.mpr <| h msg w' (.fund hf) (by rw [hp])
  simp only [hcov, ok_bind, pure_eq_ok]

theorem CoversNext.trade_eq (h : CoversNext V cfg w) (hV : V.Sound cfg bias)
    (ht : Tally cfg.eventCount w.pool.storedFactors w.pool.positions) :
    buy V cfg msg scope mask quantity limit deadline w =
      buyUnchecked V cfg msg scope mask quantity limit deadline w ∧
    sell V cfg msg scope mask quantity limit deadline w =
      sellUnchecked V cfg msg scope mask quantity limit deadline w := by
  have hcov {quote reserve priced applied isBuy w'}
      (htr : Traded V cfg msg scope mask quantity isBuy w w' quote reserve priced applied) :
      requireCovered V cfg w' = .ok () := by
    have ⟨_, _, he⟩ := htr.effect hV ht
    exact requireCovered_eq_ok.mpr <| h msg w' (.trade htr) he.funded.right
  constructor
  · refine bind_eq_self fun ⟨w', _⟩ ht => ?_
    have ⟨_, _, _, _, _, ht⟩ := buyUnchecked_eq_ok ht
    simp only [hcov ht, ok_bind, pure_eq_ok]
  · refine bind_eq_self fun ⟨w', _⟩ ht => ?_
    have ⟨_, _, _, _, _, ht⟩ := sellUnchecked_eq_ok ht
    simp only [hcov ht, ok_bind, pure_eq_ok]

end Checks

section Uniform

variable {cfg : Config} {w w' : World D ε} {msg : Msg cfg.self}

-- What holds of the uniform pools in every state before resolution. Their final checks could be
-- dropped.
structure Covered (cfg : Config) (w : World D ε) : Prop where
  balance : ∃ c, costOf D.prb (market cfg w.pool) w.pool.storedFactors = .ok c ∧
              w.pool.maximumLiability ≤ c.upperWad ⌈/⌉ wadPerAtom cfg.collateralDecimals ∧
              (w.pool.funded →
                c.upperWad ⌈/⌉ wadPerAtom cfg.collateralDecimals ≤ w.balance cfg.self)
  maximum : w.pool.maximumLiability =
              (Finset.range (2 ^ cfg.eventCount)).sup (owed w.pool.positions)
  fund    : ∀ msg, fund (uniform cfg) cfg msg w = fundUnchecked cfg msg w
  buy     : ∀ msg scope mask quantity maxCost deadline,
              buy (uniform cfg) cfg msg scope mask quantity maxCost deadline w =
                buyUnchecked (uniform cfg) cfg msg scope mask quantity maxCost deadline w
  sell    : ∀ msg scope mask quantity minProceeds deadline,
              sell (uniform cfg) cfg msg scope mask quantity minProceeds deadline w =
                sellUnchecked (uniform cfg) cfg msg scope mask quantity minProceeds deadline w

-- The part of a run before resolution.
structure Open (cfg : Config) (w : World D ε) : Prop where
  solvent    : Solvent cfg (fun _ => []) w
  unresolved : w.pool.resolved = false

theorem Open.requiredCollateral_le (h : Solvent cfg (fun _ => []) w) (hf : w.pool.funded)
    (hr : w.pool.resolved = false) :
    (uniform cfg).requiredCollateral w.pool ≤ w.balance cfg.self := by
  simpa [uniform, requiredCollateral, hr] using h.maximum_le_balance hf

theorem Open.acted (h : Open cfg w) (hc : cfg.Accepted D) (ha : Acted (uniform cfg) cfg msg w w') :
    Open cfg w' :=
  ⟨h.solvent.acted uniform_sound hc ha,
    (ha.resolved uniform_sound h.solvent.tally).trans h.unresolved⟩

theorem Open.coversNext (h : Open cfg w) (hc : cfg.Accepted D) : CoversNext (uniform cfg) cfg w := by
  intro msg w' ha hf
  have h := h.acted hc ha
  exact Open.requiredCollateral_le h.solvent hf h.unresolved

theorem Open.covered (h : Open cfg w) (hc : cfg.Accepted D) : Covered cfg w where
  balance := by
    have ⟨c, hcost, hm, hb⟩ := h.solvent.reserve_le
    exact ⟨c, by simpa using hcost, by simpa [FundedPricingEngine.minimumLiability_nil] using hm,
      by simpa [FundedPricingEngine.minimumLiability_nil] using hb⟩
  maximum := h.solvent.maximum_eq_owed hc
  fund _           := (h.coversNext hc).fund_eq
  buy _ _ _ _ _ _  := ((h.coversNext hc).trade_eq uniform_sound h.solvent.tally).left
  sell _ _ _ _ _ _ := ((h.coversNext hc).trade_eq uniform_sound h.solvent.tally).right

theorem Open.initial {token : D.collateral.State} {ext : ε} (hc : cfg.Accepted D) :
    Open cfg ⟨token, Storage.initial ext⟩ :=
  ⟨Solvent.initial hc rfl, rfl⟩

theorem Open.act {a : Action D} (h : Open cfg w) (hc : cfg.Accepted D)
    (ha : act (uniform cfg) cfg msg w a = .ok w') : Open cfg w' :=
  h.acted hc (act_eq_ok ha)

end Uniform

-- In every run of the uniform pools before resolution, the collateral covers the conservative cost,
-- the cost covers the exact liability, and the liability is the most that any outcome pays.
theorem uniform_pools_covered {chain : Chain} {self token resolver : Address}
    {events b closeTime rulesHash : ℕ} {order : List ℕ} {cfg : Config} :
    (FactoredPool.construct D chain self token events b closeTime order resolver rulesHash = .ok cfg →
      ∀ (collateral : D.collateral.State) (calls : List (Msg cfg.self × Action D)),
        Covered cfg (Run.run (FactoredPool.step (uniform cfg) cfg)
          ⟨collateral, Storage.initial ()⟩ (calls.map fun (msg, a) => (msg, .action a)))) ∧
    (PilotPool.construct D chain self token events b closeTime order resolver rulesHash = .ok cfg →
      ∀ (collateral : D.collateral.State) (calls : List (Msg cfg.self × Action D)),
        Covered cfg (Run.run (PilotPool.step cfg)
          ⟨collateral, PilotPool.initial⟩ (calls.map fun (msg, a) => (msg, .action a)))) := by
  constructor
  all_goals
    intro h collateral calls
    have hc : cfg.Accepted D := by
      first | exact FactoredPool.construct_accepted h | exact PilotPool.construct_accepted h
    refine Open.covered (Run.run_invariant (Open.initial hc) fun w w' call hcall hw hs => ?_) hc
    have ⟨_, _, hcall⟩ := List.mem_map.mp hcall
    subst hcall
    exact hw.act hc hs

namespace Testnet

-- A deployment to evaluate the pools on.

def chain : Chain := ⟨10143, 0, fun _ => true⟩

def config : Config := ⟨1, 2, 18, 2, 10 ^ 18, 1400000000000002562, 100, [0, 1], 9, 5⟩

def funds : Dependencies.testnet.collateral.State :=
  Token.Balances.single 7 (10 ^ 30) (by decide)

def trader : Msg config.self := ⟨7, 5, by decide, by decide⟩

def trades : List (Msg config.self × Action Dependencies.testnet) :=
  [(trader, .fund), (trader, .buy 3 2 (10 ^ 15) (10 ^ 15) 50), (trader, .buy 1 2 (10 ^ 15) (10 ^ 15) 50),
    (trader, .sell 3 2 (10 ^ 14) 0 50)]

end Testnet

open Testnet in
theorem uniform_pools_covered_testnet :
    let w := Run.run (PilotPool.step config) ⟨funds, PilotPool.initial⟩
      (trades.map fun (msg, a) => (msg, .action a))
    w.pool.funded = true ∧ w.pool.maximumLiability = 19 * 10 ^ 14 ∧ Covered config w :=
  have h : PilotPool.construct Dependencies.testnet chain 1 2 2 (10 ^ 18) 100 [0, 1] 9 5 =
      .ok config := by decide +kernel
  ⟨by decide +kernel, by decide +kernel, uniform_pools_covered.right h funds trades⟩

end Pools
