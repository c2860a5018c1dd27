import Flurbo.Contracts.ReferencePool.Steps

-- The collateral of the pool covers the upper bound of its cost. So no check of the coverage ever
-- fails, and no trades take collateral out of the pool that leave its liabilities as they were.

open Evm Except
open QuoteMath (CostBounds wadPerAtom)

namespace FactoredQuote

variable {isBuy : Bool} {scale collateral balance balance' : ℕ} {before after : CostBounds}

theorem Charged.surplus (h : Charged isBuy scale before after collateral) (hs : 0 < scale)
    (hb : before.lowerWad ≤ before.upperWad) (hm : Moved isBuy collateral balance balance') :
    balance * scale + after.upperWad ≤ balance' * scale + before.upperWad := by
  cases isBuy
  case false =>
    obtain ⟨hle, rfl⟩ := h
    have hdiv := Nat.div_mul_le_self (before.lowerWad - after.upperWad) scale
    have hm : balance = balance' + (before.lowerWad - after.upperWad) / scale := by
      simpa [Moved] using hm.symm
    rw [hm, Nat.add_mul]
    omega
  case true  =>
    obtain ⟨hle, rfl⟩ := h
    have hceil := Rounding.le_mul_ceilDiv (n := after.upperWad - before.lowerWad) hs
    have hm : balance' = balance + (after.upperWad - before.lowerWad) ⌈/⌉ scale := by
      simpa [Moved] using hm
    rw [mul_comm] at hceil
    rw [hm, Nat.add_mul]
    omega

end FactoredQuote

namespace ReferencePool

variable {D : Dependencies} {cfg : Config} {msg : Msg cfg.self} {check : World D → Sol Unit}
  {w w' : World D} {call : Call D cfg}

section Definitions

variable (D) (cfg : Config)

-- The cost of the liabilities, as a quote computes it.
def cost (liabilities : List ℕ) : Sol CostBounds :=
  LmsrCost.bounds D.prb (liabilities.map (· * wadPerAtom cfg.collateralDecimals))
    (cfg.liquidity * wadPerAtom cfg.collateralDecimals)

structure Accepted : Prop where
  states  : cfg.stateCount = 2 ∨ cfg.stateCount = 4 ∨ cfg.stateCount = 8
  funding : ∃ r, cost D cfg (List.replicate cfg.stateCount 0) = .ok r ∧
              r.upperWad ≤ cfg.requiredFunding * wadPerAtom cfg.collateralDecimals

end Definitions

theorem construct_accepted {chain : Chain} {self token resolver : Address}
    {events b closeTime rulesHash : ℕ}
    (h : construct D chain self token events b closeTime resolver rulesHash = .ok cfg) :
    Accepted D cfg := by
  simp only [construct, bind_eq_ok, revertIf_eq_ok, pure_eq_ok, ok.injEq, QuoteMath.toWad_eq_ok,
    QuoteMath.fromWadUp_eq_ok, not_or, not_lt] at h
  obtain ⟨_, ⟨_, h₀, h₃, _⟩, _, ⟨_, _, rfl⟩, r, hr, _, ⟨_, _, rfl⟩, rfl⟩ := h
  refine ⟨?_, r, ?_, ?_⟩
  · dsimp only
    have : events = 1 ∨ events = 2 ∨ events = 3 := by omega
    rcases this with rfl | rfl | rfl <;> simp
  · simpa [cost] using hr
  · dsimp only
    rw [mul_comm]
    exact Rounding.le_mul_ceilDiv QuoteMath.wadPerAtom_pos

structure Covered (cfg : Config) (w : World D) : Prop where
  length  : w.pool.stateLiabilities.length = cfg.stateCount
  fresh   : w.pool.funded = false →
              w.pool.stateLiabilities = List.replicate cfg.stateCount 0 ∧ w.pool.resolved = false
  priced  : w.pool.funded = true → w.pool.resolved = false → ∃ r, cost D cfg w.pool.stateLiabilities = .ok r ∧
              r.upperWad ≤ w.balance cfg.self * wadPerAtom cfg.collateralDecimals
  settled : w.pool.resolved = true → w.pool.resolvedState < cfg.stateCount ∧
              w.pool.stateLiabilities.getD w.pool.resolvedState 0 ≤ w.balance cfg.self

theorem cost_ge {liabilities : List ℕ} {r : CostBounds} {x : ℕ} (h : cost D cfg liabilities = .ok r)
    (hx : x ∈ liabilities) : x * wadPerAtom cfg.collateralDecimals ≤ r.upperWad := by
  have ⟨h₁, h₂⟩ := LmsrCost.bounds_ge h (List.mem_map_of_mem hx)
  exact h₁.trans h₂

theorem foldl_le {liabilities : List ℕ} {b : ℕ} (h : ∀ x ∈ liabilities, x ≤ b) :
    liabilities.foldl (fun required liability =>
      if liability > required then liability else required) 0 ≤ b := by
  suffices hs : ∀ a ≤ b, liabilities.foldl (fun required liability =>
      if liability > required then liability else required) a ≤ b from hs 0 (Nat.zero_le b)
  induction liabilities
  case nil          => exact fun a ha => ha
  case cons x xs hi =>
    intro a ha
    rw [List.forall_mem_cons] at h
    refine hi h.right _ ?_
    dsimp only
    split
    case isTrue  => exact h.left
    case isFalse => exact ha

namespace Covered

theorem initial {token : D.collateral.State} : Covered cfg (World.initial cfg token) where
  length    := by simp [World.initial, Storage.initial]
  fresh _   := ⟨rfl, rfl⟩
  priced h  := by simp [World.initial, Storage.initial] at h
  settled h := by simp [World.initial, Storage.initial] at h

theorem le_balance (h : Covered cfg w) (hf : w.pool.funded = true) (hr : w.pool.resolved = false)
    {x : ℕ} (hx : x ∈ w.pool.stateLiabilities) : x ≤ w.balance cfg.self := by
  obtain ⟨r, hc, hle⟩ := h.priced hf hr
  exact Nat.le_of_mul_le_mul_right ((cost_ge hc hx).trans hle) QuoteMath.wadPerAtom_pos

theorem requireCovered (h : Covered cfg w) : requireCovered cfg w = .ok () := by
  unfold ReferencePool.requireCovered requiredCollateral
  cases hr : w.pool.resolved
  case true  =>
    obtain ⟨hlt, hle⟩ := h.settled hr
    rw [if_pos rfl, nth_eq_ok_getD.mpr ⟨h.length ▸ hlt, rfl⟩, ok_bind]
    exact revertIf_ok (not_lt.mpr hle)
  case false =>
    rw [if_neg Bool.false_ne_true, pure_eq_ok, ok_bind]
    refine revertIf_ok (not_lt.mpr (foldl_le fun x hx => ?_))
    cases hf : w.pool.funded
    case false =>
      rw [(h.fresh hf).left] at hx
      rw [List.eq_of_mem_replicate hx]
      exact Nat.zero_le _
    case true  => exact h.le_balance hf hr hx

-- A step that leaves the liabilities and the status as they were.
theorem keep (h : Covered cfg w) (hf : w'.pool.funded = w.pool.funded)
    (hr : w'.pool.resolved = w.pool.resolved) (ht : w'.pool.resolvedState = w.pool.resolvedState)
    (hl : w'.pool.stateLiabilities = w.pool.stateLiabilities)
    (hb : w.balance cfg.self ≤ w'.balance cfg.self) : Covered cfg w' where
  length       := hl ▸ h.length
  fresh hn     := by
    rw [hl, hr]
    exact h.fresh (hf ▸ hn)
  priced hp hn := by
    obtain ⟨r, hc, hle⟩ := h.priced (hf ▸ hp) (hr ▸ hn)
    exact ⟨r, hl ▸ hc, hle.trans (Nat.mul_le_mul_right _ hb)⟩
  settled hp   := by
    rw [hl, ht]
    exact ⟨(h.settled (hr ▸ hp)).left, (h.settled (hr ▸ hp)).right.trans hb⟩

end Covered

namespace Traded

variable {mask quantity : ℕ} {isBuy : Bool} {quote : LmsrQuote.Quote} {before after : CostBounds}

theorem costs (h : Traded cfg msg mask quantity isBuy w w' quote before after) :
    cost D cfg w.pool.stateLiabilities = .ok before ∧ cost D cfg w'.pool.stateLiabilities = .ok after := by
  obtain ⟨held, _, hp⟩ := h.held
  refine ⟨h.quoted.before_ok, ?_⟩
  rw [hp]
  exact h.quoted.after_ok

theorem funded_after (h : Traded cfg msg mask quantity isBuy w w' quote before after) :
    w'.pool.funded = true := by
  obtain ⟨_, _, hp⟩ := h.held
  rw [hp]
  exact h.funded

theorem lower_le_upper (h : Traded cfg msg mask quantity isBuy w w' quote before after) :
    before.lowerWad ≤ before.upperWad := by
  have hn : w.pool.stateLiabilities ≠ [] := by
    intro hn
    have hs := h.quoted.states
    simp [market, hn] at hs
  obtain ⟨x, hx⟩ := List.exists_mem_of_ne_nil _ hn
  exact (LmsrCost.bounds_ge h.quoted.before_ok (List.mem_map_of_mem hx)).right

theorem surplus (h : Traded cfg msg mask quantity isBuy w w' quote before after) :
    w.balance cfg.self * wadPerAtom cfg.collateralDecimals + after.upperWad ≤
      w'.balance cfg.self * wadPerAtom cfg.collateralDecimals + before.upperWad :=
  h.quoted.charged.surplus QuoteMath.wadPerAtom_pos h.lower_le_upper h.paid

theorem covered (h : Traded cfg msg mask quantity isBuy w w' quote before after) (hc : Covered cfg w) :
    Covered cfg w' := by
  have ⟨hb, ha⟩ := h.costs
  have hs := h.surplus
  obtain ⟨held, _, hp⟩ := h.held
  obtain ⟨r, hr, hle⟩ := hc.priced h.funded h.unresolved
  cases hb.symm.trans hr
  refine ⟨?_, fun hn => ?_, fun _ _ => ⟨after, ha, by omega⟩, fun hn => ?_⟩
  · rw [hp]
    exact h.quoted.length_eq.trans hc.length
  · exact absurd (h.funded_after.symm.trans hn) (by decide)
  · rw [hp] at hn
    exact absurd (h.unresolved.symm.trans hn) (by decide)

end Traded

theorem burned_eq_ok {liabilities after : List ℕ} {mask quantity : ℕ}
    (h : burned liabilities mask quantity = .ok after) :
    after.length = liabilities.length ∧ ∀ i < liabilities.length,
      after.getD i 0 + (if mask.testBit i then quantity else 0) = liabilities.getD i 0 := by
  have ⟨hl, h⟩ := table_eq_ok.mp h
  refine ⟨hl, fun i hi => ?_⟩
  replace h := h i hi
  simp only [nth_eq_ok_getD.mpr ⟨hi, rfl⟩, ok_bind, Nat.one_shiftLeft, Bits.and_two_pow_ne_zero] at h
  split at h
  case isTrue hb  =>
    obtain ⟨hle, h⟩ := checkedSub_eq_ok.mp h
    rw [if_pos hb]
    omega
  case isFalse hb => rw [if_neg hb, ok.inj h, Nat.add_zero]

theorem Covered.step (ha : Accepted D cfg) (h : Covered cfg w) {a : Action D}
    (hs : Acted cfg msg w a w') : Covered cfg w' := by
  cases hs
  case funded token hf _ hb =>
    obtain ⟨r, hc, hle⟩ := ha.funding
    have ⟨hz, hr⟩ := h.fresh hf
    refine ⟨h.length, fun hn => (by cases hn), fun _ _ => ⟨r, ?_, ?_⟩, fun hn => ?_⟩
    · change cost D cfg w.pool.stateLiabilities = .ok r
      rw [hz, hc]
    · change r.upperWad ≤ D.collateral.balanceOf token cfg.self * _
      rw [hb, Nat.add_mul]
      exact hle.trans (Nat.le_add_left _ _)
    · exact absurd (hr.symm.trans hn) (by decide)
  case bought ht => exact ht.covered h
  case sold ht   => exact ht.covered h
  case resolved state _ hf hr _ ht =>
    refine ⟨h.length, fun hn => absurd (hf.symm.trans hn) (by decide), fun _ hn => (by cases hn),
      fun _ => ⟨h.length ▸ ht, ?_⟩⟩
    rw [List.getD_eq_getElem _ _ ht]
    exact h.le_balance hf hr (List.getElem_mem ht)
  case redeemed mask quantity token liabilities hr hb =>
    obtain ⟨hlt, hle⟩ := h.settled hr.resolved
    obtain ⟨hl, hmoved⟩ := burned_eq_ok hr.burned
    have := hmoved _ (h.length ▸ hlt)
    refine ⟨hl.trans h.length, fun hn => ?_, fun _ hn => ?_, fun _ => ⟨hlt, ?_⟩⟩
    · exact absurd ((h.fresh hn).right.symm.trans hr.resolved) (by decide)
    · exact absurd (hr.resolved.symm.trans hn) (by decide)
    · change liabilities.getD w.pool.resolvedState 0 ≤ D.collateral.balanceOf token cfg.self
      unfold payout at hb
      omega
  case wrapped      => exact h.keep rfl rfl rfl rfl le_rfl
  case unwrapped    => exact h.keep rfl rfl rfl rfl le_rfl
  case created      => exact h.keep rfl rfl rfl rfl le_rfl
  case collateral hb => exact h.keep rfl rfl rfl rfl hb
  case receipts     => exact h.keep rfl rfl rfl rfl le_rfl

section Checks

-- A check that passes before a step, and after what the step does, need not be made.
theorem step_congr (hw : check w = .ok ())
    (hw' : ∀ w', Acted cfg call.1 w call.2 w' → check w' = .ok ()) :
    step cfg check w call = step cfg (fun _ => .ok ()) w call := by
  rcases call with ⟨msg, a⟩
  have hacted {w'} (h : step cfg (fun _ => .ok ()) w (msg, a) = .ok w') : check w' = .ok () :=
    hw' w' (step_eq_ok h)
  have htrading (deadline : ℕ) : requireTrading cfg msg check deadline w =
      requireTrading cfg msg (fun _ => .ok ()) deadline w := by
    simp only [requireTrading, hw]
  cases a
  case fund =>
    refine bind_congr_ok fun _ h₁ => bind_congr_ok fun _ h₂ => bind_congr_ok fun token h₃ => ?_
    dsimp only
    rw [hacted]
    simp only [step, act, fund, h₁, h₂, h₃, ok_bind, pure_eq_ok]
  case buy =>
    refine congrArg (Prod.fst <$> ·) ?_
    unfold buy
    rw [htrading]
    refine bind_congr_ok fun _ h₁ => bind_congr_ok fun _ h₂ => bind_congr_ok fun _ h₃ =>
      bind_congr_ok fun _ h₄ => ?_
    dsimp only
    rw [hacted]
    simp only [step, act, buy, h₁, h₂, h₃, h₄, ok_bind, pure_eq_ok, map_eq_ok, Prod.exists, ok.injEq,
      Prod.mk.injEq]
    exact ⟨_, _, ⟨rfl, rfl⟩, rfl⟩
  case sell =>
    refine congrArg (Prod.fst <$> ·) ?_
    unfold sell
    rw [htrading]
    refine bind_congr_ok fun _ h₁ => bind_congr_ok fun _ h₂ => bind_congr_ok fun _ h₃ =>
      bind_congr_ok fun _ h₄ => bind_congr_ok fun _ h₅ => ?_
    dsimp only
    rw [hacted]
    simp only [step, act, sell, h₁, h₂, h₃, h₄, h₅, ok_bind, pure_eq_ok, map_eq_ok, Prod.exists,
      ok.injEq, Prod.mk.injEq]
    exact ⟨_, _, ⟨rfl, rfl⟩, rfl⟩
  case redeem =>
    refine congrArg (Prod.fst <$> ·) ?_
    unfold redeem
    simp only [hw, ok_bind]
    refine bind_congr_ok fun _ h₁ => bind_congr_ok fun _ h₂ => bind_congr_ok fun _ h₃ =>
      bind_congr_ok fun _ h₄ => bind_congr_ok fun _ h₅ => bind_congr_ok fun _ h₆ =>
      bind_congr_ok fun _ h₇ => ?_
    rw [hacted, ok_bind]
    rw [pure_eq_ok] at h₇
    simp only [step, act, redeem, h₁, h₂, h₃, h₄, h₅, h₆, h₇, ok_bind, pure_eq_ok, map_eq_ok,
      Prod.exists, ok.injEq, Prod.mk.injEq]
    exact ⟨_, _, ⟨rfl, rfl⟩, rfl⟩
  all_goals rfl

theorem Covered.step_unchecked (ha : Accepted D cfg) (h : Covered cfg w) :
    ReferencePool.step cfg (ReferencePool.requireCovered cfg) w call =
      ReferencePool.step cfg (fun _ => .ok ()) w call :=
  step_congr h.requireCovered fun _ hs => (h.step ha hs).requireCovered

end Checks

theorem run_covered (ha : Accepted D cfg) (token : D.collateral.State) (calls : List (Call D cfg)) :
    Covered cfg (Run.run (step cfg check) (World.initial cfg token) calls) :=
  Run.run_invariant .initial fun _ _ _ _ h hs => h.step ha (step_eq_ok hs)

namespace Testnet

def chain : Chain := ⟨10143, 0, fun _ => true⟩

def config : Config := ⟨1, 2, 18, 4, 10 ^ 15, 2100000000000004, 100, 5, 3⟩

def funds : Dependencies.testnet.collateral.State :=
  Token.Balances.single 6 (10 ^ 29) (by decide)

def trader : Msg config.self := ⟨6, 5, by decide, by decide⟩

def resolver : Msg config.self := ⟨5, 200, by decide, by decide⟩

def trades : List (Call Dependencies.testnet config) :=
  [(trader, .fund), (trader, .buy 10 (10 ^ 15) (10 ^ 15) 50), (trader, .buy 12 (10 ^ 15) (10 ^ 15) 50),
    (trader, .sell 10 (10 ^ 14) 0 50)]

theorem deployed : construct Dependencies.testnet chain 1 2 2 (10 ^ 15) 100 5 3 = .ok config := by
  decide +kernel

end Testnet

-- The checks of the coverage change nothing: without them every run has the same states, and every
-- call the same result.
theorem checks_redundant {chain : Chain} {self token resolver : Address}
    {events b closeTime rulesHash : ℕ}
    (h : construct D chain self token events b closeTime resolver rulesHash = .ok cfg)
    (collateral : D.collateral.State) (calls : List (Call D cfg)) (call : Call D cfg) :
    let w := World.initial cfg collateral
    let unchecked : World D → Sol Unit := fun _ => .ok ()
    Run.run (step cfg (requireCovered cfg)) w calls = Run.run (step cfg unchecked) w calls ∧
      step cfg (requireCovered cfg) (Run.run (step cfg (requireCovered cfg)) w calls) call =
        step cfg unchecked (Run.run (step cfg unchecked) w calls) call := by
  intro w unchecked
  have ha := construct_accepted h
  have hrun : Run.run (step cfg (requireCovered cfg)) w calls = Run.run (step cfg unchecked) w calls :=
    Run.run_congr Covered.initial (fun _ _ _ _ h hs => h.step ha (step_eq_ok hs))
      fun _ _ _ h => h.step_unchecked ha
  exact ⟨hrun, hrun ▸ (run_covered ha collateral calls).step_unchecked ha⟩

theorem checks_redundant_testnet :
    let w := World.initial Testnet.config Testnet.funds
    let unchecked : World Dependencies.testnet → Sol Unit := fun _ => .ok ()
    (Run.run (step Testnet.config unchecked) w Testnet.trades).pool.stateLiabilities =
        [0, 9 * 10 ^ 14, 10 ^ 15, 19 * 10 ^ 14] ∧
      Run.run (step Testnet.config (requireCovered Testnet.config)) w Testnet.trades =
        Run.run (step Testnet.config unchecked) w Testnet.trades :=
  ⟨by decide +kernel,
    (checks_redundant Testnet.deployed Testnet.funds Testnet.trades (Testnet.trader, .fund)).left⟩

section Surplus

-- How the balance above the cost changes while the pool is unresolved.
structure Gained (cfg : Config) (w w' : World D) : Prop where
  surplus : ∃ r r', cost D cfg w.pool.stateLiabilities = .ok r ∧ cost D cfg w'.pool.stateLiabilities = .ok r' ∧
              w.balance cfg.self * wadPerAtom cfg.collateralDecimals + r'.upperWad ≤
                w'.balance cfg.self * wadPerAtom cfg.collateralDecimals + r.upperWad
  pump    : w'.pool.stateLiabilities = w.pool.stateLiabilities → w.balance cfg.self ≤ w'.balance cfg.self

variable {r r' : CostBounds}

theorem Gained.of_cost (hr : cost D cfg w.pool.stateLiabilities = .ok r)
    (hr' : cost D cfg w'.pool.stateLiabilities = .ok r')
    (hs : w.balance cfg.self * wadPerAtom cfg.collateralDecimals + r'.upperWad ≤
      w'.balance cfg.self * wadPerAtom cfg.collateralDecimals + r.upperWad) : Gained cfg w w' where
  surplus := ⟨r, r', hr, hr', hs⟩
  pump hl := by
    rw [hl, hr] at hr'
    cases hr'
    exact Nat.le_of_mul_le_mul_right (Nat.le_of_add_le_add_right hs) QuoteMath.wadPerAtom_pos

theorem Gained.keep {w₀ : World D} (h : Gained cfg w₀ w)
    (hl : w'.pool.stateLiabilities = w.pool.stateLiabilities)
    (hb : w.balance cfg.self ≤ w'.balance cfg.self) : Gained cfg w₀ w' := by
  obtain ⟨r, r', hr, hr', hle⟩ := h.surplus
  exact .of_cost hr (hl ▸ hr') (hle.trans (Nat.add_le_add_right (Nat.mul_le_mul_right _ hb) _))

theorem Gained.traded {w₀ : World D} {mask quantity : ℕ} {isBuy : Bool} {quote : LmsrQuote.Quote}
    (h : Gained cfg w₀ w) (ht : Traded cfg msg mask quantity isBuy w w' quote r r') : Gained cfg w₀ w' := by
  obtain ⟨r₀, _, hr₀, hr, hle⟩ := h.surplus
  have ⟨hb, ha⟩ := ht.costs
  cases hr.symm.trans hb
  have := ht.surplus
  exact .of_cost hr₀ ha (by omega)

-- Resolution is the only way out of trading.
theorem gained_step {w₀ : World D} {a : Action D} (h : w.pool.resolved = false → Gained cfg w₀ w)
    (hf : w.pool.funded = true) (hs : Acted cfg msg w a w') :
    (w'.pool.resolved = false → Gained cfg w₀ w') ∧ w'.pool.funded = true := by
  cases hs
  case funded hn _ _     => exact absurd (hf.symm.trans hn) (by decide)
  case bought ht         => exact ⟨fun _ => (h ht.unresolved).traded ht, ht.funded_after⟩
  case sold ht           => exact ⟨fun _ => (h ht.unresolved).traded ht, ht.funded_after⟩
  case resolved          => exact ⟨fun hr => (by cases hr), hf⟩
  case redeemed hr _     => exact ⟨fun hn => absurd (hr.resolved.symm.trans hn) (by decide), hf⟩
  case wrapped           => exact ⟨fun hr => (h hr).keep rfl le_rfl, hf⟩
  case unwrapped         => exact ⟨fun hr => (h hr).keep rfl le_rfl, hf⟩
  case created           => exact ⟨fun hr => (h hr).keep rfl le_rfl, hf⟩
  case collateral hb     => exact ⟨fun hr => (h hr).keep rfl hb, hf⟩
  case receipts          => exact ⟨fun hr => (h hr).keep rfl le_rfl, hf⟩

-- From any funded state that a pool reaches, whatever is traded by whomever, what the pool has above
-- the bound of its cost never shrinks until it is resolved. Trades that leave the liabilities as they
-- were have taken nothing out.
theorem surplus_kept {chain : Chain} {self token resolver : Address} {events b closeTime rulesHash : ℕ}
    (h : construct D chain self token events b closeTime resolver rulesHash = .ok cfg)
    (collateral : D.collateral.State) (calls calls' : List (Call D cfg)) :
    let run := Run.run (step cfg (requireCovered cfg))
    let w := run (World.initial cfg collateral) calls
    w.pool.funded = true → (run w calls').pool.resolved = false → Gained cfg w (run w calls') := by
  intro run w hf hr
  have hc : Covered cfg w := run_covered (construct_accepted h) collateral calls
  have h₀ : w.pool.resolved = false → Gained cfg w w := by
    intro hr
    obtain ⟨r, hr, _⟩ := hc.priced hf hr
    exact .of_cost hr hr le_rfl
  let I (w' : World D) := (w'.pool.resolved = false → Gained cfg w w') ∧ w'.pool.funded = true
  have hI : I (run w calls') :=
    Run.run_invariant ⟨h₀, hf⟩ fun _ _ _ _ hi hs => gained_step hi.left hi.right (step_eq_ok hs)
  exact hI.left hr

theorem surplus_kept_testnet :
    let run := Run.run (step Testnet.config (requireCovered Testnet.config))
    let w := run (World.initial Testnet.config Testnet.funds) [(Testnet.trader, .fund)]
    let w' := run w Testnet.trades
    w.pool.funded = true ∧ w'.pool.resolved = false ∧ Gained Testnet.config w w' :=
  ⟨by decide +kernel, by decide +kernel, surplus_kept Testnet.deployed Testnet.funds
    [(Testnet.trader, .fund)] Testnet.trades (by decide +kernel) (by decide +kernel)⟩

-- What the pool takes in by an action of a trader. Funding and donations are none.
def Action.proceeds (cfg : Config) (w w' : World D) : Action D → ℤ
  | .buy ..  => w'.balance cfg.self - w.balance cfg.self
  | .sell .. => w'.balance cfg.self - w.balance cfg.self
  | _        => 0

-- What the traders of a run pay for the claims that they buy, less what they get for those that they sell.
def proceeds (cfg : Config) (w : World D) : List (Call D cfg) → ℤ
  | []            => 0
  | call :: calls =>
    let w' := Run.attempt (step cfg (requireCovered cfg)) w call
    call.2.proceeds cfg w w' + proceeds cfg w' calls

-- While the pool trades, its bound of the cost rises by at most what the traders pay.
def Paid (cfg : Config) (w w' : World D) (x : ℤ) : Prop :=
  w.pool.resolved = false ∧ w'.pool.funded = true ∧
    ∀ r, cost D cfg w.pool.stateLiabilities = .ok r → ∃ r', cost D cfg w'.pool.stateLiabilities = .ok r' ∧
      (r'.upperWad : ℤ) - r.upperWad ≤ x * wadPerAtom cfg.collateralDecimals

theorem Paid.of_eq (hf : w'.pool.funded = true) (hr : w.pool.resolved = false)
    (hl : w'.pool.stateLiabilities = w.pool.stateLiabilities) : Paid cfg w w' 0 :=
  ⟨hr, hf, fun r h => ⟨r, hl ▸ h, by simp⟩⟩

theorem Traded.paid_of {mask quantity : ℕ} {isBuy : Bool} {quote : LmsrQuote.Quote}
    (ht : Traded cfg msg mask quantity isBuy w w' quote r r') :
    Paid cfg w w' (w'.balance cfg.self - w.balance cfg.self) := by
  refine ⟨ht.unresolved, ht.funded_after, fun r₀ h => ?_⟩
  have ⟨hb, ha⟩ := ht.costs
  cases h.symm.trans hb
  have := ht.surplus
  refine ⟨r', ha, ?_⟩
  zify at this
  linarith

theorem paid_step {a : Action D} (hf : w.pool.funded = true) (hs : Acted cfg msg w a w')
    (hn : w'.pool.resolved = false) : Paid cfg w w' (a.proceeds cfg w w') := by
  cases hs
  case funded hu _ _ => exact absurd (hf.symm.trans hu) (by decide)
  case bought ht     => exact ht.paid_of
  case sold ht       => exact ht.paid_of
  case resolved      => cases hn
  case redeemed hr _ => exact absurd (hr.resolved.symm.trans hn) (by decide)
  case wrapped       => exact .of_eq hf hn rfl
  case unwrapped     => exact .of_eq hf hn rfl
  case created       => exact .of_eq hf hn rfl
  case collateral    => exact .of_eq hf hn rfl
  case receipts      => exact .of_eq hf hn rfl

theorem paid_attempt (call : Call D cfg) (hf : w.pool.funded = true) :
    let w' := Run.attempt (step cfg (requireCovered cfg)) w call
    w'.pool.resolved = false → Paid cfg w w' (call.2.proceeds cfg w w') := by
  intro w' hn
  cases hs : step cfg (requireCovered cfg) w call
  case ok w''   =>
    have he : w' = w'' := Run.attempt_ok hs
    exact he ▸ paid_step hf (step_eq_ok hs) (he ▸ hn)
  case error  =>
    have he : w' = w := by simp only [w', Run.attempt, hs]
    rw [he] at hn ⊢
    have hz : call.2.proceeds cfg w w = 0 := by
      cases call.2 <;> simp [Action.proceeds]
    exact hz ▸ .of_eq hf hn rfl

theorem acted_funded {a : Action D} (hf : w.pool.funded = true) (hs : Acted cfg msg w a w') :
    w'.pool.funded = true := by
  cases hs
  case funded    => rfl
  case bought ht => exact ht.funded_after
  case sold ht   => exact ht.funded_after
  all_goals exact hf

theorem Paid.trans {w₁ : World D} {x y : ℤ} (h : Paid cfg w w₁ x) (h' : Paid cfg w₁ w' y) :
    Paid cfg w w' (x + y) := by
  refine ⟨h.1, h'.2.1, fun r hr => ?_⟩
  obtain ⟨r₁, hr₁, hx⟩ := h.2.2 r hr
  obtain ⟨r', hr', hy⟩ := h'.2.2 r₁ hr₁
  exact ⟨r', hr', by rw [add_mul]; omega⟩

theorem run_paid (calls : List (Call D cfg)) (hf : w.pool.funded = true) :
    let w' := Run.run (step cfg (requireCovered cfg)) w calls
    w'.pool.resolved = false → Paid cfg w w' (proceeds cfg w calls) := by
  induction calls generalizing w
  case nil                => exact fun hr => .of_eq hf hr rfl
  case cons call calls hi =>
    intro w' hn
    have hf₁ : (Run.attempt (step cfg (requireCovered cfg)) w call).pool.funded = true :=
      Run.attempt_cases (I := fun w : World D => w.pool.funded = true) hf fun _ hs => acted_funded hf (step_eq_ok hs)
    have h' := hi hf₁ hn
    exact (paid_attempt call hf h'.1).trans h'

-- Whoever trades, and however often: trades that leave the liabilities as they were do not pay out more
-- than they cost, whatever is given to the pool meanwhile.
theorem proceeds_nonneg {chain : Chain} {self token resolver : Address} {events b closeTime rulesHash : ℕ}
    (h : construct D chain self token events b closeTime resolver rulesHash = .ok cfg)
    (collateral : D.collateral.State) (calls calls' : List (Call D cfg)) :
    let run := Run.run (step cfg (requireCovered cfg))
    let w := run (World.initial cfg collateral) calls
    w.pool.funded = true → (run w calls').pool.resolved = false →
      (run w calls').pool.stateLiabilities = w.pool.stateLiabilities → 0 ≤ proceeds cfg w calls' := by
  intro run w hf hn hl
  have hp := run_paid calls' hf hn
  obtain ⟨r, hr, _⟩ := (run_covered (construct_accepted h) collateral calls : Covered cfg w).priced hf hp.1
  obtain ⟨r', hr', hle⟩ := hp.2.2 r hr
  rw [show (Run.run (step cfg (requireCovered cfg)) w calls').pool.stateLiabilities = _ from hl, hr] at hr'
  cases hr'
  rw [sub_self] at hle
  exact nonneg_of_mul_nonneg_left hle (by exact_mod_cast QuoteMath.wadPerAtom_pos)

end Surplus

end ReferencePool
