import Flurbo.Contracts.ReferencePool.Basic

-- What quotes and successful actions of the reference pool do.

open Evm Except
open QuoteMath (CostBounds wadPerAtom)

namespace LmsrCost

variable {prb : PRBMath} {q : List ℕ} {b m x : ℕ} {r : CostBounds}

theorem le_maximumOf (h : maximumOf q b = .ok m) : ∀ x ∈ q, x ≤ m := by
  suffices hs : ∀ a, q.foldlM (fun maximum qi => do
      revertIf (qi > (← checkedMul 256 100 b)) .liabilityOutOfRange
      return if qi > maximum then qi else maximum) a = .ok m → a ≤ m ∧ ∀ x ∈ q, x ≤ m from (hs 0 h).right
  clear h
  induction q
  case nil          => simp
  case cons x q hi =>
    intro a h
    simp only [List.foldlM_cons, bind_eq_ok, pure_eq_ok, ok.injEq] at h
    obtain ⟨_, ⟨_, _, _, _, rfl⟩, h⟩ := h
    obtain ⟨ha, hq⟩ := hi _ h
    refine ⟨?_, List.forall_mem_cons.mpr ⟨?_, hq⟩⟩
    all_goals split at ha <;> omega

-- The checks of the cost alone keep it above every liability, whatever the exponential and the
-- logarithm are.
theorem bounds_ge (h : bounds prb q b = .ok r) (hx : x ∈ q) : x ≤ r.lowerWad ∧ r.lowerWad ≤ r.upperWad := by
  simp only [bounds, bind_eq_ok, pure_eq_ok, ok.injEq, checkedAdd_eq_ok, Prod.exists] at h
  obtain ⟨maximum, estimate, he, _, _, _, ⟨_, rfl⟩, rfl⟩ := h
  simp only [LmsrCost.estimate, bind_eq_ok, pure_eq_ok, ok.injEq, Prod.mk.injEq, checkedAdd_eq_ok] at he
  obtain ⟨_, _, _, _, _, hm, _, _, _, _, _, _, logarithm, _, _, ⟨_, rfl⟩, rfl, rfl⟩ := he
  have := le_maximumOf hm x hx
  generalize logarithm / WAD = cost at *
  dsimp only
  constructor
  all_goals split_ifs <;> omega

end LmsrCost

namespace LmsrQuote

-- What a quote says about the trade.
structure Quoted (market : Market) (mask quantity : ℕ) (isBuy : Bool) (prb : PRBMath) (quote : Quote)
    (before after : CostBounds) : Prop where
  states    : market.liabilities.length = 2 ∨ market.liabilities.length = 4 ∨ market.liabilities.length = 8
  mask_pos  : mask ≠ 0
  mask_lt   : mask < 2 ^ market.liabilities.length - 1
  pos       : 0 < quantity
  le        : quantity ≤ market.liquidity
  before_ok : LmsrCost.bounds prb (market.liabilities.map (· * wadPerAtom market.decimals))
                (market.liquidity * wadPerAtom market.decimals) = .ok before
  after_ok  : LmsrCost.bounds prb (quote.liabilitiesAfter.map (· * wadPerAtom market.decimals))
                (market.liquidity * wadPerAtom market.decimals) = .ok after
  charged   : FactoredQuote.Charged isBuy (wadPerAtom market.decimals) before after quote.collateral
  positive  : quote.collateral ≠ 0
  at_most   : isBuy = true → quote.collateral ≤ quantity
  length_eq : quote.liabilitiesAfter.length = market.liabilities.length
  moved     : ∀ i < market.liabilities.length, Moved isBuy (if mask.testBit i then quantity else 0)
                (market.liabilities.getD i 0) (quote.liabilitiesAfter.getD i 0)
  lt        : isBuy = true → ∀ i < market.liabilities.length, mask.testBit i →
                quote.liabilitiesAfter.getD i 0 < 2 ^ 128

variable {market : Market} {mask quantity limit : ℕ} {isBuy : Bool} {prb : PRBMath} {quote : Quote}
  {factor : ℕ} {xs ys : List ℕ}

theorem scaled_eq_ok (h : xs.mapM (checkedMul 256 · factor) = .ok ys) : ys = xs.map (· * factor) :=
  mapM_eq_map h fun _ _ h => (checkedMul_eq_ok.mp h).right.symm

theorem shift_eq_ok {value i r : ℕ} (h : FactoredQuote.shift mask quantity isBuy value i = .ok r) :
    Moved isBuy (if mask.testBit i then quantity else 0) value r ∧
      (isBuy = true → mask.testBit i → r < 2 ^ 128) := by
  simp only [FactoredQuote.shift, Nat.one_shiftLeft, Bits.and_two_pow_ne_zero] at h
  split at h
  case isFalse hb =>
    rw [if_neg hb, Moved.zero_iff]
    exact ⟨(ok.inj h).symm, fun _ hm => absurd hm hb⟩
  case isTrue hb  =>
    rw [if_pos hb]
    cases isBuy
    case false =>
      simp only [Bool.false_eq_true, if_false, bind_eq_ok, revertIf_eq_ok, checkedSub_eq_ok] at h
      obtain ⟨_, _, hle, rfl⟩ := h
      exact ⟨by simp only [Moved, Bool.false_eq_true, if_false]; omega, fun h => (by cases h)⟩
    case true  =>
      obtain ⟨hlt, rfl⟩ := checkedAdd_eq_ok.mp h
      exact ⟨by simp [Moved], fun _ _ => hlt⟩

theorem simulate_eq_ok (h : simulate market mask quantity isBuy prb = .ok quote) :
    ∃ before after, Quoted market mask quantity isBuy prb quote before after := by
  simp only [simulate, bind_eq_ok, revertIf_eq_ok, QuoteMath.scale_eq_ok, checkedMul_eq_ok, pure_eq_ok,
    ok.injEq, not_or, Nat.one_shiftLeft, not_le, not_lt] at h
  obtain ⟨_, hn, _, hm, _, hq, _, ⟨_, rfl⟩, _, ⟨_, rfl⟩, _, hbw, before, hb, after', ha', _, haw, after, ha,
    collateral, hc, _, ⟨hz, hle⟩, rfl⟩ := h
  have htab := table_eq_ok.mp ha'
  have hshift (i : ℕ) (hi : i < market.liabilities.length) := by
    have h := htab.right i hi
    rw [nth_eq_ok_getD.mpr ⟨hi, rfl⟩, ok_bind] at h
    exact shift_eq_ok h
  refine ⟨before, after, by omega, hm.left, hm.right, Nat.pos_of_ne_zero hq.left, hq.right,
    scaled_eq_ok hbw ▸ hb, scaled_eq_ok haw ▸ ha, ?_, hz, by simpa using hle, htab.left,
    fun i hi => (hshift i hi).left, fun hb i hi => (hshift i hi).right hb⟩
  cases isBuy
  case false =>
    obtain ⟨_, _, hle, hr⟩ := QuoteMath.sellFromBounds_eq_ok hc
    exact ⟨hle, hr⟩
  case true  =>
    obtain ⟨_, _, hle, hr⟩ := QuoteMath.buyFromBounds_eq_ok hc
    exact ⟨hle, hr⟩

theorem buy_eq_ok (h : buy market mask quantity prb limit = .ok quote) :
    ∃ before after, Quoted market mask quantity true prb quote before after := by
  simp only [buy, bind_eq_ok, pure_eq_ok, ok.injEq] at h
  obtain ⟨_, h, _, _, rfl⟩ := h
  exact simulate_eq_ok h

theorem sell_eq_ok (h : sell market mask quantity prb limit = .ok quote) :
    ∃ before after, Quoted market mask quantity false prb quote before after := by
  simp only [sell, bind_eq_ok, pure_eq_ok, ok.injEq] at h
  obtain ⟨_, h, _, _, rfl⟩ := h
  exact simulate_eq_ok h

end LmsrQuote

namespace ReferencePool

variable {D : Dependencies}

section Definitions

variable (cfg : Config) (msg : Msg cfg.self)

structure Traded (mask quantity : ℕ) (isBuy : Bool) (w w' : World D) (quote : LmsrQuote.Quote)
    (before after : CostBounds) : Prop where
  funded     : w.pool.funded = true
  unresolved : w.pool.resolved = false
  isOpen     : msg.timestamp < cfg.closesAt
  quoted     : LmsrQuote.Quoted (market cfg w.pool) mask quantity isBuy D.prb quote before after
  held       : ∃ held, Moved isBuy quantity (w.pool.holdings msg.sender mask) held ∧
                 w'.pool = { w.pool with holdings         := Holdings.set w.pool.holdings msg.sender mask held
                                         stateLiabilities := quote.liabilitiesAfter }
  paid       : Moved isBuy quote.collateral (w.balance cfg.self) (w'.balance cfg.self)

-- A claim moves between an owner and the escrow of its receipts.
structure Escrowed (mask quantity : ℕ) (owner owner' : Address) (holdings holdings' : Address → ℕ → ℕ) :
    Prop where
  pos : 0 < quantity
  le  : quantity ≤ holdings owner mask
  eq  : holdings' =
          let debited := Holdings.set holdings owner mask (holdings owner mask - quantity)
          Holdings.set debited owner' mask (debited owner' mask + quantity)

-- A redemption before any collateral moves.
structure Redeemed (mask quantity : ℕ) (w : World D) (liabilities : List ℕ) : Prop where
  resolved : w.pool.resolved = true
  mask_pos : mask ≠ 0
  mask_lt  : mask < 2 ^ w.pool.stateLiabilities.length - 1
  pos      : 0 < quantity
  le       : quantity ≤ w.pool.holdings msg.sender mask
  burned   : burned w.pool.stateLiabilities mask quantity = .ok liabilities

-- What is paid for a claim when it is redeemed.
def payout (mask quantity : ℕ) (s : Storage D) : ℕ :=
  if mask.testBit s.resolvedState then quantity else 0

inductive Acted (w : World D) : Action D → World D → Prop
  | funded {token} (hf : w.pool.funded = false) (ho : msg.timestamp < cfg.closesAt)
    (hb : D.collateral.balanceOf token cfg.self = w.balance cfg.self + cfg.requiredFunding) :
    Acted w .fund ⟨token, { w.pool with funded := true }⟩
  | bought {mask quantity maxCost deadline quote before after w'}
    (h : Traded cfg msg mask quantity true w w' quote before after) :
    Acted w (.buy mask quantity maxCost deadline) w'
  | sold {mask quantity minProceeds deadline quote before after w'}
    (h : Traded cfg msg mask quantity false w w' quote before after) :
    Acted w (.sell mask quantity minProceeds deadline) w'
  | resolved {terminalState} (hs : msg.sender = cfg.resolver) (hf : w.pool.funded = true)
    (hr : w.pool.resolved = false) (hc : cfg.closesAt ≤ msg.timestamp)
    (ht : terminalState < w.pool.stateLiabilities.length) :
    Acted w (.resolve terminalState)
      { w with pool := { w.pool with resolvedState := terminalState, resolved := true } }
  | redeemed {mask quantity token liabilities} (h : Redeemed cfg msg mask quantity w liabilities)
    (hb : D.collateral.balanceOf token cfg.self + payout mask quantity w.pool = w.balance cfg.self) :
    Acted w (.redeem mask quantity) ⟨token, { w.pool with
      holdings := Holdings.set w.pool.holdings msg.sender mask (w.pool.holdings msg.sender mask - quantity)
      stateLiabilities := liabilities }⟩
  | wrapped {eventIndex outcome mask quantity holdings baseTokens} {address : Address}
    (h : Escrowed mask quantity msg.sender address w.pool.holdings holdings) :
    Acted w (.wrapBase eventIndex outcome quantity)
      { w with pool := { w.pool with holdings, baseTokens } }
  | unwrapped {eventIndex outcome mask quantity holdings baseTokens} {address : Address}
    (h : Escrowed mask quantity address msg.sender w.pool.holdings holdings) :
    Acted w (.unwrapBase eventIndex outcome quantity)
      { w with pool := { w.pool with holdings, baseTokens } }
  | created {eventIndex outcome created baseTokens} :
    Acted w (.createBaseToken eventIndex outcome created)
      { w with pool := { w.pool with baseTokens } }
  | collateral {token} (h : w.balance cfg.self ≤ D.collateral.balanceOf token cfg.self) :
    Acted w (.collateral token) { w with token }
  | receipts {mask state baseTokens} :
    Acted w (.receipts mask state) { w with pool := { w.pool with baseTokens } }

end Definitions

variable {cfg : Config} {msg : Msg cfg.self} {check : World D → Sol Unit} {w w' : World D}
  {mask quantity limit deadline paid : ℕ}

theorem requireTrading_eq_ok {u : Unit} (h : requireTrading cfg msg check deadline w = .ok u) :
    w.pool.funded = true ∧ w.pool.resolved = false ∧ msg.timestamp < cfg.closesAt := by
  simp only [requireTrading, requireOpen, bind_eq_ok, revertIf_eq_ok, not_or, not_le,
    Bool.not_eq_true, Bool.not_eq_false] at h
  obtain ⟨_, ⟨_, hf, hr, ho⟩, _⟩ := h
  exact ⟨hf, hr, ho⟩

theorem buy_eq_ok (h : buy cfg msg check mask quantity limit deadline w = .ok (w', paid)) :
    ∃ quote before after, Traded cfg msg mask quantity true w w' quote before after := by
  simp only [buy, bind_eq_ok, pure_eq_ok, ok.injEq, Prod.mk.injEq, checkedAdd_eq_ok] at h
  obtain ⟨_, ht, quote, hq, held, ⟨_, rfl⟩, token, hx, _, _, rfl, _⟩ := h
  obtain ⟨hf, hr, ho⟩ := requireTrading_eq_ok ht
  obtain ⟨before, after, hq⟩ := LmsrQuote.buy_eq_ok hq
  exact ⟨quote, before, after, hf, hr, ho, hq, ⟨_, rfl, rfl⟩, Pools.transferExact_in hx⟩

theorem sell_eq_ok (h : sell cfg msg check mask quantity limit deadline w = .ok (w', paid)) :
    ∃ quote before after, Traded cfg msg mask quantity false w w' quote before after := by
  simp only [sell, bind_eq_ok, pure_eq_ok, ok.injEq, Prod.mk.injEq, checkedSub_eq_ok] at h
  obtain ⟨_, ht, _, _, quote, hq, held, ⟨hle, rfl⟩, token, hx, _, _, rfl, _⟩ := h
  obtain ⟨hf, hr, ho⟩ := requireTrading_eq_ok ht
  obtain ⟨before, after, hq⟩ := LmsrQuote.sell_eq_ok hq
  exact ⟨quote, before, after, hf, hr, ho, hq, ⟨_, Nat.sub_add_cancel hle, rfl⟩, Pools.transferExact_out hx⟩

-- A trade that goes through costs, or returns, what was quoted for it, and stays within its limit.
theorem buy_quoted (hl : limit < 2 ^ 128)
    (h : buy cfg msg check mask quantity limit deadline w = .ok (w', paid)) :
    quoteBuy cfg check mask quantity msg.timestamp w = .ok paid ∧ paid ≤ limit := by
  simp only [buy, requireTrading, LmsrQuote.buy, bind_eq_ok, revertIf_eq_ok, pure_eq_ok, ok.injEq,
    Prod.mk.injEq, not_lt] at h
  obtain ⟨_, ⟨_, ho, _, _, hc⟩, quote, ⟨_, hq, _, hle, rfl⟩, _, _, _, _, _, _, _, rfl⟩ := h
  refine ⟨?_, hle⟩
  simp only [quoteBuy, LmsrQuote.buy, bind_eq_ok, revertIf_eq_ok, pure_eq_ok, ok.injEq]
  exact ⟨(), ho, (), hc, _, ⟨_, hq, (), by omega, rfl⟩, rfl⟩

theorem sell_quoted (h : sell cfg msg check mask quantity limit deadline w = .ok (w', paid)) :
    quoteSell cfg check mask quantity msg.timestamp w = .ok paid ∧ limit ≤ paid := by
  simp only [sell, requireTrading, LmsrQuote.sell, bind_eq_ok, revertIf_eq_ok, pure_eq_ok, ok.injEq,
    Prod.mk.injEq, not_lt] at h
  obtain ⟨_, ⟨_, ho, _, _, hc⟩, _, _, quote, ⟨_, hq, _, hle, rfl⟩, _, _, _, _, _, _, _, rfl⟩ := h
  refine ⟨?_, hle⟩
  simp only [quoteSell, LmsrQuote.sell, bind_eq_ok, revertIf_eq_ok, pure_eq_ok, ok.injEq]
  exact ⟨(), ho, (), hc, _, ⟨_, hq, (), Nat.not_lt_zero _, rfl⟩, rfl⟩

theorem redeem_eq_ok (h : redeem cfg msg check mask quantity w = .ok (w', paid)) :
    ∃ token liabilities, Redeemed cfg msg mask quantity w liabilities ∧ paid = payout mask quantity w.pool ∧
      D.collateral.balanceOf token cfg.self + payout mask quantity w.pool = w.balance cfg.self ∧
      w' = ⟨token, { w.pool with
        holdings := Holdings.set w.pool.holdings msg.sender mask (w.pool.holdings msg.sender mask - quantity)
        stateLiabilities := liabilities }⟩ := by
  simp only [redeem, bind_eq_ok, revertIf_eq_ok, checkedSub_eq_ok, pure_eq_ok, ok.injEq, Prod.mk.injEq,
    not_or, not_not, not_le, not_lt, Nat.one_shiftLeft, Bits.and_two_pow_ne_zero] at h
  obtain ⟨_, hr, _, hm, _, hq, _, hle, _, _, _, ⟨_, rfl⟩, liabilities, hl, token, hx, _, _, rfl, rfl⟩ := h
  refine ⟨token, liabilities, ⟨hr, hm.left, hm.right, Nat.pos_of_ne_zero hq, hle, hl⟩, rfl, ?_, rfl⟩
  unfold payout
  split at hx
  case isTrue hb  => rw [if_pos hb]; exact Pools.transferExact_out hx
  case isFalse hb => rw [if_neg hb]; cases hx; rfl

theorem wrapBase_eq_ok {eventIndex : ℕ} {outcome : Bool}
    (h : wrapBase cfg msg eventIndex outcome quantity w = .ok w') :
    ∃ mask holdings baseTokens, ∃ address : Address,
      Escrowed mask quantity msg.sender address w.pool.holdings holdings ∧
      w' = { w with pool := { w.pool with holdings, baseTokens } } := by
  simp only [wrapBase, bind_eq_ok, revertIf_eq_ok, checkedSub_eq_ok, checkedAdd_eq_ok, pure_eq_ok,
    ok.injEq] at h
  obtain ⟨mask, _, token, _, _, hq, _, _, _, ⟨hle, rfl⟩, _, ⟨_, rfl⟩, _, _, rfl⟩ := h
  exact ⟨mask, _, _, token.address, ⟨Nat.pos_of_ne_zero hq, hle, rfl⟩, rfl⟩

theorem unwrapBase_eq_ok {eventIndex : ℕ} {outcome : Bool}
    (h : unwrapBase cfg msg eventIndex outcome quantity w = .ok w') :
    ∃ mask holdings baseTokens, ∃ address : Address,
      Escrowed mask quantity address msg.sender w.pool.holdings holdings ∧
      w' = { w with pool := { w.pool with holdings, baseTokens } } := by
  simp only [unwrapBase, bind_eq_ok, revertIf_eq_ok, checkedSub_eq_ok, checkedAdd_eq_ok, pure_eq_ok,
    ok.injEq] at h
  obtain ⟨mask, _, token, _, _, hq, _, _, _, ⟨hle, rfl⟩, _, ⟨_, rfl⟩, rfl⟩ := h
  exact ⟨mask, _, _, token.address, ⟨Nat.pos_of_ne_zero hq, hle, rfl⟩, rfl⟩

-- What a successful step did, whatever the check of the coverage is.
theorem step_eq_ok {call : Call D cfg} (h : step cfg check w call = .ok w') :
    Acted cfg call.1 w call.2 w' := by
  rcases call with ⟨msg, a⟩
  cases a
  case fund =>
    simp only [step, act, fund, bind_eq_ok, revertIf_eq_ok, pure_eq_ok, ok.injEq, not_le,
      Bool.not_eq_true] at h
    obtain ⟨_, hf, _, ho, token, ht, _, _, rfl⟩ := h
    exact .funded hf ho (Pools.transferExact_in ht)
  case buy =>
    simp only [step, act, map_eq_ok, Prod.exists] at h
    obtain ⟨_, _, h, rfl⟩ := h
    obtain ⟨_, _, _, h⟩ := buy_eq_ok h
    exact .bought h
  case sell =>
    simp only [step, act, map_eq_ok, Prod.exists] at h
    obtain ⟨_, _, h, rfl⟩ := h
    obtain ⟨_, _, _, h⟩ := sell_eq_ok h
    exact .sold h
  case resolve =>
    simp only [step, act, resolve, bind_eq_ok, revertIf_eq_ok, pure_eq_ok, ok.injEq, ne_eq, not_not,
      not_lt, not_le, Bool.not_eq_true, Bool.not_eq_false] at h
    obtain ⟨_, hs, _, hf, _, hr, _, hc, _, ht, rfl⟩ := h
    exact .resolved hs hf hr hc ht
  case redeem =>
    simp only [step, act, map_eq_ok, Prod.exists] at h
    obtain ⟨_, _, h, rfl⟩ := h
    obtain ⟨_, _, hr, _, hb, rfl⟩ := redeem_eq_ok h
    exact .redeemed hr hb
  case createBaseToken =>
    simp only [step, act, createBaseToken, map_eq_ok, bind_eq_ok, Prod.exists] at h
    obtain ⟨_, _, ⟨_, _, h⟩, rfl⟩ := h
    split at h
    all_goals
      cases h
      exact .created
  case wrapBase =>
    obtain ⟨_, _, _, _, he, rfl⟩ := wrapBase_eq_ok h
    exact .wrapped he
  case unwrapBase =>
    obtain ⟨_, _, _, _, he, rfl⟩ := unwrapBase_eq_ok h
    exact .unwrapped he
  case collateral =>
    simp only [step, act, moveCollateral, bind_eq_ok, revertIf_eq_ok, pure_eq_ok, ok.injEq, not_lt] at h
    obtain ⟨_, hb, rfl⟩ := h
    exact .collateral hb
  case receipts =>
    simp only [step, act, moveReceipts, bind_eq_ok, revertIf_eq_ok, pure_eq_ok, ok.injEq] at h
    obtain ⟨_, _, _, _, rfl⟩ := h
    exact .receipts

end ReferencePool
