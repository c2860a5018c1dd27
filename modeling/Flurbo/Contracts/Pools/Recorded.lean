import Flurbo.Contracts.Pools.BiasUpdate
import Flurbo.Contracts.Pools.Ledgers

-- What the calls to the three pools do to the positions and to the receipts.

open Evm Except FactoredPositions

namespace Pools

variable {D : Dependencies} {ε : Type}

-- The address of a token that a call may create.
def Action.creates : Action D → Option Address
  | .createBaseToken _ _ created => some created
  | _                            => none

def FactoredPool.Call.creates : FactoredPool.Call D → Option Address
  | .action a => a.creates
  | _         => none

def FundedFactoredPool.Call.creates : FundedFactoredPool.Call D → Option Address
  | .base call => call.creates
  | _          => none

def PilotPool.Call.creates : PilotPool.Call D → Option Address
  | .action a => a.creates
  | _         => none

-- A successful call by `sender`, by what it does to positions and receipts. Tokens are only created
-- at the given address.
inductive Recorded (cfg : Config) (sender : Address) (created : Option Address) (s s' : Storage D ε) :
    Prop
  | none (hp : s'.positions = s.positions) (hb : s'.baseTokens = s.baseTokens)
  | trade {scope mask quantity isBuy}
    (hp : trade s.positions sender scope mask quantity isBuy = .ok s'.positions)
    (hb : s'.baseTokens = s.baseTokens)
  | create {eventIndex outcome claim address}
    (hc : baseClaim cfg eventIndex outcome = .ok claim) (ha : created = some address)
    (hn : s.baseTokens claim = none) (hp : s'.positions = s.positions)
    (hb : s'.baseTokens = Function.update s.baseTokens claim (some ⟨address, D.receipt.initial⟩))
  | wrap {claim token mid state quantity}
    (ht : s.baseTokens claim = some token)
    (hd : debit s.positions sender claim.scope claim.mask quantity = .ok mid)
    (hc : credit mid token.address claim.scope claim.mask quantity = .ok s'.positions)
    (hm : D.receipt.mint token.state sender quantity = .ok state)
    (hb : s'.baseTokens = Function.update s.baseTokens claim (some { token with state }))
  | unwrap {claim token mid state quantity}
    (ht : s.baseTokens claim = some token)
    (hd : debit s.positions token.address claim.scope claim.mask quantity = .ok mid)
    (hc : credit mid sender claim.scope claim.mask quantity = .ok s'.positions)
    (hm : D.receipt.burn token.state sender quantity = .ok state)
    (hb : s'.baseTokens = Function.update s.baseTokens claim (some { token with state }))
  | receipts {claim token state}
    (ht : s.baseTokens claim = some token)
    (hs : D.receipt.totalSupply state = D.receipt.totalSupply token.state)
    (hp : s'.positions = s.positions)
    (hb : s'.baseTokens = Function.update s.baseTokens claim (some { token with state }))

section Steps

variable {V : Virtuals D ε} {cfg : Config} {msg : Msg cfg.self} {w w' : World D ε} {claim : Claim}
  {token : BaseToken D} {eventIndex quantity scope mask reserve : ℕ} {outcome isBuy : Bool}
  {address : Address} {quote : FactoredQuote.Quote} {priced applied : Storage D ε}
  {created : Option Address}

theorem baseToken_eq_ok {s : Storage D ε} (h : baseToken claim s = .ok token) :
    s.baseTokens claim = some token := by
  unfold baseToken at h
  split at h
  case h_1 ht => cases h; exact ht
  case h_2    => cases h

-- Wrapping moves the claim to the address of its token and mints as many receipts.
theorem wrapBase_recorded (h : wrapBase cfg msg eventIndex outcome quantity w = .ok w') :
    Recorded cfg msg.sender created w.pool w'.pool := by
  simp only [wrapBase, bind_eq_ok, pure_eq_ok, ok.injEq] at h
  obtain ⟨claim, _, token, ht, mid, hd, positions, hc, state, hm, rfl⟩ := h
  exact .wrap (baseToken_eq_ok ht) hd hc hm rfl

theorem unwrapBase_recorded (h : unwrapBase cfg msg eventIndex outcome quantity w = .ok w') :
    Recorded cfg msg.sender created w.pool w'.pool := by
  simp only [unwrapBase, bind_eq_ok, pure_eq_ok, ok.injEq] at h
  obtain ⟨claim, _, token, ht, _, _, state, hm, mid, hd, positions, hc, rfl⟩ := h
  exact .unwrap (baseToken_eq_ok ht) hd hc hm rfl

theorem createBaseToken_recorded {result : Address}
    (h : createBaseToken cfg eventIndex outcome address w = .ok (w', result)) :
    Recorded cfg msg.sender (some address) w.pool w'.pool := by
  simp only [createBaseToken, bind_eq_ok] at h
  obtain ⟨claim, hc, h⟩ := h
  split at h
  case h_1    => cases h; exact .none rfl rfl
  case h_2 hn =>
    simp only [createReceipt, bind_eq_ok, pure_eq_ok, ok.injEq, Prod.mk.injEq] at h
    obtain ⟨_, ⟨_, _, _, _, rfl⟩, rfl, _⟩ := h
    exact .create hc rfl hn rfl rfl

theorem applyQuote_baseTokens {s s' : Storage D ε} (h : applyQuote quote scope s = .ok s') :
    s'.baseTokens = s.baseTokens := by
  simp only [applyQuote, bind_eq_ok, pure_eq_ok, ok.injEq] at h
  obtain ⟨_, _, _, _, _, _, _, _, _, _, rfl⟩ := h
  rfl

theorem Traded.recorded {bias : ε → List Factor} (hV : V.Sound cfg bias)
    (h : Traded V cfg msg scope mask quantity isBuy w w' quote reserve priced applied) :
    Recorded cfg msg.sender created w.pool w'.pool := by
  have ⟨ext, hext, _⟩ := hV.after h.after_ok
  have hb := applyQuote_baseTokens h.applied_ok
  exact .trade (by rw [hext]; exact h.position) (by rw [hext]; exact hb)

theorem act_recorded {bias : ε → List Factor} (hV : V.Sound cfg bias) {a : Action D}
    (h : act V cfg msg w a = .ok w') : Recorded cfg msg.sender a.creates w.pool w'.pool := by
  cases a
  case fund =>
    simp only [act, fund, bind_eq_ok, pure_eq_ok, ok.injEq] at h
    obtain ⟨_, h, _, _, rfl⟩ := h
    obtain ⟨_, hp, _⟩ := fundUnchecked_eq_ok h
    exact .none (by rw [hp]) (by rw [hp])
  case buy =>
    simp only [act, buy, map_eq_ok, bind_eq_ok, pure_eq_ok, ok.injEq] at h
    obtain ⟨_, ⟨⟨_, _⟩, h, _, _, rfl⟩, rfl⟩ := h
    obtain ⟨_, _, _, _, _, h⟩ := buyUnchecked_eq_ok h
    exact h.recorded hV
  case sell =>
    simp only [act, sell, map_eq_ok, bind_eq_ok, pure_eq_ok, ok.injEq] at h
    obtain ⟨_, ⟨⟨_, _⟩, h, _, _, rfl⟩, rfl⟩ := h
    obtain ⟨_, _, _, _, _, h⟩ := sellUnchecked_eq_ok h
    exact h.recorded hV
  case createBaseToken =>
    simp only [act, map_eq_ok] at h
    obtain ⟨⟨_, _⟩, h, rfl⟩ := h
    exact createBaseToken_recorded h
  case wrapBase   => exact wrapBase_recorded h
  case unwrapBase => exact unwrapBase_recorded h
  case collateral =>
    simp only [act, moveCollateral, bind_eq_ok, pure_eq_ok, ok.injEq] at h
    obtain ⟨_, _, rfl⟩ := h
    exact .none rfl rfl
  case receipts =>
    simp only [act, moveReceipts, bind_eq_ok, revertIf_eq_ok, pure_eq_ok, ok.injEq, not_not] at h
    obtain ⟨_, ht, _, hs, rfl⟩ := h
    exact .receipts (baseToken_eq_ok ht) hs rfl rfl

theorem Resolved.recorded {timestamp payout state : ℕ} {ext : ε}
    (h : Resolved cfg timestamp payout state ext w w') : Recorded cfg msg.sender created w.pool w'.pool := by
  rw [h.eq]
  exact .none rfl rfl

theorem Redeemed.recorded {paid : ℕ} (h : Redeemed cfg msg.sender scope mask quantity paid w w') :
    Recorded cfg msg.sender created w.pool w'.pool := by
  have hp : trade w.pool.positions msg.sender scope mask quantity false = .ok w'.pool.positions := h.position
  exact .trade hp (by rw [h.frame])

theorem FactoredPool.step_recorded {bias : ε → List Factor} (hV : V.Sound cfg bias)
    {call : FactoredPool.Call D} (h : FactoredPool.step V cfg w (msg, call) = .ok w') :
    Recorded cfg msg.sender call.creates w.pool w'.pool := by
  cases call
  case action  => exact act_recorded hV h
  case resolve => exact (FactoredPool.resolve_eq_ok h).right.recorded
  case redeem  =>
    obtain ⟨⟨_, _⟩, hr, rfl⟩ := map_eq_ok.mp h
    exact (FactoredPool.redeem_eq_ok hr).left.recorded

end Steps

theorem PilotPool.step_recorded {cfg : Config} {msg : Msg cfg.self} {w w' : World D Void}
    {call : PilotPool.Call D} (h : PilotPool.step cfg w (msg, call) = .ok w') :
    Recorded cfg msg.sender call.creates w.pool w'.pool := by
  cases call
  case action  => exact act_recorded uniform_sound h
  case resolve =>
    have ⟨_, _, _, hr⟩ := PilotPool.resolve_eq_ok h
    exact hr.recorded
  case redeem  =>
    obtain ⟨⟨_, _⟩, hr, rfl⟩ := map_eq_ok.mp h
    exact (PilotPool.redeem_eq_ok hr).left.recorded

theorem FundedFactoredPool.step_recorded {cfg : FundedConfig} {msg : Msg cfg.self}
    {w w' : World D Pricing} {call : FundedFactoredPool.Call D}
    (h : FundedFactoredPool.step cfg w (msg, call) = .ok w') :
    Recorded cfg.toConfig msg.sender call.creates w.pool w'.pool := by
  cases call
  case base       => exact FactoredPool.step_recorded virtuals_sound h
  case updateBias =>
    obtain ⟨⟨_, _⟩, hu, rfl⟩ := map_eq_ok.mp h
    have hu := updateBias_eq_ok hu
    exact .none (by rw [hu.pool_eq]) (by rw [hu.pool_eq])

end Pools
