import Flurbo.Contracts.Pools.BaseTokens
import Flurbo.Library.Run

-- The calls that all pools have in common.

open Evm Except

namespace Pools

variable {D : Dependencies} {ε : Type}

-- Besides calls to the pool, the collateral and the receipts may change through calls to their own
-- contracts. Nobody but the pool can take collateral from it, and only the pool mints and burns
-- receipts.
inductive Action (D : Dependencies)
  | fund
  | buy (scope mask quantity maxCost deadline : ℕ)
  | sell (scope mask quantity minProceeds deadline : ℕ)
  | createBaseToken (eventIndex : ℕ) (outcome : Bool) (created : Address)
  | wrapBase (eventIndex : ℕ) (outcome : Bool) (quantity : ℕ)
  | unwrapBase (eventIndex : ℕ) (outcome : Bool) (quantity : ℕ)
  | collateral (token : D.collateral.State)
  | receipts (claim : Claim) (state : D.receipt.State)

variable (V : Virtuals D ε) (cfg : Config)

-- Collateral moves between other accounts, or into the pool as a donation.
def moveCollateral (token : D.collateral.State) (w : World D ε) : Sol (World D ε) := do
  revertIf (D.collateral.balanceOf token cfg.self < w.balance cfg.self) .token
  return { w with token }

def moveReceipts (claim : Claim) (state : D.receipt.State) (w : World D ε) : Sol (World D ε) := do
  let token ← baseToken claim w.pool
  revertIf (D.receipt.totalSupply state ≠ D.receipt.totalSupply token.state) .token
  let baseTokens := Function.update w.pool.baseTokens claim (some { token with state })
  return { w with pool := { w.pool with baseTokens } }

def act (msg : Msg cfg.self) (w : World D ε) : Action D → Sol (World D ε)
  | .fund                                           => fund V cfg msg w
  | .buy scope mask quantity maxCost deadline       =>
    Prod.fst <$> buy V cfg msg scope mask quantity maxCost deadline w
  | .sell scope mask quantity minProceeds deadline  =>
    Prod.fst <$> sell V cfg msg scope mask quantity minProceeds deadline w
  | .createBaseToken eventIndex outcome created     =>
    Prod.fst <$> createBaseToken cfg eventIndex outcome created w
  | .wrapBase eventIndex outcome quantity           => wrapBase cfg msg eventIndex outcome quantity w
  | .unwrapBase eventIndex outcome quantity         =>
    unwrapBase cfg msg eventIndex outcome quantity w
  | .collateral token                               => moveCollateral cfg token w
  | .receipts claim state                           => moveReceipts claim state w

-- What a successful call did, by the parts of the state that it concerns.
inductive Acted (V : Virtuals D ε) (cfg : Config) (msg : Msg cfg.self) (w : World D ε) :
    World D ε → Prop
  | fund {w'} (h : fundUnchecked cfg msg w = .ok w') : Acted V cfg msg w w'
  | trade {scope mask quantity isBuy quote reserve priced applied w'}
    (h : Traded V cfg msg scope mask quantity isBuy w w' quote reserve priced applied) :
    Acted V cfg msg w w'
  | escrow {eventIndex outcome claim quantity owner owner' mid positions baseTokens}
    (hb : baseClaim cfg eventIndex outcome = .ok claim)
    (hd : FactoredPositions.debit w.pool.positions owner claim.scope claim.mask quantity = .ok mid)
    (hc : FactoredPositions.credit mid owner' claim.scope claim.mask quantity = .ok positions) :
    Acted V cfg msg w { w with pool := { w.pool with positions, baseTokens } }
  | receipts {baseTokens} : Acted V cfg msg w { w with pool := { w.pool with baseTokens } }
  | collateral {token} (h : w.balance cfg.self ≤ D.collateral.balanceOf token cfg.self) :
    Acted V cfg msg w { w with token }

variable {V cfg} {msg : Msg cfg.self} {w w' : World D ε}

theorem act_eq_ok {a : Action D} (h : act V cfg msg w a = .ok w') : Acted V cfg msg w w' := by
  cases a
  case fund =>
    simp only [act, fund, bind_eq_ok, pure_eq_ok, ok.injEq] at h
    obtain ⟨_, h, _, _, rfl⟩ := h
    exact .fund h
  case buy =>
    simp only [act, buy, map_eq_ok, bind_eq_ok, pure_eq_ok, ok.injEq] at h
    obtain ⟨_, ⟨⟨_, _⟩, h, _, _, rfl⟩, rfl⟩ := h
    obtain ⟨_, _, _, _, _, h⟩ := buyUnchecked_eq_ok h
    exact .trade h
  case sell =>
    simp only [act, sell, map_eq_ok, bind_eq_ok, pure_eq_ok, ok.injEq] at h
    obtain ⟨_, ⟨⟨_, _⟩, h, _, _, rfl⟩, rfl⟩ := h
    obtain ⟨_, _, _, _, _, h⟩ := sellUnchecked_eq_ok h
    exact .trade h
  case createBaseToken =>
    simp only [act, map_eq_ok] at h
    obtain ⟨⟨_, _⟩, h, rfl⟩ := h
    obtain ⟨_, rfl⟩ := createBaseToken_eq_ok h
    exact .receipts
  case wrapBase =>
    obtain ⟨_, _, _, _, _, _, hb, rfl, hd, hc⟩ := wrapBase_eq_ok h
    exact .escrow hb hd hc
  case unwrapBase =>
    obtain ⟨_, _, _, _, _, _, hb, rfl, hd, hc⟩ := unwrapBase_eq_ok h
    exact .escrow hb hd hc
  case collateral =>
    simp only [act, moveCollateral, bind_eq_ok, revertIf_eq_ok, pure_eq_ok, ok.injEq, not_lt] at h
    obtain ⟨_, h, rfl⟩ := h
    exact .collateral h
  case receipts =>
    simp only [act, moveReceipts, bind_eq_ok, revertIf_eq_ok, pure_eq_ok, ok.injEq] at h
    obtain ⟨_, _, _, _, rfl⟩ := h
    exact .receipts

end Pools
