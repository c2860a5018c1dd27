import Flurbo.Contracts.Pools.FactoredTrading

-- Receipts for claims on single events. `FactoredPool` and `PilotPool` share this code.

open Evm Except FactoredPositions

namespace Pools

variable {D : Dependencies} {ε : Type}

section Definitions

variable (cfg : Config) (msg : Msg cfg.self)

def baseClaim (eventIndex : ℕ) (outcome : Bool) : Sol Claim := do
  revertIf (eventIndex ≥ cfg.eventCount) .invalidBaseEvent
  return ⟨1 <<< eventIndex, if outcome then 2 else 1⟩

-- `FactoredBaseTokenFactory.create` with the constructor of the token, at the address that the new
-- contract gets. The factory passes a scope and a mask that the constructor accepts.
def createReceipt (D : Dependencies) (eventIndex decimals : ℕ) (created : Address) :
    Sol (BaseToken D) := do
  revertIf (eventIndex ≥ 32) .invalidEvent
  revertIf (decimals > 18) .invalidIdentity
  return ⟨created, D.receipt.initial⟩

def createBaseToken (eventIndex : ℕ) (outcome : Bool) (created : Address) (w : World D ε) :
    Sol (World D ε × Address) := do
  let claim ← baseClaim cfg eventIndex outcome
  match w.pool.baseTokens claim with
  | some token => return (w, token.address)
  | none       =>
    let token ← createReceipt D eventIndex cfg.collateralDecimals created
    let baseTokens := Function.update w.pool.baseTokens claim (some token)
    return ({ w with pool := { w.pool with baseTokens } }, created)

def baseToken (claim : Claim) (s : Storage D ε) : Sol (BaseToken D) :=
  match s.baseTokens claim with
  | some token => return token
  | none       => .error .baseTokenNotCreated

def wrapBase (eventIndex : ℕ) (outcome : Bool) (quantity : ℕ) (w : World D ε) :
    Sol (World D ε) := do
  let claim ← baseClaim cfg eventIndex outcome
  let token ← baseToken claim w.pool
  let positions ← debit w.pool.positions msg.sender claim.scope claim.mask quantity
  let positions ← credit positions token.address claim.scope claim.mask quantity
  let state ← D.receipt.mint token.state msg.sender quantity
  let baseTokens := Function.update w.pool.baseTokens claim (some { token with state })
  return { w with pool := { w.pool with positions, baseTokens } }

def unwrapBase (eventIndex : ℕ) (outcome : Bool) (quantity : ℕ) (w : World D ε) :
    Sol (World D ε) := do
  let claim ← baseClaim cfg eventIndex outcome
  let token ← baseToken claim w.pool
  revertIf (quantity = 0) .invalidQuantity
  let state ← D.receipt.burn token.state msg.sender quantity
  let positions ← debit w.pool.positions token.address claim.scope claim.mask quantity
  let positions ← credit positions msg.sender claim.scope claim.mask quantity
  let baseTokens := Function.update w.pool.baseTokens claim (some { token with state })
  return { w with pool := { w.pool with positions, baseTokens } }

end Definitions

section Lemmas

variable {cfg : Config} {msg : Msg cfg.self} {w w' : World D ε} {claim : Claim} {token : BaseToken D}
  {eventIndex quantity : ℕ} {outcome : Bool} {created address : Address}

theorem baseClaim_eq_ok (h : baseClaim cfg eventIndex outcome = .ok claim) :
    eventIndex < cfg.eventCount ∧ claim = ⟨2 ^ eventIndex, if outcome then 2 else 1⟩ := by
  simp only [baseClaim, bind_eq_ok, revertIf_eq_ok, pure_eq_ok, ok.injEq, Nat.one_shiftLeft, not_le] at h
  obtain ⟨_, he, rfl⟩ := h
  exact ⟨he, rfl⟩

theorem createBaseToken_eq_ok (h : createBaseToken cfg eventIndex outcome created w = .ok (w', address)) :
    ∃ baseTokens, w' = { w with pool := { w.pool with baseTokens } } := by
  simp only [createBaseToken, bind_eq_ok] at h
  obtain ⟨claim, _, h⟩ := h
  split at h
  · cases h; exact ⟨_, rfl⟩
  · simp only [bind_eq_ok, pure_eq_ok, ok.injEq, Prod.mk.injEq] at h
    obtain ⟨_, _, rfl, _⟩ := h
    exact ⟨_, rfl⟩

-- Wrapping and unwrapping move a claim between its owner and the escrow of its receipts.
theorem wrapBase_eq_ok (h : wrapBase cfg msg eventIndex outcome quantity w = .ok w') :
    ∃ claim baseTokens positions mid owner owner', baseClaim cfg eventIndex outcome = .ok claim ∧
      w' = { w with pool := { w.pool with positions, baseTokens } } ∧
      debit w.pool.positions owner claim.scope claim.mask quantity = .ok mid ∧
      credit mid owner' claim.scope claim.mask quantity = .ok positions := by
  simp only [wrapBase, bind_eq_ok, pure_eq_ok, ok.injEq] at h
  obtain ⟨claim, hb, token, _, mid, hd, positions, hc, _, _, rfl⟩ := h
  exact ⟨claim, _, positions, mid, _, _, hb, rfl, hd, hc⟩

theorem unwrapBase_eq_ok (h : unwrapBase cfg msg eventIndex outcome quantity w = .ok w') :
    ∃ claim baseTokens positions mid owner owner', baseClaim cfg eventIndex outcome = .ok claim ∧
      w' = { w with pool := { w.pool with positions, baseTokens } } ∧
      debit w.pool.positions owner claim.scope claim.mask quantity = .ok mid ∧
      credit mid owner' claim.scope claim.mask quantity = .ok positions := by
  simp only [unwrapBase, bind_eq_ok, pure_eq_ok, ok.injEq] at h
  obtain ⟨claim, hb, token, _, _, _, _, _, mid, hd, positions, hc, rfl⟩ := h
  exact ⟨claim, _, positions, mid, _, _, hb, rfl, hd, hc⟩

end Lemmas

end Pools
