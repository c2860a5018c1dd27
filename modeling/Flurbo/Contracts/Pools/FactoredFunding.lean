import Flurbo.Contracts.Pools.Storage

open Evm Except

namespace Pools

variable {D : Dependencies} {ε : Type}

-- The constructor of `FactoredFunding`: the collateral that a pool has to be funded with.
def requiredFunding (D : Dependencies) (chain : Chain) (token : Address) (events b closeTime : ℕ)
    (order : List ℕ) : Sol ℕ := do
  revertIf (¬ chain.hasCode token ∨ closeTime ≤ chain.timestamp) .invalidConfiguration
  let decimals := D.collateral.decimals
  let initial ← FactoredCost.bounds D.prb events (← QuoteMath.toWad b decimals) [] order
  QuoteMath.fromWadUp initial.upperWad decimals

variable (V : Virtuals D ε) (cfg : Config) (msg : Msg cfg.self)

def requireOpen (s : Storage D ε) (timestamp : ℕ) : Sol Unit := do
  revertIf (¬ s.funded) .notFunded
  revertIf (timestamp ≥ cfg.closesAt) .closed

def requireCovered (w : World D ε) : Sol Unit :=
  revertIf (w.balance cfg.self < V.requiredCollateral w.pool) .uncoveredLiability

-- Moves collateral between a trader and the contract at `self`, and checks both balances.
def transferExact (T : Token) (self trader : Address) (amount : ℕ) (incoming : Bool) (t : T.State) :
    Sol T.State := do
  let poolBefore := T.balanceOf t self
  let traderBefore := T.balanceOf t trader
  let t ←
    if incoming then T.safeTransferFrom t self trader self amount
    else T.safeTransfer t self trader amount
  let poolAfter := T.balanceOf t self
  let traderAfter := T.balanceOf t trader
  if incoming then
    revertIf (poolAfter < poolBefore ∨ poolAfter - poolBefore ≠ amount ∨
      traderAfter > traderBefore ∨ traderBefore - traderAfter ≠ amount) .unsupportedTransfer
  else
    revertIf (poolAfter > poolBefore ∨ poolBefore - poolAfter ≠ amount ∨
      traderAfter < traderBefore ∨ traderAfter - traderBefore ≠ amount) .unsupportedTransfer
  return t

-- `fund` up to its final check.
def fundUnchecked (w : World D ε) : Sol (World D ε) := do
  revertIf w.pool.funded .alreadyFunded
  revertIf (msg.timestamp ≥ cfg.closesAt) .closed
  let token ← transferExact D.collateral cfg.self msg.sender cfg.requiredFunding true w.token
  return ⟨token, { w.pool with funded := true }⟩

def fund (w : World D ε) : Sol (World D ε) := do
  let w ← fundUnchecked cfg msg w
  requireCovered V cfg w
  return w

section Lemmas

variable {V cfg msg} {w w' : World D ε} {u : Unit} {T : Token} {t t' : T.State}
  {self trader : Address} {amount : ℕ}

@[simp]
theorem requireCovered_eq_ok :
    requireCovered V cfg w = .ok u ↔ V.requiredCollateral w.pool ≤ w.balance cfg.self := by
  simp [requireCovered]

theorem transferExact_in (h : transferExact T self trader amount true t = .ok t') :
    T.balanceOf t' self = T.balanceOf t self + amount := by
  simp only [transferExact, if_true, bind_eq_ok, revertIf_eq_ok, pure_eq_ok, ok.injEq] at h
  obtain ⟨_, _, _, h, rfl⟩ := h
  omega

theorem transferExact_out (h : transferExact T self trader amount false t = .ok t') :
    T.balanceOf t' self + amount = T.balanceOf t self := by
  simp only [transferExact, Bool.false_eq_true, if_false, bind_eq_ok, revertIf_eq_ok, pure_eq_ok,
    ok.injEq] at h
  obtain ⟨_, _, _, h, rfl⟩ := h
  omega

-- A transfer that is left out if there is nothing to move.

theorem transferNonzero_in
    (h : (if amount ≠ 0 then transferExact T self trader amount true t else .ok t) = .ok t') :
    T.balanceOf t' self = T.balanceOf t self + amount := by
  split at h
  case isTrue       => exact transferExact_in h
  case isFalse hz => cases h; rw [not_not.mp hz, Nat.add_zero]

theorem transferNonzero_out
    (h : (if amount ≠ 0 then transferExact T self trader amount false t else .ok t) = .ok t') :
    T.balanceOf t' self + amount = T.balanceOf t self := by
  split at h
  case isTrue       => exact transferExact_out h
  case isFalse hz => cases h; rw [not_not.mp hz, Nat.add_zero]

-- An exact token never fails to pay out what the contract has.
theorem transferExact_out_ok (hs : trader ≠ self) (h₀ : trader ≠ 0) (ha : amount ≤ T.balanceOf t self) :
    ∃ t', transferExact T self trader amount false t = .ok t' := by
  have ⟨t', ht⟩ := T.transfer_ok hs.symm h₀ ha
  have ⟨_, h₁, h₂⟩ := T.transfer_exact hs.symm ht
  refine ⟨t', ?_⟩
  simp only [transferExact, Bool.false_eq_true, if_false, ht, bind_eq_ok, revertIf_eq_ok, pure_eq_ok,
    ok.injEq]
  exact ⟨_, rfl, (), by omega, rfl⟩

theorem transferNonzero_out_ok (hs : trader ≠ self) (h₀ : trader ≠ 0)
    (ha : amount ≤ T.balanceOf t self) :
    ∃ t', (if amount ≠ 0 then transferExact T self trader amount false t else .ok t) = .ok t' := by
  split
  case isTrue  => exact transferExact_out_ok hs h₀ ha
  case isFalse => exact ⟨t, rfl⟩

theorem fundUnchecked_eq_ok (h : fundUnchecked cfg msg w = .ok w') :
    w.pool.funded = false ∧ w'.pool = { w.pool with funded := true } ∧
      w'.balance cfg.self = w.balance cfg.self + cfg.requiredFunding := by
  simp only [fundUnchecked, bind_eq_ok, revertIf_eq_ok, pure_eq_ok, ok.injEq] at h
  obtain ⟨_, hf, _, _, _, ht, rfl⟩ := h
  exact ⟨by simpa using hf, rfl, transferExact_in ht⟩

theorem fundUnchecked_open (h : fundUnchecked cfg msg w = .ok w') : msg.timestamp < cfg.closesAt := by
  simp only [fundUnchecked, bind_eq_ok, revertIf_eq_ok, not_le] at h
  obtain ⟨_, _, _, ho, _⟩ := h
  exact ho

end Lemmas

end Pools
