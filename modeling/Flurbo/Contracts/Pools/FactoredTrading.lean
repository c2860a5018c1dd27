import Flurbo.Contracts.FactoredQuote.Priced
import Flurbo.Contracts.Pools.FactoredFunding
import Flurbo.Contracts.Tally

open Evm Except
open FactoredQuote (Market Quote)

namespace Pools

variable {D : Dependencies} {ε : Type}

section Definitions

variable (V : Virtuals D ε) (cfg : Config) (msg : Msg cfg.self)

def market (s : Storage D ε) : Market :=
  ⟨cfg.eventCount, cfg.liquidity, cfg.collateralDecimals, s.storedFactors, cfg.order⟩

def requireTrading (deadline : ℕ) (w : World D ε) : Sol Unit := do
  requireOpen cfg w.pool msg.timestamp
  revertIf (msg.timestamp > deadline) .expiredDeadline
  requireCovered V cfg w

-- Writes the table of the changed scope, which a quote lists last.
def applyQuote (quote : Quote) (scope : ℕ) (s : Storage D ε) : Sol (Storage D ε) := do
  let changed ← nth quote.factorsAfter (← checkedSub quote.factorsAfter.length 1)
  revertIf (changed.scope ≠ scope) .panic
  let write (f : Factor) : Sol Factor := do
    revertIf (f.values.length ≠ changed.values.length) .panic
    return { f with values := changed.values }
  let storedFactors ← onTable scope write (return [⟨scope, changed.values⟩]) s.storedFactors
  revertIf (storedFactors.length ≠ quote.factorsAfter.length) .panic
  return { s with storedFactors, maximumLiability := quote.maxLiabilityAfter }

-- The part of a trade that follows its pricing and the change of the trader's position, up to the
-- final check. The result is the collateral paid or received.
def settleTrade (quote : Quote) (reserve scope : ℕ) (isBuy : Bool) (w : World D ε) :
    Sol (World D ε × ℕ) := do
  let pool ← applyQuote quote scope w.pool
  let pool ← V.afterTrade reserve pool
  let token ← transferExact D.collateral cfg.self msg.sender quote.collateral isBuy w.token
  return (⟨token, pool⟩, quote.collateral)

def buyUnchecked (scope mask quantity maxCost deadline : ℕ) (w : World D ε) :
    Sol (World D ε × ℕ) := do
  requireTrading V cfg msg deadline w
  let (quote, reserve) ← V.priceTrade w.pool scope mask quantity maxCost true
  let positions ← FactoredPositions.credit w.pool.positions msg.sender scope mask quantity
  settleTrade V cfg msg quote reserve scope true { w with pool := { w.pool with positions } }

def sellUnchecked (scope mask quantity minProceeds deadline : ℕ) (w : World D ε) :
    Sol (World D ε × ℕ) := do
  requireTrading V cfg msg deadline w
  let positions ← FactoredPositions.debit w.pool.positions msg.sender scope mask quantity
  let w := { w with pool := { w.pool with positions } }
  let (quote, reserve) ← V.priceTrade w.pool scope mask quantity minProceeds false
  settleTrade V cfg msg quote reserve scope false w

def buy (scope mask quantity maxCost deadline : ℕ) (w : World D ε) : Sol (World D ε × ℕ) := do
  let (w, paid) ← buyUnchecked V cfg msg scope mask quantity maxCost deadline w
  requireCovered V cfg w
  return (w, paid)

def sell (scope mask quantity minProceeds deadline : ℕ) (w : World D ε) :
    Sol (World D ε × ℕ) := do
  let (w, received) ← sellUnchecked V cfg msg scope mask quantity minProceeds deadline w
  requireCovered V cfg w
  return (w, received)

end Definitions

section Lemmas

variable {V : Virtuals D ε} {cfg : Config} {msg : Msg cfg.self} {w w' : World D ε}
  {s s' : Storage D ε} {quote : Quote} {book : FactoredPositions.Book} {values : List ℕ}
  {scope mask quantity limit deadline paid reserve events : ℕ} {isBuy : Bool}

-- What a trade did up to its final check. It was priced in the storage `priced`, which differs from
-- the one it started in by the positions only.
structure Traded (V : Virtuals D ε) (cfg : Config) (msg : Msg cfg.self) (scope mask quantity : ℕ)
    (isBuy : Bool) (w w' : World D ε) (quote : Quote) (reserve : ℕ)
    (priced applied : Storage D ε) : Prop where
  funded     : w.pool.funded
  isOpen     : msg.timestamp < cfg.closesAt
  covered    : V.requiredCollateral w.pool ≤ w.balance cfg.self
  priced_eq  : ∃ positions, priced = { w.pool with positions }
  priced_ok  : ∃ limit, V.priceTrade priced scope mask quantity limit isBuy = .ok (quote, reserve)
  position   : FactoredPositions.trade w.pool.positions msg.sender scope mask quantity isBuy =
                 .ok applied.positions
  applied_ok : applyQuote quote scope { w.pool with positions := applied.positions } = .ok applied
  after_ok   : V.afterTrade reserve applied = .ok w'.pool
  moved      : Moved isBuy quote.collateral (w.balance cfg.self) (w'.balance cfg.self)

theorem requireTrading_eq_ok {u : Unit} (h : requireTrading V cfg msg deadline w = .ok u) :
    w.pool.funded ∧ msg.timestamp < cfg.closesAt ∧
      V.requiredCollateral w.pool ≤ w.balance cfg.self := by
  simp only [requireTrading, requireOpen, bind_eq_ok, revertIf_eq_ok, requireCovered_eq_ok] at h
  obtain ⟨_, ⟨_, hf, ho⟩, _, _, hc⟩ := h
  exact ⟨not_not.mp hf, not_le.mp ho, hc⟩

-- The stored tables are those of the quote, in another order.
theorem applyQuote_eq_ok {m : Market} (h : applyQuote quote scope s = .ok s')
    (ht : Tally events s.storedFactors book) (hm : m.factors = s.storedFactors)
    (hu : FactoredQuote.Updated m scope mask quantity isBuy quote.factorsAfter values) :
    s'.storedFactors.Perm quote.factorsAfter ∧
      s' = { s with storedFactors    := s'.storedFactors,
                    maximumLiability := quote.maxLiabilityAfter } := by
  simp only [applyQuote, bind_eq_ok, nth_eq_ok, checkedSub_eq_ok, pure_eq_ok, ok.injEq] at h
  obtain ⟨_, ⟨_, rfl⟩, changed, hc, _, _, stored, hw, _, _, rfl⟩ := h
  refine ⟨?_, rfl⟩
  rw [hu.after_eq, hm] at hc ⊢
  cases (show changed = ⟨scope, values⟩ by simpa [eq_comm] using hc)
  obtain ⟨gs, hn, ha, rfl⟩ | ⟨l, f, f', r, rfl, ha, he, rfl⟩ := onTable_eq_ok hw
  · have hf : s.storedFactors.filter (·.scope ≠ scope) = s.storedFactors := by
      simpa [List.filter_eq_self] using hn
    cases ha
    rw [hf]
  · simp only [bind_eq_ok, ok.injEq] at ha
    obtain ⟨_, _, rfl⟩ := ha
    have hd := ht.split_of_eq he
    have hf : (l ++ f :: r).filter (·.scope ≠ f.scope) = l ++ r := by
      rw [List.filter_append, List.filter_cons_of_neg (by simp), ← List.filter_append,
        List.filter_eq_self]
      simpa using hd
    rw [he, hf]
    exact List.perm_middle.trans (List.perm_append_singleton ..).symm

theorem applyQuote_positions (h : applyQuote quote scope s = .ok s') : s'.positions = s.positions := by
  simp only [applyQuote, bind_eq_ok, pure_eq_ok, ok.injEq] at h
  obtain ⟨_, _, _, _, _, _, _, _, _, _, rfl⟩ := h
  rfl

theorem applyQuote_ext (h : applyQuote quote scope s = .ok s') : s'.ext = s.ext := by
  simp only [applyQuote, bind_eq_ok, pure_eq_ok, ok.injEq] at h
  obtain ⟨_, _, _, _, _, _, _, _, _, _, rfl⟩ := h
  rfl

theorem settleTrade_eq_ok (h : settleTrade V cfg msg quote reserve scope isBuy w = .ok (w', paid)) :
    paid = quote.collateral ∧ Moved isBuy quote.collateral (w.balance cfg.self) (w'.balance cfg.self) ∧
      ∃ s, applyQuote quote scope w.pool = .ok s ∧ V.afterTrade reserve s = .ok w'.pool := by
  simp only [settleTrade, bind_eq_ok, pure_eq_ok, ok.injEq, Prod.mk.injEq] at h
  obtain ⟨s, hs, _, ha, _, ht, rfl, rfl⟩ := h
  refine ⟨rfl, ?_, s, hs, ha⟩
  cases isBuy
  case false => exact transferExact_out ht
  case true  => exact transferExact_in ht

theorem buyUnchecked_eq_ok
    (h : buyUnchecked V cfg msg scope mask quantity limit deadline w = .ok (w', paid)) :
    ∃ quote reserve priced applied, paid = quote.collateral ∧
      Traded V cfg msg scope mask quantity true w w' quote reserve priced applied := by
  simp only [buyUnchecked, bind_eq_ok] at h
  obtain ⟨_, ht, ⟨quote, reserve⟩, hp, book, hb, h⟩ := h
  obtain ⟨hf, ho, hc⟩ := requireTrading_eq_ok ht
  obtain ⟨rfl, hm, s, hs, ha⟩ := settleTrade_eq_ok h
  have hpos := applyQuote_positions hs
  exact ⟨quote, reserve, _, s, rfl, hf, ho, hc, ⟨_, rfl⟩, ⟨_, hp⟩, hpos ▸ hb, hpos ▸ hs, ha, hm⟩

theorem sellUnchecked_eq_ok
    (h : sellUnchecked V cfg msg scope mask quantity limit deadline w = .ok (w', paid)) :
    ∃ quote reserve priced applied, paid = quote.collateral ∧
      Traded V cfg msg scope mask quantity false w w' quote reserve priced applied := by
  simp only [sellUnchecked, bind_eq_ok] at h
  obtain ⟨_, ht, book, hb, ⟨quote, reserve⟩, hp, h⟩ := h
  obtain ⟨hf, ho, hc⟩ := requireTrading_eq_ok ht
  obtain ⟨rfl, hm, s, hs, ha⟩ := settleTrade_eq_ok h
  have hpos := applyQuote_positions hs
  exact ⟨quote, reserve, _, s, rfl, hf, ho, hc, ⟨book, rfl⟩, ⟨_, hp⟩, hpos ▸ hb, hpos ▸ hs, ha, hm⟩

end Lemmas

end Pools
