import Flurbo.Contracts.Dependencies
import Flurbo.Contracts.FactoredPositions
import Flurbo.Contracts.FactoredQuote.Basic

open Evm Except

-- A receipt token that a pool has created for a base claim.
structure BaseToken (D : Dependencies) where
  address : Address
  state   : D.receipt.State

namespace Pools

-- The immutables that all pools share.
structure Config where
  self                : Address
  collateral          : Address
  collateralDecimals  : ℕ
  eventCount          : ℕ
  liquidity           : ℕ
  requiredFunding     : ℕ
  closesAt            : ℕ
  order               : List ℕ
  resolver            : Address
  settlementRulesHash : ℕ
  deriving DecidableEq

-- The storage that all pools share. What a single kind of pool adds to it is of type `ε`.
structure Storage (D : Dependencies) (ε : Type) where
  funded           : Bool
  maximumLiability : ℕ
  positions        : FactoredPositions.Book
  storedFactors    : List Factor
  resolved         : Bool
  resolvedState    : ℕ
  remainingPayout  : ℕ
  baseTokens       : Claim → Option (BaseToken D)
  ext              : ε

-- A pool with the collateral token it is in.
structure World (D : Dependencies) (ε : Type) where
  token : D.collateral.State
  pool  : Storage D ε

-- The functions of `FactoredFunding` and `FactoredTrading` that the pools override.
structure Virtuals (D : Dependencies) (ε : Type) where
  requiredCollateral : Storage D ε → ℕ
  priceTrade         : Storage D ε → (scope mask quantity limit : ℕ) → (isBuy : Bool) →
                         Sol (FactoredQuote.Quote × ℕ)
  afterTrade         : (reserve : ℕ) → Storage D ε → Sol (Storage D ε)

variable {D : Dependencies} {ε : Type}

def Storage.initial (ext : ε) : Storage D ε where
  funded           := false
  maximumLiability := 0
  positions        := fun _ _ => 0
  storedFactors    := []
  resolved         := false
  resolvedState    := 0
  remainingPayout  := 0
  baseTokens       := fun _ => none
  ext              := ext

def World.balance (w : World D ε) (account : Address) : ℕ :=
  D.collateral.balanceOf w.token account

-- The loops over the stored tables that act on the first table of a scope and stop there. What
-- they do without such a table is `absent`.
def onTable (scope : ℕ) (act : Factor → Sol Factor) (absent : Sol (List Factor)) :
    List Factor → Sol (List Factor)
  | []      => absent
  | f :: fs => do
    if f.scope = scope then
      return (← act f) :: fs
    else
      return f :: (← onTable scope act absent fs)

section Lemmas

variable {scope : ℕ} {act : Factor → Sol Factor} {absent : Sol (List Factor)} {fs fs' : List Factor}

theorem onTable_eq_ok (h : onTable scope act absent fs = .ok fs') :
    (∃ gs, (∀ f ∈ fs, f.scope ≠ scope) ∧ absent = .ok gs ∧ fs' = fs ++ gs) ∨
    (∃ l f f' r, f.scope = scope ∧ act f = .ok f' ∧ fs = l ++ f :: r ∧ fs' = l ++ f' :: r) := by
  induction fs generalizing fs'
  case nil          => exact .inl ⟨fs', by simp, h, by simp⟩
  case cons f fs hi =>
    rw [onTable] at h
    split at h
    case isTrue hf =>
      simp only [bind_eq_ok, pure_eq_ok, ok.injEq] at h
      obtain ⟨f', hf', rfl⟩ := h
      exact .inr ⟨[], f, f', fs, hf, hf', rfl, rfl⟩
    case isFalse hf =>
      simp only [bind_eq_ok, pure_eq_ok, ok.injEq] at h
      obtain ⟨gs, hg, rfl⟩ := h
      obtain ⟨gs', hn, ha, rfl⟩ | ⟨l, g, g', r, hgs, ha, rfl, rfl⟩ := hi hg
      · exact .inl ⟨gs', List.forall_mem_cons.mpr ⟨hf, hn⟩, ha, rfl⟩
      · exact .inr ⟨f :: l, g, g', r, hgs, ha, rfl, rfl⟩

theorem onTable_of_mem {f f' : Factor} {l r : List Factor} (hl : ∀ g ∈ l, g.scope ≠ scope)
    (hf : f.scope = scope) (ha : act f = .ok f') :
    onTable scope act absent (l ++ f :: r) = .ok (l ++ f' :: r) := by
  induction l
  case nil         => simp [onTable, hf, ha]
  case cons g l hi =>
    have ⟨hg, hl⟩ := List.forall_mem_cons.mp hl
    simp [onTable, hg, hi hl]

end Lemmas

end Pools
