import Flurbo.Contracts.FactoredCost.Basic
import Flurbo.Library.Holdings

open Evm Except
open FactoredCost (popcount project)

-- A claim on local outcomes: bit `j` of the mask is set if the claim pays in the `j`-th local state
-- of its scope. Balances are kept under the hash of a claim, for which the claim itself stands here.
structure Claim where
  scope : ℕ
  mask  : ℕ
  deriving DecidableEq, Repr

namespace FactoredPositions

abbrev Book := Address → Claim → ℕ

def key (scope mask : ℕ) : Sol Claim := do
  let size := popcount scope
  revertIf (size = 0 ∨ size > 3 ∨ mask = 0 ∨ mask ≥ 1 <<< (1 <<< size) - 1) .invalidClaim
  return ⟨scope, mask⟩

def balance (self : Book) (owner : Address) (scope mask : ℕ) : Sol ℕ := do
  return self owner (← key scope mask)

def credit (self : Book) (owner : Address) (scope mask quantity : ℕ) : Sol Book := do
  revertIf (quantity = 0) .invalidQuantity
  let id ← key scope mask
  return Holdings.set self owner id (← checkedAdd 128 (self owner id) quantity)

def debit (self : Book) (owner : Address) (scope mask quantity : ℕ) : Sol Book := do
  revertIf (quantity = 0) .invalidQuantity
  let id ← key scope mask
  revertIf (self owner id < quantity) .insufficientHoldings
  return Holdings.set self owner id (← checkedSub (self owner id) quantity)

end FactoredPositions

namespace Claim

-- The claims a position can be held in: one to three events, and neither nothing nor everything.
structure Valid (c : Claim) : Prop where
  size_pos : 0 < popcount c.scope
  size_le  : popcount c.scope ≤ 3
  mask_pos : 0 < c.mask
  mask_lt  : c.mask < 2 ^ 2 ^ popcount c.scope - 1

variable {c : Claim}

theorem Valid.mask_lt_word (h : c.Valid) : c.mask < 2 ^ 256 := by
  have h₁ : 2 ^ popcount c.scope ≤ 2 ^ 3 := Nat.pow_le_pow_right (by decide) h.size_le
  have h₂ : 2 ^ 2 ^ popcount c.scope ≤ 2 ^ 2 ^ 3 := Nat.pow_le_pow_right (by decide) h₁
  have := h.mask_lt
  omega

-- All claims within the range of their types.
@[irreducible]
def all : Finset Claim :=
  (Finset.range (2 ^ 32) ×ˢ Finset.range (2 ^ 256)).map
    ⟨fun p => ⟨p.1, p.2⟩, fun p q h => by cases p; cases q; simpa using h⟩

theorem mem_all : c ∈ all ↔ c.scope < 2 ^ 32 ∧ c.mask < 2 ^ 256 := by
  unfold all
  simp only [Finset.mem_map, Finset.mem_product, Finset.mem_range]
  constructor
  case mp  => rintro ⟨p, hp, rfl⟩; exact hp
  case mpr => exact fun h => ⟨(c.scope, c.mask), h, rfl⟩

-- Whether the claim is on the scope and pays in its local state `j`.
def paysAt (scope j : ℕ) (c : Claim) : Bool :=
  c.scope = scope && c.mask.testBit j

-- Whether the claim pays in a terminal state.
def pays (c : Claim) (state : ℕ) : Bool :=
  c.mask.testBit (project c.scope state)

end Claim

namespace FactoredPositions

variable {self book : Book} {owner : Address} {scope mask quantity : ℕ} {c : Claim}

@[simp]
theorem key_eq_ok : key scope mask = .ok c ↔ c.Valid ∧ c = ⟨scope, mask⟩ := by
  simp only [key, bind_eq_ok, revertIf_eq_ok, pure_eq_ok, ok.injEq, Nat.one_shiftLeft, not_or,
    exists_const]
  constructor
  case mp =>
    rintro ⟨⟨h₁, h₂, h₃, h₄⟩, rfl⟩
    exact ⟨⟨Nat.pos_of_ne_zero h₁, not_lt.mp h₂, Nat.pos_of_ne_zero h₃, not_le.mp h₄⟩, rfl⟩
  case mpr =>
    rintro ⟨h, rfl⟩
    exact ⟨⟨h.size_pos.ne', not_lt.mpr h.size_le, h.mask_pos.ne', not_le.mpr h.mask_lt⟩, rfl⟩

theorem credit_eq_ok :
    credit self owner scope mask quantity = .ok book ↔
      quantity ≠ 0 ∧ Claim.Valid ⟨scope, mask⟩ ∧ self owner ⟨scope, mask⟩ + quantity < 2 ^ 128 ∧
        book = Holdings.set self owner ⟨scope, mask⟩ (self owner ⟨scope, mask⟩ + quantity) := by
  simp only [credit, bind_eq_ok, revertIf_eq_ok, key_eq_ok, checkedAdd_eq_ok, pure_eq_ok, ok.injEq]
  constructor
  case mp  => rintro ⟨_, h₁, _, ⟨h₂, rfl⟩, _, ⟨h₃, rfl⟩, rfl⟩; exact ⟨h₁, h₂, h₃, rfl⟩
  case mpr => rintro ⟨h₁, h₂, h₃, rfl⟩; exact ⟨(), h₁, _, ⟨h₂, rfl⟩, _, ⟨h₃, rfl⟩, rfl⟩

theorem debit_eq_ok :
    debit self owner scope mask quantity = .ok book ↔
      quantity ≠ 0 ∧ Claim.Valid ⟨scope, mask⟩ ∧ quantity ≤ self owner ⟨scope, mask⟩ ∧
        book = Holdings.set self owner ⟨scope, mask⟩ (self owner ⟨scope, mask⟩ - quantity) := by
  simp only [debit, bind_eq_ok, revertIf_eq_ok, key_eq_ok, checkedSub_eq_ok, pure_eq_ok, ok.injEq,
    not_lt]
  constructor
  case mp  => rintro ⟨_, h₁, _, ⟨h₂, rfl⟩, _, h₃, _, ⟨_, rfl⟩, rfl⟩; exact ⟨h₁, h₂, h₃, rfl⟩
  case mpr => rintro ⟨h₁, h₂, h₃, rfl⟩; exact ⟨(), h₁, _, ⟨h₂, rfl⟩, (), h₃, _, ⟨h₃, rfl⟩, rfl⟩

section Totals

variable {w : Claim → ℕ}

-- A total over all owners and claims moves with every credit and debit.
theorem weigh_credit (h : credit self owner scope mask quantity = .ok book) (hs : scope < 2 ^ 32) :
    Holdings.weigh Claim.all w book = Holdings.weigh Claim.all w self + w ⟨scope, mask⟩ * quantity := by
  have ⟨_, hv, _, hb⟩ := credit_eq_ok.mp h
  have hm := Claim.mem_all (c := ⟨scope, mask⟩) |>.mpr ⟨hs, hv.mask_lt_word⟩
  have := Holdings.weigh_set w self owner (self owner ⟨scope, mask⟩ + quantity) hm
  rw [Nat.mul_add] at this
  rw [hb]
  omega

theorem weigh_debit (h : debit self owner scope mask quantity = .ok book) (hs : scope < 2 ^ 32) :
    Holdings.weigh Claim.all w book + w ⟨scope, mask⟩ * quantity = Holdings.weigh Claim.all w self := by
  have ⟨_, hv, hq, hb⟩ := debit_eq_ok.mp h
  have hm := Claim.mem_all (c := ⟨scope, mask⟩) |>.mpr ⟨hs, hv.mask_lt_word⟩
  have := Holdings.weigh_set w self owner (self owner ⟨scope, mask⟩ - quantity) hm
  rw [Nat.mul_sub] at this
  have := Nat.mul_le_mul_left (w ⟨scope, mask⟩) hq
  rw [hb]
  omega

end Totals

end FactoredPositions
