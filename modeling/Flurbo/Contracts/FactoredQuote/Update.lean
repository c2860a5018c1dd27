import Flurbo.Contracts.FactoredPositions
import Flurbo.Contracts.FactoredQuote.Basic

open Evm Except
open FactoredCost (popcount)

-- The change of an amount by a buy or a sell.
def Moved (isBuy : Bool) (amount before after : ℕ) : Prop :=
  if isBuy then after = before + amount else after + amount = before

namespace Moved

variable {isBuy : Bool} {amount before after after' : ℕ}

@[simp]
theorem zero_iff : Moved isBuy 0 before after ↔ after = before := by
  cases isBuy <;> simp [Moved]

theorem unique (h : Moved isBuy amount before after) (h' : Moved isBuy amount before after') :
    after = after' := by
  cases isBuy <;> simp only [Moved] at h h' <;> grind

end Moved

namespace Factor

def entry (f : Factor) (j : ℕ) : ℕ := f.values.getD j 0

end Factor

namespace FactoredQuote

-- The entry of a scope, summed over its tables.
def entryOf (factors : List Factor) (scope j : ℕ) : ℕ :=
  ((factors.filter (·.scope = scope)).map (·.entry j)).sum

variable {factors after : List Factor} {scope mask quantity states value j r : ℕ} {isBuy : Bool}
  {values : List ℕ} {market : Market} {f : Factor}

theorem merge_eq_ok (h : merge factors scope states = .ok values) :
    values.length = states ∧
      ∀ j < states, values.getD j 0 = entryOf factors scope j ∧ values.getD j 0 < 2 ^ 128 := by
  -- The accumulator holds the entries of the tables read so far.
  suffices hs : ∀ init, init.length = states → (∀ j < states, init.getD j 0 < 2 ^ 128) →
      factors.foldlM (fun values f =>
        if f.scope = scope then
          (List.range states).mapM fun j => do checkedAdd 128 (← nth values j) (← nth f.values j)
        else
          return values) init = .ok values →
      values.length = states ∧ ∀ j < states,
        values.getD j 0 = init.getD j 0 + entryOf factors scope j ∧ values.getD j 0 < 2 ^ 128 by
    have hz {j} (hj : j < states) := List.getD_replicate (x := 0) (y := 0) hj
    obtain ⟨hl, he⟩ := hs _ (by simp) (fun j hj => by rw [hz hj]; decide) h
    refine ⟨hl, fun j hj => ⟨?_, (he j hj).right⟩⟩
    rw [(he j hj).left, hz hj, Nat.zero_add]
  clear h
  induction factors
  case nil =>
    intro init hl hlt h
    cases h
    exact ⟨hl, fun j hj => ⟨by simp [entryOf], hlt j hj⟩⟩
  case cons f factors hi =>
    intro init hl hlt h
    rw [List.foldlM_cons, bind_eq_ok] at h
    obtain ⟨next, hn, h⟩ := h
    split at hn
    case isTrue hf =>
      obtain ⟨hnl, hne⟩ := table_eq_ok.mp hn
      simp only [bind_eq_ok, nth_eq_ok_getD, checkedAdd_eq_ok] at hne
      obtain ⟨hl, he⟩ := hi next hnl (fun j hj => by
        obtain ⟨_, _, _, _, hlt, ha⟩ := hne j hj
        exact ha ▸ hlt) h
      refine ⟨hl, fun j hj => ⟨?_, (he j hj).right⟩⟩
      obtain ⟨_, ⟨_, rfl⟩, _, ⟨_, rfl⟩, _, ha⟩ := hne j hj
      have : entryOf (f :: factors) scope j = f.values.getD j 0 + entryOf factors scope j := by
        simp [entryOf, hf, Factor.entry]
      have := (he j hj).left
      omega
    case isFalse hf =>
      cases hn
      obtain ⟨hl, he⟩ := hi init hl hlt h
      refine ⟨hl, fun j hj => ⟨?_, (he j hj).right⟩⟩
      rw [(he j hj).left]
      simp [entryOf, hf]

theorem shift_eq_ok (h : shift mask quantity isBuy value j = .ok r) :
    Moved isBuy (if mask.testBit j then quantity else 0) value r ∧ (value < 2 ^ 128 → r < 2 ^ 128) := by
  unfold shift at h
  simp only [Nat.one_shiftLeft, Bits.and_two_pow_ne_zero] at h
  unfold Moved
  split_ifs at h ⊢ <;> (simp_all; try omega)

-- What an accepted update does to the tables: those of other scopes stay, and those of its own are
-- merged into one at the end, in which the entries of the mask move by the quantity.
structure Updated (market : Market) (scope mask quantity : ℕ) (isBuy : Bool) (after : List Factor)
    (values : List ℕ) : Prop where
  claim     : Claim.Valid ⟨scope, mask⟩
  scope_lt  : scope < 2 ^ market.events
  pos       : 0 < quantity
  le        : quantity ≤ market.liquidity
  after_eq  : after = market.factors.filter (·.scope ≠ scope) ++ [⟨scope, values⟩]
  length_eq : values.length = 2 ^ popcount scope
  length_le : after.length ≤ 64
  entry_lt  : ∀ j < values.length, values.getD j 0 < 2 ^ 128
  entry     : ∀ j < values.length,
                Moved isBuy (if mask.testBit j then quantity else 0)
                  (entryOf market.factors scope j) (values.getD j 0)

theorem updatedFactors_eq_ok (h : updatedFactors market scope mask quantity isBuy = .ok after) :
    ∃ values, Updated market scope mask quantity isBuy after values := by
  simp only [updatedFactors, update, bind_eq_ok, revertIf_eq_ok, checkedSub_eq_ok, pure_eq_ok,
    ok.injEq, Nat.one_shiftLeft, not_or, not_lt, not_not] at h
  obtain ⟨_, hq, _, ⟨hs₀, hs, hp⟩, _, hm, _, ⟨_, rfl⟩, _, hcount, merged, hu, values, hv, rfl⟩ := h
  obtain ⟨_, hu⟩ := merge_eq_ok hu
  obtain ⟨hvl, hv⟩ := table_eq_ok.mp hv
  rw [Nat.shiftRight_eq_div_pow, Nat.div_eq_zero_iff_lt (Nat.two_pow_pos _)] at hs
  have hc : Claim.Valid ⟨scope, mask⟩ :=
    ⟨FactoredCost.popcount_pos hs₀, hp, Nat.pos_of_ne_zero hm.left, by dsimp only; omega⟩
  have hentry (j : ℕ) (hj : j < values.length) : shift mask quantity isBuy (merged.getD j 0) j =
      .ok (values.getD j 0) := by
    have := hv j (hvl ▸ hj)
    simp only [bind_eq_ok, nth_eq_ok_getD] at this
    obtain ⟨_, ⟨_, rfl⟩, hsh⟩ := this
    exact hsh
  refine ⟨values, hc, hs, Nat.pos_of_ne_zero hq.left, hq.right, rfl, hvl, ?_, fun j hj => ?_,
    fun j hj => ?_⟩
  · have hsplit := List.length_eq_length_filter_add (l := market.factors) (decide <| ·.scope = scope)
    simp only [decide_not, List.length_append, List.length_singleton]
    omega
  · exact (shift_eq_ok (hentry j hj)).right (hu j (hvl ▸ hj)).right
  · exact (hu j (hvl ▸ hj)).left ▸ (shift_eq_ok (hentry j hj)).left

end FactoredQuote
