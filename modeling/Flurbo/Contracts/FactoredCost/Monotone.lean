import Flurbo.Contracts.FactoredCost.Maximum
import Flurbo.Contracts.FactoredCost.Permutation
import Flurbo.Contracts.FactoredCost.Width
import Flurbo.Library.Records

-- What the validator accepts, it accepts in any order, in part and with smaller values. The values
-- that are computed from a graph do not depend on its order either.

open Evm Except

-- A table on the same events with no larger values.
structure Factor.Below (f g : Factor) : Prop where
  scope_eq  : f.scope = g.scope
  values_le : List.Forall₂ (· ≤ ·) f.values g.values

namespace Factor.Below

variable {events b : ℕ} {f g : Factor}

theorem maximum_le (h : f.Below g) : f.maximum ≤ g.maximum := by
  refine Factor.maximum_le fun v hv => ?_
  have ⟨w, hw, hle⟩ := Records.forall₂_mem h.values_le.flip hv
  exact hle.trans (Factor.le_maximum hw)

theorem wellFormed (h : f.Below g) (hg : g.WellFormed events b) : f.WellFormed events b where
  scope_lt  := h.scope_eq ▸ hg.scope_lt
  size_le   := h.scope_eq ▸ hg.size_le
  length_eq := by rw [h.values_le.length_eq, h.scope_eq, hg.length_eq]
  values_le := fun v hv => by
    have ⟨w, hw, hle⟩ := Records.forall₂_mem h.values_le.flip hv
    exact hle.trans (hg.values_le w hw)

end Factor.Below

namespace FactoredCost

variable {prb : PRBMath} {events b width m : ℕ} {factors factors' kept lowered : List Factor}
  {order : List ℕ}

theorem scopes_eq_of_below (h : List.Forall₂ Factor.Below lowered kept) :
    lowered.map (·.scope) = kept.map (·.scope) := by
  induction h
  case nil            => rfl
  case cons h _ hi => rw [List.map_cons, List.map_cons, h.scope_eq, hi]

theorem Valid.below (h : Valid events b kept order) (hl : List.Forall₂ Factor.Below lowered kept) :
    Valid events b lowered order where
  events_pos := h.events_pos
  events_le  := h.events_le
  liquidity  := h.liquidity
  length_le  := hl.length_eq ▸ h.length_le
  order_perm := h.order_perm
  wellFormed := fun f hf => by
    have ⟨g, hg, hfg⟩ := Records.forall₂_mem hl.flip hf
    exact hfg.wellFormed (h.wellFormed g hg)
  sum_maxima := by
    have hmap : List.Forall₂ (· ≤ ·) (lowered.map Factor.maximum) (kept.map Factor.maximum) := by
      simpa using hl.imp fun _ _ => Factor.Below.maximum_le
    exact hmap.sum_le_sum.trans h.sum_maxima

-- The graph of a part of the tables joins no more events than the whole graph.
theorem validate_below (h : validate events b factors order = .ok width) (hk : kept.Subperm factors)
    (hl : List.Forall₂ Factor.Below lowered kept) :
    ∃ width' ≤ width, validate events b lowered order = .ok width' := by
  have ⟨part, hp, hs⟩ := hk
  have ⟨hv, hw⟩ := validate_eq_ok.mp h
  have hvalid := ((hv.sublist hs).perm hp).below hl
  refine hvalid.validate_ok hv (.of_subset ?_) hw
  rw [scopes_eq_of_below hl]
  exact List.map_subset _ hk.subset

theorem maxLiability_perm (hp : factors.Perm factors')
    (h : maxLiability events b factors order = .ok m) : maxLiability events b factors' order = .ok m := by
  simp only [maxLiability, bind_eq_ok] at h ⊢
  obtain ⟨width, hv, h⟩ := h
  have hv' := validate_perm hp hv
  refine ⟨width, hv', ?_⟩
  rw [(validate_eq_ok.mp hv').left.evaluateMax_eq, ← maximumLiability_perm hp,
    ← (validate_eq_ok.mp hv).left.evaluateMax_eq, h]

-- Neither the validator nor the two evaluations depend on the order of the tables, and the validator
-- also accepts any part of them with smaller values.
theorem order_insensitive (prb : PRBMath) (events b : ℕ) (factors : List Factor) (order : List ℕ) :
    (∀ width, validate events b factors order = .ok width →
      (∀ factors', factors.Perm factors' → validate events b factors' order = .ok width) ∧
      ∀ kept lowered, kept.Subperm factors → List.Forall₂ Factor.Below lowered kept →
        ∃ width' ≤ width, validate events b lowered order = .ok width') ∧
    ∀ factors', factors.Perm factors' →
      (∀ c, bounds prb events b factors order = .ok c ↔ bounds prb events b factors' order = .ok c) ∧
      ∀ m, maxLiability events b factors order = .ok m ↔
        maxLiability events b factors' order = .ok m := by
  refine ⟨fun width h => ⟨fun factors' hp => validate_perm hp h, fun kept lowered hk hl => ?_⟩,
    fun factors' hp => ⟨fun c => ⟨?_, ?_⟩, fun m => ⟨?_, ?_⟩⟩⟩
  · exact validate_below h hk hl
  · exact bounds_perm hp
  · exact bounds_perm hp.symm
  · exact maxLiability_perm hp
  · exact maxLiability_perm hp.symm

-- A constant and two tables of one event, in two orders, and a part of them.
theorem order_insensitive_one_event :
    validate 1 (10 ^ 18) [⟨0, [5 * 10 ^ 18]⟩, ⟨1, [10 ^ 18, 10 ^ 18]⟩, ⟨1, [3 * 10 ^ 18, 3 * 10 ^ 18]⟩]
        [0] = .ok 0 ∧
      (∃ width' ≤ 0, validate 1 (10 ^ 18) [⟨1, [10 ^ 18, 0]⟩, ⟨0, [2 * 10 ^ 18]⟩] [0] = .ok width') ∧
      bounds ⟨fun _ => .ok (10 ^ 18), fun _ => .ok 693147180559945309⟩ 1 (10 ^ 18)
        [⟨0, [5 * 10 ^ 18]⟩, ⟨1, [10 ^ 18, 10 ^ 18]⟩, ⟨1, [3 * 10 ^ 18, 3 * 10 ^ 18]⟩] [0] =
          .ok ⟨9693147180559944028, 9693147180559946590⟩ ∧
      maxLiability 1 (10 ^ 18)
        [⟨0, [5 * 10 ^ 18]⟩, ⟨1, [10 ^ 18, 10 ^ 18]⟩, ⟨1, [3 * 10 ^ 18, 3 * 10 ^ 18]⟩] [0] =
          .ok (9 * 10 ^ 18) := by
  -- Every exponent is zero here, and the sum of the two weights is two.
  have h := order_insensitive ⟨fun _ => .ok (10 ^ 18), fun _ => .ok 693147180559945309⟩ 1 (10 ^ 18)
    [⟨1, [3 * 10 ^ 18, 3 * 10 ^ 18]⟩, ⟨1, [10 ^ 18, 10 ^ 18]⟩, ⟨0, [5 * 10 ^ 18]⟩] [0]
  have hp : List.Perm
      [(⟨1, [3 * 10 ^ 18, 3 * 10 ^ 18]⟩ : Factor), ⟨1, [10 ^ 18, 10 ^ 18]⟩, ⟨0, [5 * 10 ^ 18]⟩]
      [⟨0, [5 * 10 ^ 18]⟩, ⟨1, [10 ^ 18, 10 ^ 18]⟩, ⟨1, [3 * 10 ^ 18, 3 * 10 ^ 18]⟩] := by decide
  have ⟨hperm, hpart⟩ := h.left 0 (by decide +kernel)
  have ⟨hbounds, hmax⟩ := h.right _ hp
  refine ⟨hperm _ hp, hpart [⟨1, [3 * 10 ^ 18, 3 * 10 ^ 18]⟩, ⟨0, [5 * 10 ^ 18]⟩] _ ?_ ?_,
    (hbounds _).mp (by decide +kernel), (hmax _).mp (by decide +kernel)⟩
  · exact List.Sublist.subperm (by decide)
  · exact .cons ⟨rfl, by decide⟩ <| .cons ⟨rfl, by decide⟩ .nil

end FactoredCost
