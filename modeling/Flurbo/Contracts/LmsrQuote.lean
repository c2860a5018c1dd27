import Flurbo.Contracts.LmsrCost
import Flurbo.Contracts.FactoredQuote.Priced

open Evm Except
open FactoredCost (popcount project)
open QuoteMath (wadPerAtom)

-- The market that keeps one liability for each terminal state, and how a trade on the tables of a
-- factored market looks there.

namespace LmsrQuote

structure Market where
  liabilities : List ℕ
  liquidity   : ℕ
  decimals    : ℕ

structure Quote where
  collateral       : ℕ
  liabilitiesAfter : List ℕ
  deriving DecidableEq, Repr

-- The update of `simulate`, state by state.
def liabilitiesAfter (liabilities : List ℕ) (mask quantity : ℕ) (isBuy : Bool) : Sol (List ℕ) :=
  (List.range liabilities.length).mapM fun i => do
    FactoredQuote.shift mask quantity isBuy (← nth liabilities i) i

variable (market : Market) (mask quantity : ℕ) (isBuy : Bool) (prb : PRBMath)

def simulate : Sol Quote := do
  let n := market.liabilities.length
  revertIf (n ≠ 2 ∧ n ≠ 4 ∧ n ≠ 8) .invalidStateCount
  let full := 1 <<< n - 1
  revertIf (mask = 0 ∨ mask ≥ full) .invalidMask
  revertIf (quantity = 0 ∨ quantity > market.liquidity) .invalidQuantity
  let factor ← QuoteMath.scale market.decimals
  let b ← checkedMul 256 market.liquidity factor
  let beforeWad ← market.liabilities.mapM (checkedMul 256 · factor)
  let before ← LmsrCost.bounds prb beforeWad b
  let liabilitiesAfter ← liabilitiesAfter market.liabilities mask quantity isBuy
  let afterWad ← liabilitiesAfter.mapM (checkedMul 256 · factor)
  let after ← LmsrCost.bounds prb afterWad b
  let collateral ← FactoredQuote.collateral isBuy before after market.decimals
  revertIf (collateral = 0 ∨ isBuy ∧ collateral > quantity) .unquotableTrade
  return ⟨collateral, liabilitiesAfter⟩

def buy (maxCost : ℕ) : Sol Quote := do
  let quote ← simulate market mask quantity true prb
  revertIf (quote.collateral > maxCost) .maxCostExceeded
  return quote

def sell (minProceeds : ℕ) : Sol Quote := do
  let quote ← simulate market mask quantity false prb
  revertIf (quote.collateral < minProceeds) .minProceedsNotMet
  return quote

variable {liabilities : List ℕ} {mask quantity : ℕ} {isBuy : Bool} {f g : ℕ → ℕ} {n : ℕ}

-- A table of all states is updated by the change of each of them.
theorem liabilitiesAfter_map_range (hn : ∀ x < n, f x < 2 ^ 128 ∧ g x < 2 ^ 128)
    (h : ∀ x < n, Moved isBuy (if mask.testBit x then quantity else 0) (f x) (g x)) :
    liabilitiesAfter ((List.range n).map f) mask quantity isBuy = .ok ((List.range n).map g) := by
  rw [liabilitiesAfter, List.length_map, List.length_range, mapM_range_eq_ok]
  refine ⟨by simp, fun x hx => ?_⟩
  simp only [List.length_map, List.length_range] at hx
  replace h := h x hx
  replace hn := hn x hx
  have hf : nth ((List.range n).map f) x = .ok (f x) := by simp [hx]
  rw [hf, ok_bind]
  simp only [FactoredQuote.shift, Nat.one_shiftLeft, Bits.and_two_pow_ne_zero, List.getElem_map,
    List.getElem_range]
  unfold Moved at h
  split_ifs at h ⊢
  all_goals
    simp [revertIf]
    omega

end LmsrQuote

namespace FactoredQuote

-- The checks of `simulate` on the tables it starts from.
def validate (market : Market) : Sol ℕ := do
  let scale ← QuoteMath.scale market.decimals
  let b ← checkedMul 256 market.liquidity scale
  FactoredCost.validate market.events b (← toWad market.factors scale) market.order

-- The mask over all terminal states that a local mask stands for.
def lift (events scope mask : ℕ) : ℕ :=
  Nat.ofBits fun x : Fin (2 ^ events) => mask.testBit (project scope x)

-- What the arguments of a trade are checked for.
structure Accepted (market : Market) (scope mask quantity : ℕ) : Prop where
  pos      : 0 < quantity
  le       : quantity ≤ market.liquidity
  scope_lt : scope < 2 ^ market.events
  claim    : Claim.Valid ⟨scope, mask⟩

variable {market : Market} {scope mask quantity events x w j : ℕ} {isBuy : Bool} {f : Factor}
  {factors after : List Factor} {values : List ℕ} {e : Revert}

theorem testBit_lift (hx : x < 2 ^ events) :
    (lift events scope mask).testBit x = mask.testBit (project scope x) :=
  Nat.testBit_ofBits_lt _ x hx

theorem validate_valid (h : validate market = .ok w) :
    FactoredCost.Valid market.events (market.liquidity * wadPerAtom market.decimals)
      (market.factors.map (·.scaleBy (wadPerAtom market.decimals))) market.order := by
  simp only [validate, bind_eq_ok, QuoteMath.scale_eq_ok, checkedMul_eq_ok] at h
  obtain ⟨_, ⟨_, rfl⟩, _, ⟨_, rfl⟩, _, hw, h⟩ := h
  exact toWad_eq_ok hw ▸ (FactoredCost.validate_eq_ok.mp h).left

-- What validation says about the tables in atoms.
structure Bounded (market : Market) : Prop where
  events_le  : market.events ≤ 32
  length_le  : market.factors.length ≤ 64
  wellFormed : ∀ f ∈ market.factors, f.WellFormed market.events market.liquidity
  sum_maxima : (market.factors.map (·.maximum)).sum ≤ 100 * market.liquidity
  liquidity  : market.liquidity ≤ 10 ^ 27

theorem maximum_scaleBy {s : ℕ} : (f.scaleBy s).maximum = f.maximum * s := by
  unfold Factor.maximum Factor.scaleBy
  induction f.values
  case nil          => simp
  case cons v vs hi => rw [List.map_cons, List.foldr_cons, hi, List.foldr_cons, Nat.mul_max_mul_right]

theorem sum_maxima_scaleBy {s : ℕ} :
    ((factors.map (·.scaleBy s)).map (·.maximum)).sum = (factors.map (·.maximum)).sum * s := by
  rw [List.map_map, ← List.sum_map_mul_right]
  exact congrArg List.sum (List.map_congr_left fun f _ => maximum_scaleBy)

theorem validate_bounded (h : validate market = .ok w) : Bounded market := by
  have hv := validate_valid h
  have hs : 0 < wadPerAtom market.decimals := QuoteMath.wadPerAtom_pos
  have hmul {a b : ℕ} (h : a * wadPerAtom market.decimals ≤ b * (market.liquidity * wadPerAtom market.decimals)) :
      a ≤ b * market.liquidity := by
    rw [← mul_assoc] at h
    exact Nat.le_of_mul_le_mul_right h hs
  refine ⟨hv.events_le, by simpa using hv.length_le, fun f hf => ?_, ?_, ?_⟩
  · have hw := hv.wellFormed _ (List.mem_map_of_mem hf)
    refine ⟨hw.scope_lt, hw.size_le, by simpa [Factor.scaleBy] using hw.length_eq, fun v hv' => ?_⟩
    exact hmul <| hw.values_le _ (List.mem_map_of_mem hv')
  · have := hv.sum_maxima
    rw [sum_maxima_scaleBy] at this
    exact hmul this
  · exact (Nat.le_mul_of_pos_right _ hs).trans hv.liquidity.right

-- Tables of the right shape are accepted in the place of others if and only if their maxima are bounded and
-- their graph is narrow enough.
theorem validate_iff (h : validate market = .ok w) (hl : after.length ≤ 64)
    (hf : ∀ f ∈ after, f.scope < 2 ^ market.events ∧ popcount f.scope ≤ 3 ∧
      f.values.length = 2 ^ popcount f.scope) :
    (∃ w, validate { market with factors := after } = .ok w) ↔
      (after.map (·.maximum)).sum ≤ 100 * market.liquidity ∧
        ∃ w, FactoredCost.validateWidth market.order (after.map (·.scope)) 0 = .ok w := by
  have hv := validate_valid h
  have hscopes (s : ℕ) : (after.map (·.scaleBy s)).map (·.scope) = after.map (·.scope) := by
    rw [List.map_map]
    rfl
  simp only [validate, bind_eq_ok, QuoteMath.scale_eq_ok, checkedMul_eq_ok] at h ⊢
  obtain ⟨_, ⟨hd, rfl⟩, _, ⟨hb, rfl⟩, _⟩ := h
  constructor
  · rintro ⟨_, _, ⟨_, rfl⟩, _, ⟨_, rfl⟩, _, ha, hw⟩
    obtain rfl := toWad_eq_ok ha
    obtain ⟨hva, hw⟩ := FactoredCost.validate_eq_ok.mp hw
    have hs := hva.sum_maxima
    rw [sum_maxima_scaleBy, ← mul_assoc] at hs
    rw [hscopes] at hw
    exact ⟨Nat.le_of_mul_le_mul_right hs QuoteMath.wadPerAtom_pos, _, hw⟩
  · rintro ⟨hs, w, hw⟩
    have hva : FactoredCost.Valid market.events (market.liquidity * wadPerAtom market.decimals)
        (after.map (·.scaleBy (wadPerAtom market.decimals))) market.order := by
      refine ⟨hv.events_pos, hv.events_le, hv.liquidity, by simpa using hl, hv.order_perm, ?_, ?_⟩
      · refine List.forall_mem_map.mpr fun f hm => ?_
        obtain ⟨hlt, hle, hlen⟩ := hf f hm
        refine ⟨hlt, hle, by simpa [Factor.scaleBy] using hlen, List.forall_mem_map.mpr fun v hv' => ?_⟩
        have hmem : f.maximum ∈ after.map (·.maximum) := List.mem_map_of_mem hm
        have hv' : v ≤ 100 * market.liquidity :=
          (Factor.le_maximum hv').trans ((List.le_sum_of_mem hmem).trans hs)
        rw [← mul_assoc]
        exact Nat.mul_le_mul_right _ hv'
      · rw [sum_maxima_scaleBy, ← mul_assoc]
        exact Nat.mul_le_mul_right _ hs
    refine ⟨w, _, ⟨hd, rfl⟩, _, ⟨hb, rfl⟩, _, toWad_ok hva, ?_⟩
    exact FactoredCost.validate_eq_ok.mpr ⟨hva, by rw [hscopes]; exact hw⟩

theorem valueAt_le_maximum : f.valueAt x ≤ f.maximum := by
  rw [Factor.valueAt, List.getD_eq_getElem?_getD]
  cases h : f.values[project f.scope x]?
  case none   => exact Nat.zero_le _
  case some v => exact Factor.le_maximum (List.mem_of_getElem? h)

theorem entry_le_maximum : f.entry j ≤ f.maximum := by
  rw [Factor.entry, List.getD_eq_getElem?_getD]
  cases h : f.values[j]?
  case none   => exact Nat.zero_le _
  case some v => exact Factor.le_maximum (List.mem_of_getElem? h)

theorem liability_le_maxima : liability factors x ≤ (factors.map (·.maximum)).sum :=
  List.sum_le_sum fun _ _ => valueAt_le_maximum

theorem entryOf_le_maxima : entryOf factors scope j ≤ (factors.map (·.maximum)).sum := by
  refine (List.sum_le_sum fun _ _ => entry_le_maximum).trans ?_
  exact (List.filter_sublist.map _).sum_le_sum fun _ _ => Nat.zero_le _

-- The tables of a scope contribute their sum at the local state, the others are on their own.
theorem liability_eq_add (scope : ℕ) : liability factors x =
    liability (factors.filter (·.scope ≠ scope)) x + entryOf factors scope (project scope x) := by
  induction factors
  case nil               => rfl
  case cons f factors hi =>
    simp only [liability, entryOf, List.map_cons, List.sum_cons] at hi ⊢
    rw [hi]
    by_cases hf : f.scope = scope
    case pos => simp [hf, Factor.valueAt, Factor.entry]; omega
    case neg => simp [hf]; omega

theorem Updated.project_lt (h : Updated market scope mask quantity isBuy after values)
    (he : market.events ≤ 32) (x : ℕ) : project scope x < values.length :=
  h.length_eq ▸ FactoredCost.project_lt (h.scope_lt.trans_le (Nat.pow_le_pow_right (by decide) he)) x

theorem Updated.reads_lt (h : Updated market scope mask quantity isBuy after values)
    (hb : Bounded market) (hf : f ∈ after) (x : ℕ) : project f.scope x < f.values.length := by
  rw [h.after_eq, List.mem_append, List.mem_filter, List.mem_singleton] at hf
  rcases hf with ⟨hf, _⟩ | rfl
  · exact (hb.wellFormed f hf).project_lt hb.events_le x
  · exact h.project_lt hb.events_le x

-- A local trade moves the liability of exactly the terminal states that the lifted mask selects.
theorem Updated.liability_moved (h : Updated market scope mask quantity isBuy after values)
    (he : market.events ≤ 32) (x : ℕ) :
    Moved isBuy (if mask.testBit (project scope x) then quantity else 0)
      (liability market.factors x) (liability after x) := by
  have hm := h.entry _ (h.project_lt he x)
  have ha : liability after x =
      liability (market.factors.filter (·.scope ≠ scope)) x + values.getD (project scope x) 0 := by
    rw [h.after_eq]
    simp [liability, Factor.valueAt]
  rw [ha, liability_eq_add scope]
  unfold Moved at hm ⊢
  split_ifs at hm ⊢ <;> omega

-- The tables of a validated market can be merged.
theorem merge_ok (h : Bounded market) : ∃ merged, merge market.factors scope (2 ^ popcount scope) = .ok merged := by
  let I (fs : List Factor) (vs : List ℕ) : Prop :=
    vs.length = 2 ^ popcount scope ∧ (∀ f ∈ fs, f ∈ market.factors) ∧
      ∀ j < vs.length, vs.getD j 0 + entryOf fs scope j < 2 ^ 128
  have hb (j : ℕ) : entryOf market.factors scope j < 2 ^ 128 := by
    have hle : entryOf market.factors scope j ≤ (market.factors.map (·.maximum)).sum := entryOf_le_maxima
    have := h.sum_maxima
    have := h.liquidity
    omega
  suffices hm : (merge market.factors scope (2 ^ popcount scope)).Holds False (I []) by
    obtain ⟨merged, hm, _⟩ := holds_false_iff.mp hm
    exact ⟨merged, hm⟩
  refine Holds.foldlM (I := I) ⟨by simp, fun _ hf => hf, fun j hj => ?_⟩ ?_
  · rw [List.length_replicate] at hj
    have hz : (List.replicate (2 ^ popcount scope) 0).getD j 0 = 0 :=
      List.getD_replicate (x := 0) (y := 0) hj
    rw [hz, Nat.zero_add]
    exact hb j
  · rintro f fs vs ⟨hl, hf, hlt⟩
    obtain ⟨hfm, hfs⟩ := List.forall_mem_cons.mp hf
    split
    case isFalse hs => exact ⟨hl, hfs, fun j hj => by simpa [entryOf, hs] using hlt j hj⟩
    case isTrue hs  =>
      have hw := (h.wellFormed f hfm).length_eq
      rw [hs] at hw
      have he (j : ℕ) : entryOf (f :: fs) scope j = f.entry j + entryOf fs scope j := by
        simp [entryOf, hs]
      have hn {j : ℕ} (hj : j < 2 ^ popcount scope) :
          (do checkedAdd 128 (← nth vs j) (← nth f.values j)) = .ok (vs.getD j 0 + f.entry j) := by
        have := hlt j (hl ▸ hj)
        have h₁ : nth vs j = .ok (vs.getD j 0) := nth_eq_ok_getD.mpr ⟨hl ▸ hj, rfl⟩
        have h₂ : nth f.values j = .ok (f.entry j) := nth_eq_ok_getD.mpr ⟨hw ▸ hj, rfl⟩
        rw [h₁, ok_bind, h₂, ok_bind, checkedAdd_eq_ok]
        exact ⟨by rw [he] at this; omega, rfl⟩
      obtain ⟨ys, hy⟩ := table_ok fun j hj => ⟨_, hn hj⟩
      obtain ⟨hyl, hye⟩ := table_eq_ok.mp hy
      refine holds_false_iff.mpr ⟨ys, hy, hyl, hfs, fun j hj => ?_⟩
      rw [hyl] at hj
      have := hlt j (hl ▸ hj)
      rw [← Except.ok.inj ((hn hj).symm.trans (hye j hj))]
      rw [he] at this
      omega

-- A local state that the mask selects.
theorem Accepted.exists_bit (h : Accepted market scope mask quantity) :
    ∃ j < 2 ^ popcount scope, mask.testBit j := by
  have ⟨j, hj⟩ := Nat.exists_testBit_of_ne_zero h.claim.mask_pos.ne'
  refine ⟨j, not_le.mp fun hle => ?_, hj⟩
  have := Bits.testBit_eq_false (h.claim.mask_lt.trans_le (Nat.sub_le _ _)) hle
  exact Bool.false_ne_true (this.symm.trans hj)

theorem update_sell_ok {merged : List ℕ} (hb : Bounded market) (ha : Accepted market scope mask quantity)
    (hm : merge market.factors scope (2 ^ popcount scope) = .ok merged)
    (h : ∀ j < merged.length, mask.testBit j → quantity ≤ merged.getD j 0) :
    ∃ after, update market.factors scope mask quantity (2 ^ popcount scope) false = .ok after := by
  obtain ⟨hl, he⟩ := merge_eq_ok hm
  have hsplit := List.length_eq_length_filter_add (l := market.factors) (decide <| ·.scope = scope)
  -- Without a table of the scope there would be nothing to sell.
  have hhit : market.factors.filter (·.scope = scope) ≠ [] := by
    intro hn
    obtain ⟨j, hj, hbit⟩ := ha.exists_bit
    have := h j (hl ▸ hj) hbit
    rw [(he j hj).left, entryOf, hn] at this
    exact absurd (this.trans_lt' ha.pos) (lt_irrefl _)
  have hpos := List.length_pos_iff.mpr hhit
  have hlen := hb.length_le
  have hs {j : ℕ} (hj : j < 2 ^ popcount scope) :
      ∃ r, (do shift mask quantity false (← nth merged j) j) = .ok r := by
    have h₁ : nth merged j = .ok (merged.getD j 0) := nth_eq_ok_getD.mpr ⟨hl ▸ hj, rfl⟩
    rw [h₁, ok_bind]
    simp only [shift, Nat.one_shiftLeft, Bits.and_two_pow_ne_zero]
    by_cases hbit : mask.testBit j
    case neg => exact ⟨_, if_neg hbit⟩
    case pos =>
      have hq := h j (hl ▸ hj) hbit
      refine ⟨merged.getD j 0 - quantity, ?_⟩
      rw [if_pos hbit, if_neg (by decide), bind_eq_ok]
      exact ⟨(), revertIf_eq_ok.mpr (not_lt.mpr hq), checkedSub_eq_ok.mpr ⟨hq, rfl⟩⟩
  obtain ⟨values, hv⟩ := table_ok fun j hj => hs hj
  refine ⟨market.factors.filter (·.scope ≠ scope) ++ [⟨scope, values⟩], ?_⟩
  simp only [update, bind_eq_ok, checkedSub_eq_ok, revertIf_eq_ok, pure_eq_ok, ok.injEq]
  exact ⟨_, ⟨by omega, rfl⟩, (), by omega, merged, hm, values, hv, rfl⟩

-- A purchase finds room for its table, and adds amounts that the validation has bounded.
theorem update_buy_ok {merged : List ℕ} (hb : Bounded market) (ha : Accepted market scope mask quantity)
    (hm : merge market.factors scope (2 ^ popcount scope) = .ok merged) (hlen : market.factors.length < 64) :
    ∃ after, update market.factors scope mask quantity (2 ^ popcount scope) true = .ok after := by
  obtain ⟨hl, he⟩ := merge_eq_ok hm
  have hle : (market.factors.filter (·.scope = scope)).length ≤ market.factors.length := List.length_filter_le _ _
  have hs {j : ℕ} (hj : j < 2 ^ popcount scope) :
      ∃ r, (do shift mask quantity true (← nth merged j) j) = .ok r := by
    have h₁ : nth merged j = .ok (merged.getD j 0) := nth_eq_ok_getD.mpr ⟨hl ▸ hj, rfl⟩
    rw [h₁, ok_bind]
    simp only [shift, Nat.one_shiftLeft, Bits.and_two_pow_ne_zero]
    by_cases hbit : mask.testBit j
    case neg => exact ⟨_, if_neg hbit⟩
    case pos =>
      refine ⟨merged.getD j 0 + quantity, ?_⟩
      rw [if_pos hbit, if_pos trivial, checkedAdd_eq_ok, (he j hj).left]
      have hentry : entryOf market.factors scope j ≤ (market.factors.map (·.maximum)).sum := entryOf_le_maxima
      have := hb.sum_maxima
      have := hb.liquidity
      have := ha.le
      exact ⟨by omega, rfl⟩
  obtain ⟨values, hv⟩ := table_ok fun j hj => hs hj
  refine ⟨market.factors.filter (·.scope ≠ scope) ++ [⟨scope, values⟩], ?_⟩
  simp only [update, bind_eq_ok, checkedSub_eq_ok, revertIf_eq_ok, pure_eq_ok, ok.injEq]
  exact ⟨_, ⟨by omega, rfl⟩, (), by omega, merged, hm, values, hv, rfl⟩

-- Accepted arguments pass the checks of the update.
theorem Accepted.updatedFactors_ok (ha : Accepted market scope mask quantity)
    (h : update market.factors scope mask quantity (2 ^ popcount scope) isBuy = .ok after) :
    updatedFactors market scope mask quantity isBuy = .ok after := by
  have hz : scope ≠ 0 := by
    rintro rfl
    have : 0 < popcount 0 := ha.claim.size_pos
    exact absurd this (by decide)
  have hs : scope >>> market.events = 0 := by
    rw [Nat.shiftRight_eq_div_pow, Nat.div_eq_zero_iff_lt (Nat.two_pow_pos _)]
    exact ha.scope_lt
  have := ha.pos
  have := ha.le
  have : popcount scope ≤ 3 := ha.claim.size_le
  have : 0 < mask := ha.claim.mask_pos
  have : mask < 2 ^ 2 ^ popcount scope - 1 := ha.claim.mask_lt
  simp only [updatedFactors, bind_eq_ok, revertIf_eq_ok, Nat.one_shiftLeft]
  exact ⟨(), by omega, (), by simp_all, (), by omega, h⟩

-- A purchase whose arguments are accepted is made in every validated market with room for a table.
theorem buy_accepted (hb : Bounded market) (ha : Accepted market scope mask quantity)
    (hlen : market.factors.length < 64) : ∃ after, updatedFactors market scope mask quantity true = .ok after := by
  obtain ⟨merged, hm⟩ : ∃ merged, merge market.factors scope (2 ^ popcount scope) = .ok merged := merge_ok hb
  have ⟨after, hu⟩ := update_buy_ok hb ha hm hlen
  exact ⟨after, ha.updatedFactors_ok hu⟩

-- A sale whose arguments are accepted fails only if it would make the merged table negative.
theorem sell_rejected (hb : Bounded market) (ha : Accepted market scope mask quantity)
    (h : updatedFactors market scope mask quantity false = .error e) :
    ∃ merged, merge market.factors scope (2 ^ popcount scope) = .ok merged ∧
      ∃ j < merged.length, mask.testBit j ∧ merged.getD j 0 < quantity := by
  obtain ⟨merged, hm⟩ : ∃ merged, merge market.factors scope (2 ^ popcount scope) = .ok merged := merge_ok hb
  refine ⟨merged, hm, ?_⟩
  by_contra hn
  push Not at hn
  have ⟨after, hu⟩ := update_sell_ok hb ha hm hn
  rw [ha.updatedFactors_ok hu] at h
  cases h

-- For every validated market a local trade is the trade of the lifted mask on all terminal states.
theorem local_eq_global (hv : validate market = .ok w) :
    (∀ after, updatedFactors market scope mask quantity isBuy = .ok after →
      (∀ x, (∀ f ∈ market.factors ++ after, project f.scope x < f.values.length) ∧
        Moved isBuy (if mask.testBit (project scope x) then quantity else 0)
          (liability market.factors x) (liability after x)) ∧
      LmsrQuote.liabilitiesAfter ((List.range (2 ^ market.events)).map (liability market.factors))
          (lift market.events scope mask) quantity isBuy =
        .ok ((List.range (2 ^ market.events)).map (liability after)) ∧
      ∃ others values, after = others ++ [⟨scope, values⟩] ∧ ∀ f ∈ others, f.scope ≠ scope) ∧
    (∀ e, Accepted market scope mask quantity →
      updatedFactors market scope mask quantity false = .error e →
      ∃ merged, merge market.factors scope (2 ^ popcount scope) = .ok merged ∧
        ∃ j < merged.length, mask.testBit j ∧ merged.getD j 0 < quantity) := by
  have hb := validate_bounded hv
  refine ⟨fun after h => ?_, fun e ha => sell_rejected hb ha⟩
  have ⟨values, hu⟩ := updatedFactors_eq_ok h
  have hlt (x : ℕ) : liability market.factors x ≤ 100 * market.liquidity :=
    liability_le_maxima.trans hb.sum_maxima
  refine ⟨fun x => ⟨fun f hf => ?_, hu.liability_moved hb.events_le x⟩, ?_, _, values, hu.after_eq, ?_⟩
  · rcases List.mem_append.mp hf with hf | hf
    · exact (hb.wellFormed f hf).project_lt hb.events_le x
    · exact hu.reads_lt hb hf x
  · refine LmsrQuote.liabilitiesAfter_map_range (fun x _ => ?_) fun x hx => ?_
    · have hm := hu.liability_moved hb.events_le x
      have := hlt x
      have := hb.liquidity
      have := hu.le
      unfold Moved at hm
      split_ifs at hm <;> omega
    · rw [testBit_lift hx]
      exact hu.liability_moved hb.events_le x
  · simp

-- Two tables of one scope are merged and moved behind the third.
def sampleMarket : Market where
  events    := 2
  liquidity := 10
  decimals  := 6
  factors   := [⟨1, [1, 2]⟩, ⟨2, [0, 3]⟩, ⟨1, [4, 0]⟩]
  order     := [0, 1]

theorem local_eq_global_sample :
    updatedFactors sampleMarket 1 2 5 true = .ok [⟨2, [0, 3]⟩, ⟨1, [5, 7]⟩] ∧
      LmsrQuote.liabilitiesAfter ((List.range 4).map (liability sampleMarket.factors))
          (lift 2 1 2) 5 true = .ok ((List.range 4).map (liability [⟨2, [0, 3]⟩, ⟨1, [5, 7]⟩])) := by
  have hv : ∃ w, validate sampleMarket = .ok w := exists_ok (by decide +kernel)
  obtain ⟨w, hv⟩ := hv
  have h : updatedFactors sampleMarket 1 2 5 true = .ok [⟨2, [0, 3]⟩, ⟨1, [5, 7]⟩] := by
    decide +kernel
  exact ⟨h, ((local_eq_global hv).left _ h).right.left⟩

end FactoredQuote
