import Flurbo.Library.Digits
import Flurbo.Library.Spread
import Flurbo.Server.PairMath

-- What the certified values say about the market: the probabilities that the logarithmic scoring rule
-- gives to its states, in thousandths.

open Except

namespace PairMath

theorem S_pos : 0 < S := Nat.pow_pos (by decide)

section Weight

variable {n d : ℕ}

theorem reduced_le (h : n ≤ 100 * d) : n ≤ d * 128 := by omega

-- Seven squarings undo the reduction of the argument by 128.
theorem weight_encloses (hd : 0 < d) (h : n ≤ 100 * d) :
    (weight n d).Encloses S (Real.exp (-(n / d))) := by
  have hm : 0 < d * 128 := by omega
  have he := Enclosure.exp_encloses (S := S) hm (reduced_le h) 64
  have hl := S_pos.trans_le (Enclosure.exp_lo (S := S) (n := n) (m := d * 128) 64)
  have hs := (he.inv S_pos hl).iterate_square S_pos 7
  have hx : (Real.exp (n / (d * 128 : ℕ)))⁻¹ ^ 2 ^ 7 = Real.exp (-(n / d)) := by
    have hd' : (d : ℝ) ≠ 0 := by exact_mod_cast hd.ne'
    rw [← Real.exp_neg, ← Real.exp_nat_mul]
    congr 1
    push_cast
    field_simp
  rwa [hx] at hs

-- The smallest weight is that of a gap of a hundred liquidities.
theorem weight_lo_le (hd : 0 < d) (h : n ≤ 100 * d) : (weight 100 1).lo ≤ (weight n d).lo := by
  have hh : (Enclosure.exp S n (d * 128) 64).hi ≤ (Enclosure.exp S 100 (1 * 128) 64).hi :=
    Enclosure.exp_hi_le (by omega) (by omega) (by omega) 64
  have hl := S_pos.trans_le (Enclosure.exp_lo (S := S) (n := n) (m := d * 128) 64)
  have hp := (Enclosure.exp_encloses (S := S) (by omega) (reduced_le h) 64).hi_pos hl
  exact Enclosure.iterate_square_lo_le (Enclosure.inv_lo_le hh hp) 7

theorem weight_lo_pos (hd : 0 < d) (h : n ≤ 100 * d) : 0 < (weight n d).lo := by
  have : 0 < (weight 100 1).lo := by decide +kernel
  exact this.trans_le (weight_lo_le hd h)

end Weight

section Rounded

variable {i j : Enclosure} {x y : ℝ} {v : ℤ}

theorem floor_thousandths (v : ℤ) : ⌊1000 * (v / S : ℝ) + 1 / 2⌋ = (v * 1000 + S / 2) / S := by
  have hS : (S : ℝ) ≠ 0 := by exact_mod_cast S_pos.ne'
  have hh : (((S : ℤ) / 2 : ℤ) : ℝ) = S / 2 := by
    rw [Int.cast_div (by decide) (by norm_num), Int.cast_natCast]
    norm_num
  have he : 1000 * (v / S : ℝ) + 1 / 2 = ((v * 1000 + S / 2 : ℤ) : ℝ) / S := by
    rw [Int.cast_add, hh, Int.cast_mul]
    push_cast
    field_simp
  rw [he, Int.floor_div_natCast, Int.floor_intCast]

theorem rounded_eq (v : ℤ) : rounded v = Rounding.halfAway (1000 * (v / S : ℝ)) := by
  have hS : (0 : ℝ) < S := by exact_mod_cast S_pos
  have hv : 1000 * (v / S : ℝ) < 0 ↔ v < 0 := by
    rw [← Int.cast_lt_zero (R := ℝ)]
    constructor
    · intro h
      by_contra hc
      have := div_nonneg (not_lt.mp hc) hS.le
      linarith
    · intro h
      have := div_neg_of_neg_of_pos h hS
      linarith
  have hn := floor_thousandths (-v)
  rw [Int.cast_neg, neg_div, mul_neg] at hn
  simp only [rounded, Rounding.halfAway, hv, hn, floor_thousandths]

-- A value is published only if both ends of its bounds round to it.
theorem certified_exact {bounds : ℤ × ℤ} (hl : bounds.1 ≤ S * x) (hu : S * x ≤ bounds.2)
    (h : certified bounds = .ok v) : v = Rounding.halfAway (1000 * x) := by
  have hS : (0 : ℝ) < S := by exact_mod_cast S_pos
  unfold certified at h
  split at h
  case isTrue he =>
    rw [rounded_eq, rounded_eq] at he
    rw [← ok.inj h, rounded_eq]
    refine (Rounding.halfAway_eq ?_ ?_ he).symm
    · exact mul_le_mul_of_nonneg_left ((div_le_iff₀' hS).mpr hl) (by norm_num)
    · exact mul_le_mul_of_nonneg_left ((le_div_iff₀' hS).mpr hu) (by norm_num)
  case isFalse => contradiction

theorem certified_ends (hi : i.Encloses S x) (h : certified (ends i) = .ok v) :
    v = Rounding.halfAway (1000 * x) := by
  refine certified_exact ?_ ?_ h
  · exact_mod_cast hi.1
  · exact_mod_cast hi.2

theorem certified_difference (hi : i.Encloses S x) (hj : j.Encloses S y)
    (h : certified (difference i j) = .ok v) : v = Rounding.halfAway (1000 * (x - y)) := by
  refine certified_exact ?_ ?_ h
  · rw [difference, mul_sub]
    push_cast
    exact sub_le_sub hi.1 hj.2
  · rw [difference, mul_sub]
    push_cast
    exact sub_le_sub hi.2 hj.1

end Rounded

section Market

-- The events of the market that a bitmap selects.
def Snapshot.eventsOf (s : Snapshot) (scope : ℕ) : List ℕ := (List.range s.events).filter scope.testBit

-- What the market owes in a state: of each table the entry for what the state makes of the table's events.
def Snapshot.liability (s : Snapshot) (x : ℕ) : ℕ :=
  (s.factors.map fun f => f.values.getD (Bits.gather (s.eventsOf f.scope) x.testBit) 0).sum

variable (s : Snapshot)

noncomputable def mass (p : ℕ → Bool) : ℝ :=
  ∑ x ∈ Finset.range (2 ^ s.events) with p x, Real.exp (s.liability x / s.liquidity)

-- The probability of a set of states under the logarithmic scoring rule.
noncomputable def probability (p : ℕ → Bool) : ℝ := mass s p / mass s fun _ => true

noncomputable def probabilityGiven (p q : ℕ → Bool) : ℝ :=
  probability s (fun x => p x && q x) / probability s q

end Market

section Distribution

variable (s : Snapshot)

theorem foldl_add_values {fs : List Factor} {n x q : ℕ} :
    fs.foldl (fun q f => q + f.value n x) q = q + (fs.map fun f => f.value n x).sum := by
  induction fs generalizing q
  case nil          => rfl
  case cons f fs hi => rw [List.foldl_cons, hi, List.map_cons, List.sum_cons, Nat.add_assoc]

theorem value_eq (f : Factor) (n x : ℕ) :
    f.value n x = f.values.getD (Bits.gather ((List.range n).filter f.scope.testBit) x.testBit) 0 := by
  have h := localState_lt n f.scope x
  rw [← f.length_values, localState_eq] at h
  rw [List.getD_eq_getElem _ _ h, Factor.value]
  simp only [List.get_eq_getElem, localState_eq]

-- The scores of the enumeration are the liabilities.
theorem score_eq_liability (x : ℕ) : score s x = s.liability x := by
  rw [score, foldl_add_values, Nat.zero_add]
  simp only [value_eq]
  rfl

theorem score_le (x : ℕ) : score s x ≤ 100 * s.liquidity := by
  rw [score, foldl_add_values, Nat.zero_add]
  refine (List.sum_le_sum fun f _ => ?_).trans s.maxima_le
  exact le_foldl_max (List.get_mem _ _)

def maximum : ℕ := ((List.range (2 ^ s.events)).map (score s)).foldl max 0

theorem gap_le (x : ℕ) : maximum s - score s x ≤ 100 * s.liquidity := by
  have : maximum s ≤ 100 * s.liquidity := by
    refine foldl_max_le (Nat.zero_le _) fun q hq => ?_
    obtain ⟨y, -, rfl⟩ := List.mem_map.mp hq
    exact score_le s y
  omega

theorem score_le_maximum {x : ℕ} (h : x < 2 ^ s.events) : score s x ≤ maximum s :=
  le_foldl_max (List.mem_map.mpr ⟨x, List.mem_range.mpr h, rfl⟩)

-- What the weights lack of the exponentials of the liabilities.
noncomputable def shift : ℝ := Real.exp (-(maximum s / s.liquidity))

theorem weight_score {x : ℕ} (h : x < 2 ^ s.events) :
    (weight (maximum s - score s x) s.liquidity).Encloses S
      (Real.exp (s.liability x / s.liquidity) * shift s) := by
  rw [← score_eq_liability]
  have he := weight_encloses s.liquidity_pos (gap_le s x)
  have hx : -(((maximum s - score s x : ℕ) : ℝ) / s.liquidity) =
      score s x / s.liquidity + -(maximum s / s.liquidity) := by
    rw [Nat.cast_sub (score_le_maximum s h)]
    ring
  rwa [hx, Real.exp_add] at he

theorem zipIdx_map_range {α : Type*} (n : ℕ) (f : ℕ → α) :
    ((List.range n).map f).zipIdx = (List.range n).map fun x => (f x, x) := by
  refine List.ext_getElem (by simp) fun i _ _ => ?_
  simp

theorem select_distribution (p : ℕ → Bool) :
    select (distribution s) p = Enclosure.sum (((List.range (2 ^ s.events)).filter p).map
      fun x => weight (maximum s - score s x) s.liquidity) := by
  rw [select, distribution, List.map_map, zipIdx_map_range, List.filter_map, List.map_map]
  rfl

theorem mass_eq (p : ℕ → Bool) : mass s p =
    (((List.range (2 ^ s.events)).filter p).map fun x => Real.exp (s.liability x / s.liquidity)).sum := by
  rw [← List.sum_toFinset _ (List.nodup_range.filter _), List.toFinset_filter, List.toFinset_range]
  rfl

theorem select_encloses (p : ℕ → Bool) :
    (select (distribution s) p).Encloses S (mass s p * shift s) := by
  rw [select_distribution, mass_eq, ← List.sum_map_mul_right]
  refine Enclosure.encloses_sum fun x hx => weight_score s ?_
  exact List.mem_range.mp (List.mem_filter.mp hx).1

theorem sum_eq_select (weights : List Enclosure) :
    Enclosure.sum weights = select weights fun _ => true := by
  rw [select, List.filter_true, List.zipIdx_map_fst]

theorem total_encloses : (Enclosure.sum (distribution s)).Encloses S (mass s (fun _ => true) * shift s) := by
  rw [sum_eq_select]
  exact select_encloses s _

theorem distribution_ne_nil : distribution s ≠ [] := by
  simp [distribution, List.range_eq_nil]

theorem total_lo_pos : 0 < (Enclosure.sum (distribution s)).lo := by
  refine Enclosure.sum_lo_pos (distribution_ne_nil s) fun i hi => ?_
  rw [distribution, List.map_map] at hi
  obtain ⟨x, -, rfl⟩ := List.mem_map.mp hi
  exact weight_lo_pos s.liquidity_pos (gap_le s x)

theorem shift_pos : 0 < shift s := Real.exp_pos _

theorem ratio_of_lo_pos {i j : Enclosure} (h : 0 < j.lo) : ratio i j = .ok (i.div S j) := by
  rw [ratio, if_neg h.not_ge]

-- A ratio of weights encloses the ratio of the masses.
theorem select_div_encloses {p q : ℕ → Bool} (h : 0 < (select (distribution s) q).lo) :
    ((select (distribution s) p).div S (select (distribution s) q)).Encloses S
      (mass s p / mass s q) := by
  have he := (select_encloses s p).div S_pos (select_encloses s q) h
  rwa [mul_div_mul_right _ _ (shift_pos s).ne'] at he

-- The bounds of a probability, as a ratio to the total.
def bounds (p : ℕ → Bool) : Enclosure := (select (distribution s) p).div S (Enclosure.sum (distribution s))

theorem ratio_total (p : ℕ → Bool) :
    ratio (select (distribution s) p) (Enclosure.sum (distribution s)) = .ok (bounds s p) :=
  ratio_of_lo_pos (total_lo_pos s)

theorem bounds_encloses (p : ℕ → Bool) : (bounds s p).Encloses S (probability s p) := by
  have h := total_lo_pos s
  rw [sum_eq_select] at h
  rw [bounds, sum_eq_select]
  exact select_div_encloses s h

theorem mass_pos : 0 < mass s fun _ => true := by
  have he := total_encloses s
  exact pos_of_mul_pos_left (he.pos (total_lo_pos s)) (shift_pos s).le

theorem probabilityGiven_eq (p q : ℕ → Bool) :
    probabilityGiven s p q = mass s (fun x => p x && q x) / mass s q :=
  div_div_div_cancel_right₀ (mass_pos s).ne' _ _

-- A condition that passes the cutoff has a positive weight.
theorem conditional_exact (p q : ℕ → Bool) :
    ∃ r, conditional (bounds s q) (select (distribution s) fun x => p x && q x)
        (select (distribution s) q) = .ok r ∧
      ∀ v, r = .ok v → v = Rounding.halfAway (1000 * probabilityGiven s p q) := by
  unfold conditional
  split
  case isTrue h =>
    have hl : 0 < (select (distribution s) q).lo := by
      by_contra hc
      rw [bounds, Enclosure.div, Nat.eq_zero_of_not_pos hc, Nat.zero_mul, Nat.zero_div] at h
      have hS : 0 < S / 1000000000 := by decide
      exact absurd h (not_le.mpr hS)
    refine ⟨_, by rw [ratio_of_lo_pos hl]; rfl, fun v hv => ?_⟩
    rw [probabilityGiven_eq]
    exact certified_ends (select_div_encloses s hl) hv
  case isFalse => exact ⟨_, rfl, fun v hv => by cases hv⟩

end Distribution

-- Every value that is there is the nearest to the exact one, in thousandths.
def Published (r : Except Reason ℤ) (x : ℝ) : Prop := ∀ v, r = .ok v → v = Rounding.halfAway (1000 * x)

def PairValues.Published (r : PairValues (Except Reason ℤ)) (x : PairValues ℝ) : Prop :=
  PairMath.Published r.a x.a ∧ PairMath.Published r.b x.b ∧ PairMath.Published r.joint x.joint ∧
    PairMath.Published r.givenYes x.givenYes ∧ PairMath.Published r.givenNo x.givenNo ∧
    PairMath.Published r.independent x.independent ∧ PairMath.Published r.difference x.difference

noncomputable def exactPair (s : Snapshot) : PairValues ℝ where
  a           := probability s fun x => x.testBit s.a
  b           := probability s fun x => x.testBit s.b
  joint       := probability s fun x => x.testBit s.a && x.testBit s.b
  givenYes    := probabilityGiven s (fun x => x.testBit s.a) fun x => x.testBit s.b
  givenNo     := probabilityGiven s (fun x => x.testBit s.a) fun x => !x.testBit s.b
  independent := (probability s fun x => x.testBit s.a) * probability s fun x => x.testBit s.b
  difference  := (probability s fun x => x.testBit s.a && x.testBit s.b) -
    (probability s fun x => x.testBit s.a) * probability s fun x => x.testBit s.b

theorem holds_eq {x state : ℕ} : holds x state = x.testBit state := by
  rw [Bool.eq_iff_iff, holds, decide_eq_true_iff, Nat.one_shiftLeft, Bits.and_two_pow_ne_zero]

theorem published_bounds (s : Snapshot) (p : ℕ → Bool) :
    Published (certified (ends (bounds s p))) (probability s p) :=
  fun _ => certified_ends (bounds_encloses s p)

theorem published_product (s : Snapshot) (p q : ℕ → Bool) :
    Published (certified (ends (product (bounds s p) (bounds s q)))) (probability s p * probability s q) :=
  fun _ => certified_ends ((bounds_encloses s p).mul S_pos (bounds_encloses s q))

theorem published_difference (s : Snapshot) (o p q : ℕ → Bool) :
    Published (certified (difference (bounds s o) (product (bounds s p) (bounds s q))))
      (probability s o - probability s p * probability s q) :=
  fun _ => certified_difference (bounds_encloses s o)
    ((bounds_encloses s p).mul S_pos (bounds_encloses s q))

theorem certifiedPair_published {raw : RawSnapshot} {s : Snapshot}
    (h : validatePairSnapshot raw = .ok s) :
    ∃ r, certifiedPair raw = .ok r ∧ r.Published (exactPair s) := by
  have ⟨y, hy, hyv⟩ := conditional_exact s (fun x => holds x s.a) (fun x => holds x s.b)
  have ⟨n, hn, hnv⟩ := conditional_exact s (fun x => holds x s.a) (fun x => !holds x s.b)
  rw [certifiedPair, h, ok_bind]
  simp only [exactPair, ← holds_eq]
  rw [ratio_total, ok_bind, ratio_total, ok_bind, ratio_total, ok_bind, ratio_total, ok_bind, hy,
    ok_bind, hn, ok_bind]
  exact ⟨_, rfl, published_bounds s _, published_bounds s _, published_bounds s _, hyv, hnv,
    published_product s _ _, published_difference s _ _ _⟩

section Claims

variable (s : Snapshot) {claim : Claim} {x state : ℕ}

-- A claim pays in a state if its mask has the bit for what the state makes of the claim's events.
def Snapshot.pays (s : Snapshot) (claim : Claim) (x : ℕ) : Bool :=
  claim.mask.testBit (Bits.gather (s.eventsOf claim.scope) x.testBit)

-- The probability of the claim if its events were independent.
noncomputable def independentProbability (claim : Claim) : ℝ :=
  let events := s.eventsOf claim.scope
  ∑ state ∈ Finset.range (2 ^ events.length) with claim.mask.testBit state,
    (events.zipIdx.map fun e => probability s fun x => x.testBit e.1 == state.testBit e.2).prod

noncomputable def exactClaim (claim : Claim) : ClaimValues ℝ where
  market      := probability s (s.pays claim)
  independent := independentProbability s claim
  difference  := probability s (s.pays claim) - independentProbability s claim

def ClaimValues.Published (r : ClaimValues (Except Reason ℤ)) (x : ClaimValues ℝ) : Prop :=
  PairMath.Published r.market x.market ∧ PairMath.Published r.independent x.independent ∧
    PairMath.Published r.difference x.difference

theorem claimEvents_eq (h : Sdk.validateClaim claim s.events) : claimEvents claim.scope = s.eventsOf claim.scope := by
  simp only [Sdk.validateClaim, Bool.and_eq_true, decide_eq_true_eq] at h
  have h₄ : claim.scope < 2 ^ 4 := by omega
  have hs : claim.scope < 2 ^ s.events := by omega
  rw [Snapshot.eventsOf, claimEvents, ← Bits.bitIndices_eq_filter hs, Bits.bitIndices_eq_filter h₄]
  simp only [Nat.one_shiftLeft, Bits.and_two_pow_ne_zero, Bool.decide_eq_true]

-- The states in which the events of a claim have the answers of a local state.
def agrees (events : List ℕ) (state x : ℕ) : Bool :=
  events.zipIdx.all fun e => holds x e.1 == holds state e.2

theorem agrees_iff {events : List ℕ} (h : state < 2 ^ events.length) :
    agrees events state x ↔ state = Bits.gather events x.testBit := by
  rw [agrees, List.all_eq_true, Bits.eq_gather_iff h]
  simp only [beq_iff_eq, holds_eq, Prod.forall, List.mem_zipIdx_iff_getElem?]
  constructor
  · exact fun hm i p hp => (hm p i hp).symm
  · exact fun hm p i hp => (hm i p hp).symm

-- A state of the market matches exactly one local state.
theorem sum_mass_agrees : ∑ state ∈ Finset.range (2 ^ (s.eventsOf claim.scope).length) with holds claim.mask state,
    mass s (agrees (s.eventsOf claim.scope) state) = mass s (s.pays claim) := by
  simp only [mass, Finset.sum_filter]
  rw [← Finset.sum_filter, Finset.sum_comm]
  refine Finset.sum_congr rfl fun x _ => ?_
  have hx : ∀ state ∈ (Finset.range (2 ^ (s.eventsOf claim.scope).length)).filter
        fun state => holds claim.mask state,
      (if agrees (s.eventsOf claim.scope) state x then Real.exp (s.liability x / s.liquidity) else 0) =
        if state = Bits.gather (s.eventsOf claim.scope) x.testBit then
          Real.exp (s.liability x / s.liquidity) else 0 := by
    intro state hs
    have hlt := Finset.mem_range.mp (Finset.mem_filter.mp hs).1
    simp only [agrees_iff hlt]
  rw [Finset.sum_congr rfl hx, Finset.sum_ite_eq']
  have hp : Bits.gather (s.eventsOf claim.scope) x.testBit ∈
        (Finset.range (2 ^ (s.eventsOf claim.scope).length)).filter (fun state => holds claim.mask state) ↔
      s.pays claim x := by
    rw [Finset.mem_filter, Finset.mem_range, and_iff_right Bits.gather_lt, holds_eq, Snapshot.pays]
  simp only [hp]

theorem marginal_eq (event : ℕ) : marginal (distribution s) event =
    .ok (bounds s fun x => holds x event == false, bounds s fun x => holds x event == true) := by
  rw [marginal, ratio_total, ok_bind, ratio_total, ok_bind]
  rfl

-- The product of the marginals, in the order of the events.
theorem foldl_product_encloses (events : List ℕ) (state : ℕ) :
    ((events.map fun event => (bounds s fun x => holds x event == false,
        bounds s fun x => holds x event == true)).zipIdx.foldl (fun p q =>
      product p (if holds state q.2 then q.1.2 else q.1.1)) ⟨S, S⟩).Encloses S
      (events.zipIdx.map fun e => probability s fun x => holds x e.1 == holds state e.2).prod := by
  rw [List.zipIdx_map, List.foldl_map, ← one_mul (List.prod _)]
  refine Enclosure.encloses_one.foldl_mul S_pos fun e _ => ?_
  have he := bounds_encloses s fun x => holds x e.1 == holds state e.2
  cases hh : holds state e.2 <;> simpa [hh] using he

theorem sum_states {n : ℕ} {p : ℕ → Bool} (f : ℕ → ℝ) :
    (((List.range n).filter p).map f).sum = ∑ state ∈ Finset.range n with p state, f state := by
  rw [← List.sum_toFinset _ (List.nodup_range.filter _), List.toFinset_filter, List.toFinset_range]

theorem market_encloses :
    (Enclosure.sum (((List.range (2 ^ (s.eventsOf claim.scope).length)).filter (holds claim.mask)).map
      fun state => select (distribution s) (agrees (s.eventsOf claim.scope) state))).Encloses S
      (mass s (s.pays claim) * shift s) := by
  rw [← sum_mass_agrees, ← sum_states, ← List.sum_map_mul_right]
  exact Enclosure.encloses_sum fun state _ => select_encloses s _

theorem independent_encloses :
    (Enclosure.sum (((List.range (2 ^ (s.eventsOf claim.scope).length)).filter (holds claim.mask)).map
      fun state => ((s.eventsOf claim.scope).map fun event =>
          (bounds s fun x => holds x event == false, bounds s fun x => holds x event == true)).zipIdx.foldl
        (fun p q => product p (if holds state q.2 then q.1.2 else q.1.1)) ⟨S, S⟩)).Encloses S
      (independentProbability s claim) := by
  simp only [independentProbability, ← holds_eq]
  rw [← sum_states]
  exact Enclosure.encloses_sum fun state _ => foldl_product_encloses s _ state

theorem certifiedClaim_published {raw : RawSnapshot} (hr : raw.events = some (s.events : ℤ))
    (hc : Sdk.validateClaim claim s.events)
    (hv : validatePairSnapshot { raw with a := some 0, b := some 1 } = .ok s) :
    ∃ r, certifiedClaim raw claim = .ok r ∧ r.Published (exactClaim s claim) := by
  have hm := (@market_encloses s claim).div S_pos (total_encloses s) (total_lo_pos s)
  rw [mul_div_mul_right _ _ (shift_pos s).ne'] at hm
  have hi := @independent_encloses s claim
  have hp := mapM_ok fun event (_ : event ∈ s.eventsOf claim.scope) => marginal_eq s event
  have hc' : ¬ (!Sdk.validateClaim claim (raw.events.getD 0).toNat) = true := by
    rw [hr]
    simpa using hc
  rw [certifiedClaim, if_neg hc', hv, ok_bind]
  simp only [claimEvents_eq s hc]
  rw [hp, ok_bind, ratio_of_lo_pos (total_lo_pos s), ok_bind]
  exact ⟨_, rfl, fun v => certified_ends hm, fun v => certified_ends hi,
    fun v => certified_difference hm hi⟩

end Claims

section Snapshots

variable {raw : RawSnapshot} {s : Snapshot}

-- The text is the decimal text of the number.
def Writes (v : Option String) (n : ℕ) : Prop := v.map (Digits.value ·.toList) = some n

def RawFactor.Describes (f : RawFactor) (g : Factor) : Prop :=
  f.scope = some (g.scope : ℤ) ∧ ∃ values, f.values = some values ∧ List.Forall₂ Writes values g.values

-- A validated snapshot is the one that was given.
structure RawSnapshot.Describes (raw : RawSnapshot) (s : Snapshot) : Prop where
  events    : raw.events = some (s.events : ℤ)
  a         : raw.a = some (s.a : ℤ)
  b         : raw.b = some (s.b : ℤ)
  liquidity : Writes raw.liquidity s.liquidity
  factors   : ∃ fs, raw.factors = some fs ∧ List.Forall₂ RawFactor.Describes fs s.factors

theorem atom_writes {v : Option String} {n : ℕ} (h : atom v = .ok n) : Writes v n := by
  cases v
  case none   => cases h
  case some t =>
    simp only [atom] at h
    split at h
    case isTrue  => exact congrArg some (ok.inj h)
    case isFalse => cases h

theorem factor_describes {events : ℕ} {f : RawFactor} {g : Factor} (h : factor events f = .ok g) :
    f.Describes g := by
  rw [factor] at h
  split at h
  case h_1 => cases h
  case h_2 scope hscope =>
    split at h
    case isTrue       => cases h
    case isFalse hpos =>
      split at h
      case h_1 => cases h
      case h_2 values hvalues =>
        split at h
        case isTrue  => cases h
        case isFalse =>
          split at h
          case h_1          => cases h
          case h_2 atoms ha =>
            cases h
            refine ⟨hscope.trans (congrArg some ?_), values, hvalues, ?_⟩
            · dsimp only
              omega
            · exact (mapM_eq_ok.mp ha).imp fun _ _ => atom_writes

theorem eventPair_describes {events a b : ℕ} (h : eventPair raw = .ok (events, a, b)) :
    raw.events = some (events : ℤ) ∧ raw.a = some (a : ℤ) ∧ raw.b = some (b : ℤ) := by
  unfold eventPair at h
  split at h
  case h_1 e a' b' he ha hb =>
    split at h
    case isTrue => cases h
    case isFalse hc =>
      simp only [not_or, not_not] at hc
      have hm : e = 2 ∨ e = 3 ∨ e = 4 := by simpa using hc.1
      simp only [ok.injEq, Prod.mk.injEq] at h
      rw [he, ha, hb]
      simp only [Option.some.injEq]
      omega
  case h_2 => cases h

def selectPair (raw : RawSnapshot) : RawSnapshot := { raw with a := some 0, b := some 1 }

theorem eventPair_select {events a b : ℕ} (h : eventPair raw = .ok (events, a, b)) :
    raw.events = some (events : ℤ) ∧ eventPair (selectPair raw) = .ok (events, 0, 1) := by
  unfold eventPair at h
  split at h
  case h_1 e a' b' he _ _ =>
    split at h
    case isTrue => contradiction
    case isFalse hc =>
      simp only [not_or, not_not] at hc
      have hm : e = 2 ∨ e = 3 ∨ e = 4 := by simpa using hc.1
      simp only [ok.injEq, Prod.mk.injEq] at h
      have hn : (events : ℤ) = e := by omega
      rw [he, hn]
      refine ⟨rfl, ?_⟩
      simp only [eventPair, selectPair, he]
      rcases hm with rfl | rfl | rfl <;> simp [← h.1]
  case h_2 => contradiction

-- What the validation has checked.
theorem validatePairSnapshot_eq_ok : validatePairSnapshot raw = .ok s ↔
    eventPair raw = .ok (s.events, s.a, s.b) ∧ atom raw.liquidity = .ok s.liquidity ∧
      eliminationOrder s.events raw.order = .ok s.order ∧
      ∃ fs, raw.factors = some fs ∧ fs.length ≤ 64 ∧ fs.mapM (factor s.events) = .ok s.factors ∧
        ∃ scopes, s.order.foldlM eliminate (s.factors.map Factor.scope) = .ok scopes := by
  constructor
  · intro h
    obtain ⟨⟨events, a, b⟩, he, h⟩ := bind_eq_ok.mp h
    obtain ⟨liquidity, hl, h⟩ := bind_eq_ok.mp h
    split at h
    case isFalse => contradiction
    case isTrue =>
      obtain ⟨order, ho, h⟩ := bind_eq_ok.mp h
      split at h
      case h_1 => contradiction
      case h_2 fs hf =>
        split at h
        case isTrue => contradiction
        case isFalse hn =>
          obtain ⟨factors, hfs, h⟩ := bind_eq_ok.mp h
          split at h
          case isFalse => contradiction
          case isTrue =>
            obtain ⟨scopes, hs, h⟩ := bind_eq_ok.mp h
            cases h
            exact ⟨he, hl, ho, fs, hf, not_lt.mp hn, hfs, scopes, hs⟩
  · rintro ⟨he, hl, ho, fs, hf, hn, hfs, scopes, hs⟩
    rw [validatePairSnapshot, he, ok_bind]
    simp only []
    rw [hl, ok_bind, dif_pos s.liquidity_pos, ho, ok_bind, hf]
    simp only []
    rw [if_neg (not_lt.mpr hn), hfs, ok_bind, dif_pos s.maxima_le, hs, ok_bind]
    rfl

-- Which pair is asked for changes nothing else in a snapshot.
theorem validate_selectPair (h : validatePairSnapshot raw = .ok s) :
    raw.events = some (s.events : ℤ) ∧
      validatePairSnapshot (selectPair raw) = .ok { s with a := 0, b := 1 } := by
  have ⟨he, hl, ho, hf⟩ := validatePairSnapshot_eq_ok.mp h
  have ⟨hr, hs⟩ := eventPair_select he
  exact ⟨hr, validatePairSnapshot_eq_ok.mpr ⟨hs, hl, ho, hf⟩⟩

theorem validatePairSnapshot_describes (h : validatePairSnapshot raw = .ok s) : raw.Describes s := by
  obtain ⟨he, hl, _, fs, hf, _, hfs, _⟩ := validatePairSnapshot_eq_ok.mp h
  obtain ⟨hevents, ha, hb⟩ := eventPair_describes he
  exact ⟨hevents, ha, hb, atom_writes hl, fs, hf, (mapM_eq_ok.mp hfs).imp fun _ _ => factor_describes⟩

end Snapshots

-- The values of pairs and of claims that are published are exact, and every accepted snapshot has them.
theorem certified_values_exact :
    (∀ n d : ℕ, 0 < d → n ≤ 100 * d →
      (weight n d).Encloses S (Real.exp (-(n / d))) ∧ 0 < (weight n d).lo) ∧
    ∀ raw s, validatePairSnapshot raw = .ok s → raw.Describes s ∧
      (∀ i, ∃ r, ratio i (Enclosure.sum (distribution s)) = .ok r) ∧
      (∃ r, certifiedPair raw = .ok r ∧ r.Published (exactPair s)) ∧
      ∀ claim, Sdk.validateClaim claim s.events →
        ∃ r, certifiedClaim raw claim = .ok r ∧ r.Published (exactClaim s claim) := by
  refine ⟨fun n d hd hn => ⟨weight_encloses hd hn, weight_lo_pos hd hn⟩, fun raw s hv => ?_⟩
  refine ⟨validatePairSnapshot_describes hv, fun i => ⟨_, ratio_of_lo_pos (total_lo_pos s)⟩,
    certifiedPair_published hv, fun claim hc => ?_⟩
  have ⟨hr, hs⟩ := validate_selectPair hv
  exact certifiedClaim_published (s := { s with a := 0, b := 1 }) hr hc hs

-- Two events, a table for both and a table for the first.
def Testnet.snapshot : RawSnapshot where
  events    := some 2
  a         := some 0
  b         := some 1
  liquidity := some "1000000"
  order     := some [some 0, some 1]
  factors   := some [
    ⟨some 3, some [some "0", some "100000", some "500000", some "7000000"]⟩,
    ⟨some 1, some [some "0", some "12"]⟩]

theorem certified_values_exact_testnet :
    (∃ s, validatePairSnapshot Testnet.snapshot = .ok s ∧
      (List.range 4).map s.liability = [0, 100012, 500000, 7000012] ∧
      (⟨.ok 998, .ok 998, .ok 997, .ok 998, .ok 525, .ok 996, .ok 1⟩ : PairValues _).Published (exactPair s) ∧
      (⟨.ok 3, .ok 4, .ok (-2)⟩ : ClaimValues _).Published (exactClaim s ⟨3, 6⟩)) ∧
    0 < (weight 7 2).lo := by
  have hl : (validatePairSnapshot Testnet.snapshot).map (fun s => (List.range 4).map s.liability) =
      .ok [0, 100012, 500000, 7000012] := by decide +kernel
  have hp : certifiedPair Testnet.snapshot =
      .ok ⟨.ok 998, .ok 998, .ok 997, .ok 998, .ok 525, .ok 996, .ok 1⟩ := by decide +kernel
  have hc : certifiedClaim Testnet.snapshot ⟨3, 6⟩ = .ok ⟨.ok 3, .ok 4, .ok (-2)⟩ := by decide +kernel
  obtain ⟨s, hs, hl⟩ := map_eq_ok.mp hl
  obtain ⟨hr, -, ⟨r, hr', hpair⟩, hclaim⟩ := certified_values_exact.right Testnet.snapshot s hs
  have hn : s.events = 2 := by
    have := hr.events
    simp only [Testnet.snapshot, Option.some.injEq] at this
    omega
  obtain ⟨r', hr'', hclaim⟩ := hclaim ⟨3, 6⟩ (by rw [hn]; decide)
  cases hp.symm.trans hr'
  cases hc.symm.trans hr''
  exact ⟨⟨s, hs, hl, hpair, hclaim⟩, (certified_values_exact.left 7 2 (by decide) (by decide)).right⟩

end PairMath
