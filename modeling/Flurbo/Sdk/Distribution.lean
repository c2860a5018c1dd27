import Flurbo.Library.Apportion
import Flurbo.Library.Fallible
import Mathlib.Data.List.Sort

-- Joint forecasts of up to four events, in parts per million.

open Except

namespace Sdk

def PPM : ℤ := 1000000

-- A `FlurboError` for an invalid forecast, or the `RangeError` of a negative exponent.
inductive ForecastError
  | invalidForecast (message : String)
  | rangeError
  deriving DecidableEq

-- Bit `j` of an index into `states` is the answer of the `j`-th event.
structure Joint where
  events : List ℤ
  states : List ℤ
  deriving DecidableEq

def assertJoint (joint : Joint) (eventCount : Option ℤ) : Except ForecastError Joint :=
  let { events, states } := joint
  if events.length < 1 ∨ 4 < events.length then
    .error (.invalidForecast "A forecast covers one to four events.")
  else if events.zipIdx.any fun (e, i) =>
      e < 0 || eventCount.any (· ≤ e) || (0 < i && e ≤ events.getD (i - 1) 0) then
    .error (.invalidForecast "Forecast events must be distinct pool events in ascending order.")
  else if states.length ≠ 2 ^ events.length ∨ states.any (· < 0) then
    .error (.invalidForecast "Every outcome combination needs a non-negative probability.")
  else if states.sum ≠ PPM then
    .error (.invalidForecast "Outcome probabilities must sum to exactly 100%.")
  else
    .ok joint

def index (joint : Joint) (event : ℤ) : Except ForecastError ℕ :=
  if joint.events.idxOf event < joint.events.length then
    .ok (joint.events.idxOf event)
  else
    .error (.invalidForecast s!"Event {event} is not part of this forecast.")

def marginal (joint : Joint) (event : ℤ) : Except ForecastError ℤ := do
  let i ← index joint event
  return joint.states.zipIdx.foldl (fun sum (p, s) => if s.testBit i then sum + p else sum) 0

-- The exact share of the local state `s`, at a scale of one million for each event.
def product (marginals : List ℤ) (s : ℕ) : ℤ :=
  marginals.zipIdx.foldl (fun product (p, j) => product * if s.testBit j then p else PPM - p) 1

structure Raw where
  s     : ℕ
  whole : ℤ
  rest  : ℤ
  deriving DecidableEq

def rawStates (marginals : List ℤ) : List Raw :=
  let scale := PPM ^ (marginals.length - 1)
  (List.range (2 ^ marginals.length)).map fun s =>
    ⟨s, (product marginals s).tdiv scale, (product marginals s).tmod scale⟩

-- The larger remainder first, and the lower state among equal ones.
def Raw.ranksBefore (x y : Raw) : Bool :=
  y.rest < x.rest || (x.rest = y.rest && x.s ≤ y.s)

-- The loop over the ranked states, with the units that are missing after it.
def handOut : List Raw → ℤ → List ℤ → List ℤ × ℤ
  | [], missing, states        => (states, missing)
  | r :: ranked, missing, states =>
    if missing ≤ 0 then (states, missing) else handOut ranked (missing - 1) (states.modify r.s (· + 1))

def roundedStates (marginals : List ℤ) : List ℤ × ℤ :=
  let raw := rawStates marginals
  let missing := PPM - (raw.map (·.whole)).sum
  handOut (raw.mergeSort Raw.ranksBefore) missing (raw.map (·.whole))

-- The events with their marginals, in ascending order.
def orderOf (events marginals : List ℤ) : List (ℤ × ℤ) :=
  (events.zip marginals).mergeSort fun x y => x.1 ≤ y.1

def independentJoint (events marginals : List ℤ) : Except ForecastError Joint :=
  let order := orderOf events marginals
  if events.length ≠ marginals.length then
    .error (.invalidForecast "One probability per event is required.")
  else if order.any fun x => x.2 < 0 || PPM < x.2 then
    .error (.invalidForecast "Probabilities must be between 0% and 100%.")
  else if order.length = 0 then
    .error .rangeError
  else
    assertJoint ⟨order.map (·.1), (roundedStates (order.map (·.2))).1⟩ none

section Shares

variable {marginals : List ℤ} {s j : ℕ}

-- The two choices at an event with the given marginal.
def side (p : ℤ) (yes : Bool) : ℤ := if yes then p else PPM - p

theorem product_eq : product marginals s = Apportion.weight (marginals.map side) s := by
  have hfold (l : List (ℤ × ℕ)) (f : ℤ × ℕ → ℤ) (c : ℤ) : l.foldl (fun a x => a * f x) c = c * (l.map f).prod := by
    induction l generalizing c
    case nil         => simp
    case cons x l hi => rw [List.foldl_cons, hi, List.map_cons, List.prod_cons, mul_assoc]
  rw [product, hfold _ fun x => if s.testBit x.2 then x.1 else PPM - x.1, one_mul, Apportion.weight,
    List.mapIdx_eq_zipIdx_map, List.zipIdx_map, List.map_map]
  rfl

theorem product_nonneg (h : ∀ p ∈ marginals, 0 ≤ p ∧ p ≤ PPM) : 0 ≤ product marginals s := by
  rw [product_eq]
  induction marginals generalizing s
  case nil               => simp [Apportion.weight]
  case cons p marginals hi =>
    obtain ⟨hp, h⟩ := List.forall_mem_cons.mp h
    rw [List.map_cons, Apportion.weight_cons]
    refine mul_nonneg ?_ (hi h)
    unfold side
    split <;> omega

theorem sum_product : ((List.range (2 ^ marginals.length)).map (product marginals)).sum =
    PPM ^ marginals.length := by
  have hside : (fun w : Bool → ℤ => w true + w false) ∘ side = fun _ => PPM := by
    funext p
    simp [side]
  have hsum := Apportion.sum_weight (marginals.map side)
  rw [List.length_map, List.map_map, hside, List.map_const', List.prod_replicate] at hsum
  rw [← hsum]
  exact congrArg List.sum (List.map_congr_left fun s _ => product_eq)

theorem sum_product_bit {p : ℤ} (h : marginals[j]? = some p) :
    ((List.range (2 ^ marginals.length)).map fun s => if s.testBit j then product marginals s else 0).sum =
      p * PPM ^ (marginals.length - 1) := by
  have hside : (fun w : Bool → ℤ => w true + w false) ∘ side = fun _ => PPM := by
    funext p
    simp [side]
  have hlt := (List.getElem?_eq_some_iff.mp h).fst
  have hw : (marginals.map side)[j]? = some (side p) := by simp [h]
  have hsum := Apportion.sum_weight_bit hw (List.length_map _)
  rw [List.eraseIdx_map, List.map_map, hside, List.map_const', List.prod_replicate,
    List.length_eraseIdx_of_lt hlt] at hsum
  simp only [product_eq, hsum]
  rfl

theorem count_bit {n : ℕ} (h : j < n) :
    ((List.range (2 ^ n)).map fun s => if s.testBit j then (1 : ℤ) else 0).sum = 2 ^ (n - 1) := by
  have hone (s : ℕ) : Apportion.weight (List.replicate n fun _ : Bool => (1 : ℤ)) s = 1 := by
    rw [Apportion.weight]
    refine List.prod_eq_one fun x hx => ?_
    obtain ⟨_, _, hx⟩ := List.mem_mapIdx.mp hx
    simpa using hx.symm
  have hw : (List.replicate n fun _ : Bool => (1 : ℤ))[j]? = some fun _ => 1 := by simp [h]
  have hsum := Apportion.sum_weight_bit hw List.length_replicate
  rw [List.eraseIdx_replicate, if_pos h, List.map_replicate, List.prod_replicate] at hsum
  simpa [hone] using hsum

end Shares

section Rounding

variable {marginals states : List ℤ} {ranked : List Raw} {r : Raw} {m : ℕ}

theorem handOut_eq (h : m ≤ ranked.length) :
    handOut ranked m states = (Apportion.bump ((ranked.take m).map (·.s)) states, 0) := by
  induction ranked generalizing m states
  case nil              =>
    obtain rfl : m = 0 := by simpa using h
    rfl
  case cons r ranked hi =>
    cases m
    case zero   => rfl
    case succ m =>
      rw [handOut, if_neg (by omega), show ((m + 1 : ℕ) : ℤ) - 1 = m by omega,
        hi (Nat.le_of_succ_le_succ h)]
      rfl

theorem scale_pos : 0 < PPM ^ (marginals.length - 1) := pow_pos (by decide) _

theorem mem_rawStates (h : ∀ p ∈ marginals, 0 ≤ p ∧ p ≤ PPM) (hr : r ∈ rawStates marginals) :
    r.s < 2 ^ marginals.length ∧ (0 ≤ r.rest ∧ r.rest < PPM ^ (marginals.length - 1)) ∧
      r.whole * PPM ^ (marginals.length - 1) + r.rest = product marginals r.s := by
  rw [rawStates, List.mem_map] at hr
  obtain ⟨s, hs, rfl⟩ := hr
  refine ⟨List.mem_range.mp hs, ⟨?_, ?_⟩, Int.tdiv_mul_add_tmod ..⟩
  · exact Int.tmod_nonneg _ (product_nonneg h)
  · exact Int.tmod_lt_of_pos _ scale_pos

theorem map_s_rawStates : (rawStates marginals).map (·.s) = List.range (2 ^ marginals.length) := by
  rw [rawStates, List.map_map]
  exact List.map_id _

theorem s_of_getElem? {s : ℕ} (h : (rawStates marginals)[s]? = some r) : r.s = s := by
  rw [rawStates, List.getElem?_map, Option.map_eq_some_iff] at h
  obtain ⟨k, hk, rfl⟩ := h
  have ⟨hlt, he⟩ := List.getElem?_eq_some_iff.mp hk
  simpa using he.symm

-- The remainders amount to the missing units.
theorem sum_rest (h : ∀ p ∈ marginals, 0 ≤ p ∧ p ≤ PPM) (hn : marginals ≠ []) :
    ((rawStates marginals).map (·.rest)).sum =
      (PPM - ((rawStates marginals).map (·.whole)).sum) * PPM ^ (marginals.length - 1) := by
  have hpow : PPM ^ marginals.length = PPM * PPM ^ (marginals.length - 1) := by
    rw [← pow_succ', Nat.sub_add_cancel (List.length_pos_iff.mpr hn)]
  have hsum : ((rawStates marginals).map fun r =>
      r.whole * PPM ^ (marginals.length - 1) + r.rest).sum = PPM ^ marginals.length := by
    rw [List.map_congr_left fun r hr => (mem_rawStates h hr).right.right, ← sum_product, ← map_s_rawStates,
      List.map_map]
    rfl
  rw [List.sum_map_add, List.sum_map_mul_right] at hsum
  linarith

theorem Raw.ranksBefore_iff {x y : Raw} :
    x.ranksBefore y ↔ y.rest < x.rest ∨ x.rest = y.rest ∧ x.s ≤ y.s := by
  simp [ranksBefore]

theorem ranked_sorted (l : List Raw) :
    ((l.mergeSort Raw.ranksBefore).map (·.rest)).Pairwise (· ≥ ·) := by
  rw [List.pairwise_map]
  refine (List.pairwise_mergeSort ?_ ?_ l).imp fun {x y} h => ?_
  case refine_1 =>
    intro x y z hxy hyz
    rw [Raw.ranksBefore_iff] at *
    omega
  case refine_2 =>
    intro x y
    rw [Bool.or_eq_true, Raw.ranksBefore_iff, Raw.ranksBefore_iff]
    omega
  case refine_3 =>
    rw [Raw.ranksBefore_iff] at h
    omega

-- All missing units are handed out, and every state is less than a unit away from its exact share.
theorem roundedStates_spec (h : ∀ p ∈ marginals, 0 ≤ p ∧ p ≤ PPM) (hn : marginals ≠ []) :
    ∃ states, roundedStates marginals = (states, 0) ∧ states.length = 2 ^ marginals.length ∧
      states.sum = PPM ∧ ∀ s x, states[s]? = some x →
        |x * PPM ^ (marginals.length - 1) - product marginals s| < PPM ^ (marginals.length - 1) := by
  set raw := rawStates marginals with hraw
  set scale := PPM ^ (marginals.length - 1) with hscale
  set ranked := raw.mergeSort Raw.ranksBefore with hranked
  have hpos : 0 < scale := scale_pos
  have hperm : ranked.Perm raw := List.mergeSort_perm ..
  have hmem : ∀ r ∈ raw, _ := fun r => mem_rawStates h
  have hsum := sum_rest h hn
  -- The number of missing units is not negative.
  have hrests : 0 ≤ (raw.map (·.rest)).sum :=
    List.sum_nonneg (List.forall_mem_map.mpr fun r hr => (hmem r hr).right.left.left)
  have hmissing : 0 ≤ PPM - (raw.map (·.whole)).sum := by
    rw [hsum] at hrests
    exact nonneg_of_mul_nonneg_left hrests hpos
  obtain ⟨m, hm⟩ := Int.eq_ofNat_of_zero_le hmissing
  have hrankedsum : (ranked.map (·.rest)).sum = m * scale := by
    rw [(hperm.map _).sum_eq, hsum, hm]
  have hbound : ∀ x ∈ ranked.map (·.rest), 0 ≤ x ∧ x < scale :=
    List.forall_mem_map.mpr fun r hr => (hmem r (hperm.mem_iff.mp hr)).right.left
  have hle : m ≤ ranked.length := by
    simpa using Apportion.missing_le_length hpos (fun x hx => (hbound x hx).right.le) hrankedsum
  have hnodup : ((ranked.take m).map (·.s)).Nodup := by
    have : (ranked.map (·.s)).Nodup := by
      rw [(hperm.map _).nodup_iff, map_s_rawStates]
      exact List.nodup_range
    exact (List.map_take ▸ this.sublist (List.take_sublist ..))
  have hlength : (raw.map (·.whole)).length = 2 ^ marginals.length := by
    rw [List.length_map, ← List.length_map (f := (·.s)), map_s_rawStates, List.length_range]
  refine ⟨Apportion.bump ((ranked.take m).map (·.s)) (raw.map (·.whole)), ?_, ?_, ?_, fun s x hx => ?_⟩
  case refine_1 => rw [roundedStates, ← hraw, hm, ← hranked, handOut_eq hle]
  case refine_2 => rw [Apportion.length_bump, hlength]
  case refine_3 =>
    rw [Apportion.sum_bump, List.length_map, List.length_take, min_eq_left hle]
    · omega
    · rw [hlength]
      exact List.forall_mem_map.mpr fun r hr => (hmem r (hperm.mem_iff.mp (List.mem_of_mem_take hr))).left
  case refine_4 =>
    rw [Apportion.getElem?_bump hnodup, List.getElem?_map, Option.map_map, Option.map_eq_some_iff] at hx
    obtain ⟨r, hr, rfl⟩ := hx
    have hrs : r.s = s := s_of_getElem? hr
    have ⟨_, ⟨hzero, hlt⟩, heq⟩ := hmem r (List.mem_of_getElem? hr)
    rw [hrs] at heq
    rw [← heq, Function.comp_apply, abs_lt]
    by_cases hs : s ∈ (ranked.take m).map (·.s)
    case neg =>
      rw [if_neg hs]
      constructor <;> linarith
    case pos =>
      rw [if_pos hs]
      have ⟨r', hr', hs'⟩ := List.mem_map.mp hs
      have hsame : r' = r := by
        refine List.inj_on_of_nodup_map (f := (·.s)) ?_ (hperm.mem_iff.mp (List.mem_of_mem_take hr'))
          (List.mem_of_getElem? hr) (hs'.trans hrs.symm)
        rw [map_s_rawStates]
        exact List.nodup_range
      have hrest := Apportion.pos_of_mem_take (ranked_sorted raw) hbound hrankedsum
        (List.map_take ▸ List.mem_map_of_mem (f := Raw.rest) (hsame ▸ hr'))
      constructor <;> linarith

end Rounding

section Joints

variable {events marginals states : List ℤ} {joint : Joint} {event : ℤ} {j n : ℕ}

theorem assertJoint_ok (hl : 1 ≤ events.length ∧ events.length ≤ 4) (h₀ : ∀ e ∈ events, 0 ≤ e)
    (hs : events.Pairwise (· < ·)) (hn : states.length = 2 ^ events.length) (hp : ∀ p ∈ states, 0 ≤ p)
    (hsum : states.sum = PPM) : assertJoint ⟨events, states⟩ none = .ok ⟨events, states⟩ := by
  have horder : ¬ events.zipIdx.any fun (e, i) =>
      e < 0 || (none : Option ℤ).any (· ≤ e) || (0 < i && e ≤ events.getD (i - 1) 0) := by
    simp only [List.any_eq_true, not_exists, not_and, Prod.forall]
    intro e i hm hbad
    have he : events[i]? = some e := List.mem_zipIdx_iff_getElem?.mp hm
    obtain ⟨hi, rfl⟩ := List.getElem?_eq_some_iff.mp he
    have := h₀ _ (List.getElem_mem hi)
    simp only [Option.any_none, Bool.or_false, Bool.or_eq_true, Bool.and_eq_true, decide_eq_true_eq] at hbad
    obtain hbad | ⟨hpos, hbad⟩ := hbad
    · omega
    · rw [List.getD_eq_getElem _ _ (by omega)] at hbad
      exact absurd (List.pairwise_iff_getElem.mp hs (i - 1) i (by omega) hi (by omega)) (not_lt.mpr hbad)
  have hneg : ¬ states.any (· < 0) := by
    simp only [List.any_eq_true, not_exists, not_and, decide_eq_true_eq, not_lt]
    exact hp
  simp only [assertJoint]
  rw [if_neg (by omega), if_neg horder, if_neg (not_or.mpr ⟨not_not.mpr hn, hneg⟩), if_neg (not_not.mpr hsum)]

-- The marginal is the sum over the states that answer yes.
theorem marginal_eq (h : joint.events[j]? = some event) (hd : joint.events.Nodup) (hn : joint.states.length = n) :
    marginal joint event =
      .ok ((List.range n).map fun s => if s.testBit j then joint.states.getD s 0 else 0).sum := by
  have ⟨hj, he⟩ := List.getElem?_eq_some_iff.mp h
  have hindex : joint.events.idxOf event = j := he ▸ hd.idxOf_getElem j hj
  have hfold (l : List (ℤ × ℕ)) (c : ℤ) : l.foldl (fun sum (p, s) => if s.testBit j then sum + p else sum) c =
      c + (l.map fun x => if x.2.testBit j then x.1 else 0).sum := by
    induction l generalizing c
    case nil         => simp
    case cons x l hi =>
      obtain ⟨p, s⟩ := x
      rw [List.foldl_cons, hi, List.map_cons, List.sum_cons]
      by_cases hs : s.testBit j
      · simp only [hs, if_true]
        ring
      · simp [hs]
  have hlist : (joint.states.zipIdx.map fun x => if x.2.testBit j then x.1 else 0) =
      (List.range n).map fun s => if s.testBit j then joint.states.getD s 0 else 0 := by
    refine List.ext_getElem (by simp [hn]) fun s hs _ => ?_
    rw [List.length_map, List.length_zipIdx] at hs
    simp [hs]
  rw [marginal, index, hindex, if_pos hj, ok_bind, hfold, zero_add, hlist]
  rfl

-- A sum of shares that are each less than a unit away is less than their number away.
theorem abs_marginal_lt {p q scale : ℤ} (h : marginals[j]? = some p) (hs : scale = PPM ^ (marginals.length - 1))
    (hl : states.length = 2 ^ marginals.length)
    (hx : ∀ s x, states[s]? = some x → |x * scale - product marginals s| < scale)
    (hq : q = ((List.range (2 ^ marginals.length)).map fun s => if s.testBit j then states.getD s 0 else 0).sum) :
    |q - p| < 2 ^ (marginals.length - 1) := by
  have hj := (List.getElem?_eq_some_iff.mp h).fst
  have hpos : 0 < scale := hs ▸ scale_pos
  have hproduct := sum_product_bit h
  have hcount := count_bit hj
  have hbit (s : ℕ) (hm : s ∈ List.range (2 ^ marginals.length)) :
      |(if s.testBit j then states.getD s 0 else 0) * scale - (if s.testBit j then product marginals s else 0)| ≤
        (if s.testBit j then 1 else 0) * (scale - 1) := by
    split
    case isFalse => simp
    case isTrue  =>
      have hlt : s < states.length := hl ▸ List.mem_range.mp hm
      have := hx s states[s] (List.getElem?_eq_getElem hlt)
      rw [List.getD_eq_getElem _ _ hlt]
      omega
  have hsum : |q * scale - p * scale| ≤ 2 ^ (marginals.length - 1) * (scale - 1) := by
    have := Apportion.abs_sum_sub_le hbit
    rwa [List.sum_map_mul_right, List.sum_map_mul_right, ← hq, hproduct, hcount, ← hs] at this
  have hlt : |q - p| * scale < 2 ^ (marginals.length - 1) * scale := by
    rw [← abs_of_pos hpos, ← abs_mul, abs_of_pos hpos, sub_mul]
    have : (0 : ℤ) < 2 ^ (marginals.length - 1) := by positivity
    linarith
  exact lt_of_mul_lt_mul_right hlt hpos.le

end Joints

section Independent

variable {events marginals events' marginals' : List ℤ}

theorem orderOf_perm : (orderOf events marginals).Perm (events.zip marginals) :=
  List.mergeSort_perm ..

theorem orderOf_sorted : (orderOf events marginals).Pairwise fun x y => x.1 ≤ y.1 := by
  refine (List.pairwise_mergeSort ?_ ?_ _).imp fun {x y} h => of_decide_eq_true h
  · intro x y z hxy hyz
    exact decide_eq_true <| (of_decide_eq_true hxy).trans (of_decide_eq_true hyz)
  · intro x y
    simp [le_total]

theorem map_fst_orderOf_perm (hl : events.length = marginals.length) :
    ((orderOf events marginals).map (·.1)).Perm events := by
  have hperm : (orderOf events marginals).Perm (events.zip marginals) := orderOf_perm
  have := hperm.map (·.1)
  rwa [List.map_fst_zip hl.le] at this

theorem map_fst_orderOf_sorted (hl : events.length = marginals.length) (hd : events.Nodup) :
    ((orderOf events marginals).map (·.1)).Pairwise (· < ·) := by
  have hnodup : ((orderOf events marginals).map (·.1)).Nodup := (map_fst_orderOf_perm hl).nodup_iff.mpr hd
  rw [List.Nodup, List.pairwise_map] at hnodup
  rw [List.pairwise_map]
  exact orderOf_sorted.imp₂ (fun _ _ hle hne => lt_of_le_of_ne hle hne) hnodup

-- Distinct events have one ascending order.
theorem orderOf_eq (hl : events.length = marginals.length) (hd : events.Nodup)
    (hp : (events'.zip marginals').Perm (events.zip marginals)) :
    orderOf events' marginals' = orderOf events marginals := by
  have hperm : (orderOf events' marginals').Perm (orderOf events marginals) :=
    orderOf_perm.trans (hp.trans orderOf_perm.symm)
  refine hperm.eq_of_pairwise (fun x y hx hy hxy hyx => ?_) orderOf_sorted orderOf_sorted
  have hnodup : ((events.zip marginals).map (·.1)).Nodup := by rwa [List.map_fst_zip hl.le]
  exact List.inj_on_of_nodup_map hnodup (orderOf_perm.mem_iff.mp (hperm.mem_iff.mp hx))
    (orderOf_perm.mem_iff.mp hy) (le_antisymm hxy hyx)

-- The probability of a combination of independent answers.
def chance (marginals : List ℤ) (s : ℕ) : ℚ :=
  (marginals.mapIdx fun j (p : ℤ) => if s.testBit j then (p : ℚ) / PPM else 1 - p / PPM).prod

theorem product_eq_chance {s : ℕ} : (product marginals s : ℚ) = PPM ^ marginals.length * chance marginals s := by
  have hweight : chance marginals s =
      Apportion.weight (marginals.map fun (p : ℤ) (b : Bool) => if b then (p : ℚ) / PPM else 1 - p / PPM) s := by
    rw [chance, Apportion.weight, List.mapIdx_eq_zipIdx_map, List.mapIdx_eq_zipIdx_map, List.zipIdx_map,
      List.map_map]
    rfl
  have hside : (marginals.map side).map (fun w b => Int.castRingHom ℚ (w b)) =
      (marginals.map fun (p : ℤ) (b : Bool) => if b then (p : ℚ) / PPM else 1 - p / PPM).map
        fun w b => (PPM : ℚ) * w b := by
    rw [List.map_map, List.map_map]
    refine List.map_congr_left fun p _ => funext fun b => ?_
    have hPPM : (PPM : ℚ) ≠ 0 := by decide
    cases b <;> simp [side] <;> field_simp
  have := Apportion.map_weight (Int.castRingHom ℚ) (marginals.map side) s
  rw [hside, Apportion.weight_smul, List.length_map, ← hweight, ← product_eq] at this
  exact this

-- For one to four distinct events with marginals of 0% to 100%, the baseline is a distribution. Every
-- state is less than a unit away from its exact share, and the loop hands out all missing units. The
-- marginals are near the given ones, and the events may be given in any order.
theorem independentJoint_fair (hl : events.length = marginals.length)
    (hn : 1 ≤ events.length ∧ events.length ≤ 4) (hd : events.Nodup) (he : ∀ e ∈ events, 0 ≤ e)
    (hm : ∀ p ∈ marginals, 0 ≤ p ∧ p ≤ PPM) :
    ∃ (order : List (ℤ × ℤ)) (joint : Joint), order.Perm (events.zip marginals) ∧ order.Pairwise (·.1 < ·.1) ∧
      independentJoint events marginals = .ok joint ∧ joint.events = order.map (·.1) ∧
      roundedStates (order.map (·.2)) = (joint.states, 0) ∧
      joint.states.length = 2 ^ events.length ∧ joint.states.sum = PPM ∧
      (∀ (s : ℕ) (x : ℤ), joint.states[s]? = some x →
        |(x : ℚ) - PPM * chance (order.map (·.2)) s| < 1 ∧ 0 ≤ x ∧
          (chance (order.map (·.2)) s = 0 → x = 0)) ∧
      (∀ e p, (e, p) ∈ events.zip marginals →
        ∃ q, marginal joint e = .ok q ∧ |q - p| < 2 ^ (events.length - 1)) ∧
      ∀ events' marginals', events'.length = marginals'.length →
        (events'.zip marginals').Perm (events.zip marginals) →
          independentJoint events' marginals' = .ok joint := by
  set order := orderOf events marginals with horder
  set ms := order.map (·.2) with hms
  have hperm : order.Perm (events.zip marginals) := orderOf_perm
  have hsorted := map_fst_orderOf_sorted hl hd
  have hlength : ms.length = events.length := by
    rw [hms, List.length_map, hperm.length_eq, List.length_zip, ← hl, min_self]
  have hrange : ∀ p ∈ ms, 0 ≤ p ∧ p ≤ PPM := by
    refine List.forall_mem_map.mpr fun x hx => hm _ ?_
    exact (List.of_mem_zip (hperm.mem_iff.mp hx)).right
  have hne : ms ≠ [] := List.ne_nil_of_length_pos (by omega)
  obtain ⟨states, hrounded, hstates, hsum, hnear⟩ := roundedStates_spec hrange hne
  rw [hlength] at hstates
  have hnonneg : ∀ s x, states[s]? = some x → 0 ≤ x ∧ (product ms s = 0 → x = 0) := by
    intro s x hx
    have hlt := abs_lt.mp (hnear s x hx)
    have hpos : 0 < PPM ^ (ms.length - 1) := scale_pos
    have hproduct := product_nonneg hrange (s := s)
    refine ⟨by nlinarith, fun h₀ => ?_⟩
    rw [h₀] at hlt
    have : x < 1 := by nlinarith
    have : -1 < x := by nlinarith
    omega
  have hevents : (order.map (·.1)).length = events.length := (map_fst_orderOf_perm hl).length_eq
  have hjoint : independentJoint events marginals = .ok ⟨order.map (·.1), states⟩ := by
    have hin : ¬ order.any fun x => x.2 < 0 || PPM < x.2 := by
      simp only [List.any_eq_true, not_exists, not_and, Bool.or_eq_true, decide_eq_true_eq, not_or, not_lt]
      exact fun x hx => hrange x.2 (List.mem_map_of_mem hx)
    have hlen : order.length ≠ 0 := by
      rw [← List.length_map (·.1), hevents]
      omega
    simp only [independentJoint]
    rw [if_neg (not_not.mpr hl), if_neg hin, if_neg hlen, hrounded]
    refine assertJoint_ok (by rwa [hevents]) ?_ hsorted (by rw [hevents, hstates]) ?_ hsum
    · exact fun e hx => he e ((map_fst_orderOf_perm hl).mem_iff.mp hx)
    · intro x hx
      have ⟨s, hs⟩ := List.mem_iff_getElem?.mp hx
      exact (hnonneg s x hs).left
  refine ⟨order, ⟨order.map (·.1), states⟩, hperm, List.pairwise_map.mp hsorted, hjoint, rfl, hrounded, hstates,
    hsum, fun s x hx => ⟨?_, (hnonneg s x hx).left, fun h₀ => (hnonneg s x hx).right ?_⟩, ?_, ?_⟩
  case refine_1 =>
    have hpos : (0 : ℚ) < PPM ^ (ms.length - 1) := by exact_mod_cast scale_pos
    have hchance : (product ms s : ℚ) = PPM ^ (ms.length - 1) * (PPM * chance ms s) := by
      rw [product_eq_chance, ← mul_assoc, ← pow_succ, Nat.sub_add_cancel (List.length_pos_iff.mpr hne)]
    have hlt : |(x : ℚ) * PPM ^ (ms.length - 1) - product ms s| < PPM ^ (ms.length - 1) := by
      exact_mod_cast hnear s x hx
    rw [hchance, mul_comm, ← mul_sub, abs_mul, abs_of_pos hpos] at hlt
    exact lt_of_mul_lt_mul_left (by rwa [mul_one]) hpos.le
  case refine_2 =>
    have : (product ms s : ℚ) = _ := product_eq_chance
    rw [h₀, mul_zero] at this
    exact_mod_cast this
  case refine_3 =>
    intro e p hep
    have ⟨j, hj⟩ := List.mem_iff_getElem?.mp (hperm.mem_iff.mpr hep)
    have hevent : (order.map (·.1))[j]? = some e := by simp [hj]
    have hmarginal : ms[j]? = some p := by simp [hms, hj]
    have hnodup : (order.map (·.1)).Nodup := (map_fst_orderOf_perm hl).nodup_iff.mpr hd
    refine ⟨_, @marginal_eq ⟨order.map (·.1), states⟩ _ _ _ hevent hnodup hstates, ?_⟩
    rw [← hlength]
    exact abs_marginal_lt hmarginal rfl (by rw [hstates, hlength]) hnear (by rw [hlength])
  case refine_4 =>
    intro events' marginals' hl' hp
    rw [← hjoint, independentJoint, independentJoint, orderOf_eq hl hd hp, if_neg (not_not.mpr hl'),
      if_neg (not_not.mpr hl)]

-- The remainders of the four states are equal here, so that the missing units go to the first two.
theorem independentJoint_fair_two_events :
    ∃ joint, independentJoint [3, 1] [500000, 333333] = .ok joint ∧ joint.states.sum = PPM ∧
      (∃ q, marginal joint 3 = .ok q ∧ |q - 500000| < 2) ∧
        independentJoint [1, 3] [333333, 500000] = .ok joint := by
  obtain ⟨_, joint, _, _, hjoint, _, _, _, hsum, _, hmarginal, hperm⟩ :=
    @independentJoint_fair [3, 1] [500000, 333333] rfl (by decide) (by decide)
      (by decide) (by decide)
  exact ⟨joint, hjoint, hsum, hmarginal 3 500000 (by decide), hperm _ _ rfl (by decide)⟩

end Independent

end Sdk
