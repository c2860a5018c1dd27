import Flurbo.Contracts.Pools.Settlement
import Flurbo.Library.Mean
import Flurbo.Sdk.Release

-- What an agent can lose on a market after a purchase that the policy has accepted.

open Evm Except

namespace Sdk

variable {e e' : PolicyEntry} {j j' : List PolicyEntry} {market : String} {bought : List JournalStatus}
  {claim c : Claim} {input : PolicyInput} {positions : List (Claim × ℤ)}

section Outcomes

abbrev PolicyEntry.UnfinishedBuy (e : PolicyEntry) : Prop :=
  e.action = .buy ∧ e.status ∈ JournalStatus.unfinished

def JournalStatus.failed : List JournalStatus := [reverted, replaced, expired, abandoned]

-- An unfinished purchase is confirmed within its limit, or comes to nothing.
inductive Finishes : PolicyEntry → PolicyEntry → Prop
  | confirmed (e : PolicyEntry) (cost : ℕ) (hu : e.UnfinishedBuy) (hc : cost ≤ e.limitAtoms) :
    Finishes e { e with status := .confirmed, costAtoms := some cost }
  | failed (e : PolicyEntry) (status : JournalStatus) (hu : e.UnfinishedBuy)
    (hs : status ∈ JournalStatus.failed) : Finishes e { e with status }
  | other (e : PolicyEntry) (hu : ¬ e.UnfinishedBuy) : Finishes e e

-- The candidate as an entry of the journal.
def Candidate.entry (c : Candidate) (plannedAt : ℤ) : PolicyEntry :=
  ⟨c.action, c.nameSpace, some c.claim, c.quantityAtoms, c.limitAtoms, none, .planned, plannedAt⟩

-- The shares of a claim that an entry adds on a market, if purchases count in the given states. Only
-- confirmed sales and redemptions count.
def PolicyEntry.shares (bought : List JournalStatus) (market : String) (e : PolicyEntry) (c : Claim) : ℤ :=
  if e.claim ≠ some c ∨ e.nameSpace ≠ market then 0
  else if e.action = .buy ∧ e.status ∈ bought then e.quantityAtoms
  else if (e.action = .sell ∨ e.action = .redeem) ∧ e.status = .confirmed then -e.quantityAtoms
  else 0

-- What such purchases have cost, or cost at most.
def PolicyEntry.cost (bought : List JournalStatus) (market : String) (e : PolicyEntry) : ℕ :=
  if e.claim = none ∨ e.nameSpace ≠ market ∨ e.action ≠ .buy ∨ e.status ∉ bought then 0
  else if e.status = .confirmed then e.costAtoms.getD 0
  else e.limitAtoms

def position (bought : List JournalStatus) (market : String) (j : List PolicyEntry) (c : Claim) : ℤ :=
  (j.map (·.shares bought market c)).sum

def costBasis (bought : List JournalStatus) (market : String) (j : List PolicyEntry) : ℕ :=
  (j.map (·.cost bought market)).sum

def claims (j : List PolicyEntry) : Finset Claim := (j.filterMap (·.claim)).toFinset

structure Resolution where
  yesMask  : ℕ
  voidMask : ℕ

-- What `PilotPool.resolve` requires.
structure Resolution.Valid (r : Resolution) (eventCount : ℕ) : Prop where
  disjoint : r.yesMask &&& r.voidMask = 0
  yes_lt   : r.yesMask < 2 ^ eventCount

variable (eventCount : ℕ) (r : Resolution)

def payout (claim : Claim) (quantity : ℕ) : ℕ :=
  let (numerator, denominator) := payoutFraction claim eventCount r.yesMask r.voidMask
  quantity * numerator / denominator

-- What the agent has lost once everything is redeemed.
def settledLoss (market : String) (j : List PolicyEntry) : ℤ :=
  costBasis [.confirmed] market j -
    ∑ c ∈ claims j, (payout eventCount r c (position [.confirmed] market j c).toNat : ℤ)

-- The positions of which the payout is rounded.
def roundedPositions (market : String) (j : List PolicyEntry) : ℕ :=
  {c ∈ claims j | ¬ (payoutFraction c eventCount r.yesMask r.voidMask).2 ∣
    (position [.confirmed] market j c).toNat * (payoutFraction c eventCount r.yesMask r.voidMask).1}.card

-- A purchase on the market that comes to nothing.
def fails (market : String) (p : PolicyEntry × PolicyEntry) : Bool :=
  p.1.UnfinishedBuy ∧ p.1.claim.isSome ∧ p.1.nameSpace = market ∧ p.2.status ∈ JournalStatus.failed

-- What was counted for the purchases that come to nothing: what they would pay at most, less their
-- limits.
def shortfall (market : String) (j j' : List PolicyEntry) : ℤ :=
  (((j.zip j').filter (fails market)).map fun p => (p.1.quantityAtoms : ℤ) - p.1.limitAtoms).sum

end Outcomes

section Measured

-- The states of purchases that `worstCaseLoss` counts.
def measured : List JournalStatus := .confirmed :: JournalStatus.unfinished

def amount (positions : List (Claim × ℤ)) (c : Claim) : ℤ :=
  (positions.map fun p => if p.1 = c then p.2 else 0).sum

abbrev held (positions : List (Claim × ℤ)) : List Claim := positions.map (·.1)

theorem amount_addPosition {quantity : ℤ} :
    amount (addPosition claim quantity positions) c = amount positions c + if claim = c then quantity else 0 := by
  induction positions
  case nil          => simp [addPosition, amount]
  case cons p ps hi =>
    rw [addPosition]
    split
    case isTrue h  =>
      simp only [amount, List.map_cons, List.sum_cons, h]
      split <;> ring
    case isFalse h =>
      simp only [amount, List.map_cons, List.sum_cons] at hi ⊢
      rw [hi]
      ring

theorem mem_addPosition {quantity : ℤ} :
    c ∈ held (addPosition claim quantity positions) ↔ c = claim ∨ c ∈ held positions := by
  induction positions
  case nil          => simp [addPosition]
  case cons p ps hi =>
    rw [addPosition]
    split
    case isTrue h  => simp only [held, List.map_cons, List.mem_cons, h]; tauto
    case isFalse h =>
      simp only [held, List.map_cons, List.mem_cons] at hi ⊢
      rw [hi]
      tauto

theorem nodup_addPosition {quantity : ℤ} (h : (held positions).Nodup) :
    (held (addPosition claim quantity positions)).Nodup := by
  induction positions
  case nil          => simp [addPosition]
  case cons p ps hi =>
    obtain ⟨hp, hn⟩ := List.nodup_cons.mp h
    rw [addPosition]
    split
    case isTrue hc  => exact List.nodup_cons.mpr ⟨hp, hn⟩
    case isFalse hc =>
      refine List.nodup_cons.mpr ⟨fun hm => ?_, hi hn⟩
      rcases mem_addPosition.mp hm with hm | hm
      · exact hc hm
      · exact hp hm

-- Positions and their cost as they were read from a journal.
structure Reads (market : String) (j : List PolicyEntry) (s : List (Claim × ℤ) × ℕ) : Prop where
  nodup  : (held s.1).Nodup
  claims : ∀ c ∈ held s.1, c ∈ claims j
  amount : ∀ c, amount s.1 c = position measured market j c
  cost   : s.2 = costBasis measured market j

theorem position_concat : position bought market (j ++ [e]) c = position bought market j c + e.shares bought market c := by
  simp [position]

theorem costBasis_concat : costBasis bought market (j ++ [e]) = costBasis bought market j + e.cost bought market := by
  simp [costBasis]

theorem mem_claims : c ∈ claims j ↔ ∃ e ∈ j, e.claim = some c := by
  simp [claims]

theorem claims_concat (h : c ∈ claims j) : c ∈ claims (j ++ [e]) := by
  obtain ⟨x, hx, hc⟩ := mem_claims.mp h
  exact mem_claims.mpr ⟨x, List.mem_append_left _ hx, hc⟩

variable {s : List (Claim × ℤ) × ℕ} {quantity : ℤ}

theorem Reads.nil : Reads market [] ([], 0) :=
  ⟨List.nodup_nil, fun _ h => (by cases h), fun _ => rfl, rfl⟩

theorem Reads.keep (h : Reads market j s) (hs : ∀ c, e.shares measured market c = 0)
    (hc : e.cost measured market = 0) : Reads market (j ++ [e]) s where
  nodup      := h.nodup
  claims c m := claims_concat (h.claims c m)
  amount c   := by rw [position_concat, hs, add_zero, h.amount]
  cost       := by rw [costBasis_concat, hc, add_zero, h.cost]

theorem Reads.add (h : Reads market j s) (he : e.claim = some claim)
    (hs : ∀ c, e.shares measured market c = if claim = c then quantity else 0) :
    Reads market (j ++ [e]) (addPosition claim quantity s.1, s.2 + e.cost measured market) where
  nodup      := nodup_addPosition h.nodup
  claims c m := by
    rcases mem_addPosition.mp m with rfl | m
    · exact mem_claims.mpr ⟨e, by simp, he⟩
    · exact claims_concat (h.claims c m)
  amount c   := by rw [position_concat, hs, amount_addPosition, h.amount]
  cost       := by rw [costBasis_concat, h.cost]

theorem Reads.addEntry (h : Reads market j s) : Reads market (j ++ [e]) (Sdk.addEntry market s e) := by
  have hu : JournalStatus.confirmed ∉ JournalStatus.unfinished := by decide
  unfold Sdk.addEntry
  split
  case h_1 hc       =>
    exact h.keep (fun c => by simp [PolicyEntry.shares, hc]) (by simp [PolicyEntry.cost, hc])
  case h_2 claim hc =>
    split
    case isTrue hm  => exact h.keep (fun c => by simp [PolicyEntry.shares, hm]) (by simp [PolicyEntry.cost, hm])
    case isFalse hm =>
      have hm := not_not.mp hm
      split
      case isTrue hb  =>
        have hcost : e.costAtoms.getD 0 = e.cost measured market := by simp [PolicyEntry.cost, hc, hm, hb, measured]
        rw [hcost]
        exact h.add hc fun c => by simp [PolicyEntry.shares, hc, hm, hb, measured]
      case isFalse hb =>
        split
        case isTrue hp  =>
          have hne : e.status ≠ .confirmed := by rintro hs; rw [hs] at hp; exact hu hp.right
          have hcost : e.limitAtoms = e.cost measured market := by
            simp [PolicyEntry.cost, hc, hm, hp, hne, measured]
          rw [hcost]
          exact h.add hc fun c => by simp [PolicyEntry.shares, hc, hm, hp, measured]
        case isFalse hp =>
          have hn : ¬ (e.action = .buy ∧ e.status ∈ measured) := by
            simp only [measured, List.mem_cons]
            tauto
          have hcost : e.cost measured market = 0 := by
            simp only [PolicyEntry.cost]
            rw [if_pos (by tauto)]
          split
          case isTrue hr  =>
            have hs (c : Claim) : e.shares measured market c = if claim = c then -(e.quantityAtoms : ℤ) else 0 := by
              simp only [PolicyEntry.shares, if_neg hn, if_pos hr, hc, hm]
              simp
            have := h.add hc hs
            rwa [hcost] at this
          case isFalse hr =>
            exact h.keep (fun c => by simp only [PolicyEntry.shares, if_neg hn, if_neg hr, ite_self]) hcost

theorem reads_foldl : Reads market j (j.foldl (Sdk.addEntry market) ([], 0)) := by
  induction j using List.reverseRecOn
  case nil            => exact .nil
  case append_singleton j e hi =>
    rw [List.foldl_concat]
    exact hi.addEntry

theorem amount_eq_zero (h : c ∉ held positions) : amount positions c = 0 := by
  refine List.sum_eq_zero fun q hq => ?_
  obtain ⟨p, hp, rfl⟩ := List.mem_map.mp hq
  exact if_neg fun (he : p.1 = c) => h (he ▸ List.mem_map_of_mem hp)

-- What the positions pay in a state.
theorem payoutIn_eq {state : ℕ} {s : Finset Claim} (hn : (held positions).Nodup) (hs : ∀ c ∈ held positions, c ∈ s) :
    payoutIn positions state = ∑ c ∈ s, if paysIn c state then max (amount positions c) 0 else 0 := by
  induction positions
  case nil          => simp [payoutIn, amount]
  case cons p ps hi =>
    obtain ⟨hp, hn⟩ := List.nodup_cons.mp hn
    have hi := hi hn fun c hc => hs c (List.mem_cons_of_mem _ hc)
    have hmem : p.1 ∈ s := hs p.1 List.mem_cons_self
    have hterm (c : Claim) : (if paysIn c state then max (amount (p :: ps) c) 0 else 0) =
        (if p.1 = c then if paysIn p.1 state then max p.2 0 else 0 else 0) +
          if paysIn c state then max (amount ps c) 0 else 0 := by
      by_cases hc : p.1 = c
      · subst hc
        have hz := amount_eq_zero hp
        simp only [amount, List.map_cons, List.sum_cons] at hz ⊢
        simp [hz]
      · simp [amount, hc]
    rw [Finset.sum_congr rfl fun c _ => hterm c, Finset.sum_add_distrib, Finset.sum_ite_eq, if_pos hmem, ← hi]
    simp only [payoutIn, List.map_cons, List.sum_cons]
    congr 1
    by_cases hpays : paysIn p.1 state
    · simp only [hpays, and_true, if_true]
      split <;> omega
    · simp [hpays]

-- The source's search for the lowest payout finds one that is at most all others.
theorem floor_le (P : ℕ → ℤ) (states : List ℕ) (floor : Option ℤ) (h : states ≠ [] ∨ floor.isSome) :
    ∃ f, states.foldl (fun floor state => if floor.all (P state < ·) then some (P state) else floor) floor = some f ∧
      (∀ x, floor = some x → f ≤ x) ∧ ∀ state ∈ states, f ≤ P state := by
  induction states generalizing floor
  case nil                => obtain ⟨f, rfl⟩ := Option.isSome_iff_exists.mp (h.resolve_left (· rfl)); simp
  case cons state rest hi =>
    rw [List.foldl_cons]
    split
    case isTrue hlt  =>
      obtain ⟨f, hf, hx, hall⟩ := hi (some (P state)) (.inr rfl)
      have hle := hx _ rfl
      refine ⟨f, hf, fun x hfloor => ?_, List.forall_mem_cons.mpr ⟨hle, hall⟩⟩
      rw [hfloor] at hlt
      exact hle.trans (le_of_lt (by simpa using hlt))
    case isFalse hlt =>
      obtain ⟨x, rfl⟩ : ∃ x, floor = some x := by cases floor <;> simp_all
      obtain ⟨f, hf, hx, hall⟩ := hi (some x) (.inr rfl)
      have hle := hx _ rfl
      have hge : x ≤ P state := by simpa using hlt
      exact ⟨f, hf, hx, List.forall_mem_cons.mpr ⟨hle.trans hge, hall⟩⟩

-- What the policy has checked: in every state the positions, with all unfinished purchases and the
-- candidate, pay all but the limit of what they cost.
theorem evaluatePolicy_loss (plannedAt : ℤ) (h : evaluatePolicy input = []) (ha : input.candidate.action = .buy)
    {state : ℕ} (hs : state < 2 ^ input.market.eventCount) :
    let j := input.journal ++ [input.candidate.entry plannedAt]
    let market := input.market.nameSpace
    (costBasis measured market j : ℤ) - input.policy.maxWorstCaseLossAtoms ≤
      ∑ c ∈ claims j, if paysIn c state then max (position measured market j c) 0 else 0 := by
  intro j market
  simp only [evaluatePolicy, List.map_eq_nil_iff, List.filter_eq_nil_iff, List.forall_mem_cons] at h
  obtain ⟨_, hmarket, _, _, _, _, _, _, _, _, _, _, _, _, hloss, _⟩ := h
  have hmarket : input.candidate.nameSpace = market := by simp_all [market]
  have hloss : worstCaseLoss input ≤ input.policy.maxWorstCaseLossAtoms := by simpa [ha] using hloss
  have hreads : Reads market j _ := reads_foldl
  rw [List.foldl_concat] at hreads
  have hentry (s : List (Claim × ℤ) × ℕ) : addEntry market s (input.candidate.entry plannedAt) =
      (addPosition input.candidate.claim input.candidate.quantityAtoms s.1, s.2 + input.candidate.limitAtoms) := by
    simp [addEntry, Candidate.entry, hmarket, ha, JournalStatus.unfinished]
  rw [hentry] at hreads
  obtain ⟨f, hf, _, hall⟩ := floor_le (payoutIn (addPosition input.candidate.claim
    input.candidate.quantityAtoms (input.journal.foldl (addEntry market) ([], 0)).1))
    (List.range (2 ^ input.market.eventCount)) none (.inl (List.ne_nil_of_mem (List.mem_range.mpr hs)))
  have hle := hall state (List.mem_range.mpr hs)
  rw [payoutIn_eq hreads.nodup hreads.claims, Finset.sum_congr rfl fun c _ => by rw [hreads.amount c]] at hle
  have hcost := hreads.cost
  simp only [worstCaseLoss] at hloss
  rw [hf] at hloss
  simp only [Option.getD_some] at hloss
  rw [← hcost]
  push_cast at hloss ⊢
  linarith

end Measured

section Finished

theorem Finishes.same_claim (h : Finishes e e') : e'.claim = e.claim := by
  cases h <;> rfl

theorem claims_finished (h : List.Forall₂ Finishes j j') : claims j' = claims j := by
  induction h
  case nil           => rfl
  case cons he _ hi  =>
    simp only [claims, List.filterMap_cons, he.same_claim] at hi ⊢
    split <;> simp [hi]

-- The shares of a claim that were counted for purchases that come to nothing.
def lostShares (market : String) (j j' : List PolicyEntry) (c : Claim) : ℤ :=
  (((j.zip j').filter (fails market)).map fun p => if p.1.claim = some c then (p.1.quantityAtoms : ℤ) else 0).sum

theorem unfinishedBuy_ne (h : e.UnfinishedBuy) : e.status ≠ .confirmed := by
  intro hs
  have hu := h.right
  rw [hs] at hu
  exact absurd hu (by decide)

theorem mem_measured (h : ¬ e.UnfinishedBuy) (ha : e.action = .buy) :
    e.status ∈ measured ↔ e.status ∈ [JournalStatus.confirmed] := by
  simp only [measured, List.mem_cons, List.not_mem_nil, or_false]
  tauto

theorem Finishes.shares (h : Finishes e e') :
    e.shares measured market c = e'.shares [.confirmed] market c +
      if fails market (e, e') ∧ e.claim = some c then (e.quantityAtoms : ℤ) else 0 := by
  have hconfirmed : JournalStatus.confirmed ∉ JournalStatus.failed := by decide
  cases h
  case confirmed cost hu hc =>
    simp [PolicyEntry.shares, fails, measured, hu.left, hu.right, hconfirmed]
  case failed status hu hs  =>
    have hne : status ≠ .confirmed := by rintro rfl; exact hconfirmed hs
    by_cases hc : e.claim = some c <;> by_cases hm : e.nameSpace = market <;>
      simp [PolicyEntry.shares, fails, measured, hu.left, hu.right, hs, hne, hc, hm]
  case other hu             =>
    have hb := and_congr_right (mem_measured hu)
    simp only [PolicyEntry.shares, hb]
    simp [fails, hu]

theorem Finishes.cost (h : Finishes e e') :
    e'.cost [.confirmed] market + (if fails market (e, e') then e.limitAtoms else 0) ≤ e.cost measured market := by
  have hconfirmed : JournalStatus.confirmed ∉ JournalStatus.failed := by decide
  cases h
  case confirmed cost hu hc =>
    have hne := unfinishedBuy_ne hu
    by_cases hclaim : e.claim = none <;> by_cases hm : e.nameSpace = market <;>
      simp [PolicyEntry.cost, fails, measured, hu.left, hu.right, hconfirmed, hclaim, hm, hne, hc]
  case failed status hu hs  =>
    have hne : status ≠ .confirmed := by rintro rfl; exact hconfirmed hs
    have hne' := unfinishedBuy_ne hu
    by_cases hclaim : e.claim = none <;> by_cases hm : e.nameSpace = market <;>
      simp [PolicyEntry.cost, fails, measured, hu.left, hu.right, hs, hne, hne', hclaim, hm,
        Option.isSome_iff_ne_none]
  case other hu             =>
    by_cases ha : e.action = .buy
    · simp only [PolicyEntry.cost, mem_measured hu ha]
      simp [fails, hu]
    · simp [PolicyEntry.cost, fails, ha]

variable {costs : ℕ}

theorem position_finished (h : List.Forall₂ Finishes j j') :
    position measured market j c = position [.confirmed] market j' c + lostShares market j j' c := by
  induction h
  case nil                    => rfl
  case cons e e' _ _ he _ hi =>
    have hs : e.shares measured market c = e'.shares [.confirmed] market c + _ := he.shares
    simp only [position, lostShares, List.map_cons, List.sum_cons, List.zip_cons_cons, List.filter_cons] at hi ⊢
    rw [hi, hs]
    by_cases hf : fails market (e, e')
    · simp only [hf, true_and, if_true, List.map_cons, List.sum_cons]
      ring
    · simp only [hf, Bool.false_eq_true, false_and, if_false]
      ring

theorem costBasis_finished (h : List.Forall₂ Finishes j j') :
    costBasis [.confirmed] market j' +
      (((j.zip j').filter (fails market)).map (·.1.limitAtoms)).sum ≤ costBasis measured market j := by
  induction h
  case nil                    => exact le_rfl
  case cons e e' _ _ he _ hi =>
    have hs : e'.cost [.confirmed] market + _ ≤ e.cost measured market := he.cost
    simp only [costBasis, List.map_cons, List.sum_cons, List.zip_cons_cons, List.filter_cons] at hi ⊢
    split <;> simp_all <;> omega

theorem lostShares_nonneg : 0 ≤ lostShares market j j' c := by
  refine List.sum_nonneg fun x hx => ?_
  obtain ⟨p, _, rfl⟩ := List.mem_map.mp hx
  split <;> omega

-- Each share that is lost is of one claim.
theorem sum_lostShares {s : Finset Claim} :
    ∑ c ∈ s, lostShares market j j' c ≤
      (((j.zip j').filter (fails market)).map fun p => (p.1.quantityAtoms : ℤ)).sum := by
  unfold lostShares
  induction (j.zip j').filter (fails market)
  case nil          => simp
  case cons p ps hi =>
    simp only [List.map_cons, List.sum_cons, Finset.sum_add_distrib]
    refine add_le_add ?_ hi
    cases hc : p.1.claim
    case none   => simp
    case some d => simp only [Option.some.injEq, Finset.sum_ite_eq]; split <;> omega

theorem shortfall_eq :
    shortfall market j j' =
      (((j.zip j').filter (fails market)).map fun p => (p.1.quantityAtoms : ℤ)).sum -
        (((j.zip j').filter (fails market)).map (·.1.limitAtoms)).sum := by
  unfold shortfall
  induction (j.zip j').filter (fails market)
  case nil          => simp
  case cons p ps hi =>
    simp only [List.map_cons, List.sum_cons, hi]
    push_cast
    ring

end Finished

section Bound

variable {r : Resolution} {events : ℕ}

-- The states that a resolution leaves open.
def Resolution.completions (r : Resolution) (events : ℕ) : List ℕ :=
  (List.range (2 ^ events - 1 + 1)).filter fun state => state &&& ((2 ^ events - 1) ^^^ r.voidMask) = r.yesMask

theorem payoutFraction_eq :
    payoutFraction c events r.yesMask r.voidMask =
      (Mean.count (fun c state => paysIn c state) (r.completions events) c, (r.completions events).length) := rfl

theorem completions_ne_nil (h : r.Valid events) : r.completions events ≠ [] := by
  refine List.ne_nil_of_mem (a := r.yesMask) (List.mem_filter.mpr ⟨?_, decide_eq_true ?_⟩)
  · have := h.yes_lt
    exact List.mem_range.mpr (by omega)
  · apply Nat.eq_of_testBit_eq
    intro i
    have hd := congrArg (·.testBit i) h.disjoint
    simp only [Nat.testBit_and, Nat.zero_testBit, Nat.testBit_xor, Nat.testBit_two_pow_sub_one] at hd ⊢
    by_cases hi : i < events
    · cases hy : r.yesMask.testBit i <;> simp_all
    · rw [Bits.testBit_eq_false h.yes_lt (not_lt.mp hi)]
      rfl

theorem settledLoss_le {input : PolicyInput} (plannedAt : ℤ) {r : Resolution} {j' : List PolicyEntry}
    (ha : input.candidate.action = .buy) (hp : evaluatePolicy input = [])
    (hj : List.Forall₂ Finishes (input.journal ++ [input.candidate.entry plannedAt]) j')
    (hr : r.Valid input.market.eventCount) :
    settledLoss input.market.eventCount r input.market.nameSpace j' ≤
      input.policy.maxWorstCaseLossAtoms +
        shortfall input.market.nameSpace (input.journal ++ [input.candidate.entry plannedAt]) j' +
        (roundedPositions input.market.eventCount r input.market.nameSpace j' - 1 : ℕ) := by
  have hstate (state : ℕ) (hs : state ∈ r.completions input.market.eventCount) :
      state < 2 ^ input.market.eventCount := by
    have := Nat.two_pow_pos input.market.eventCount
    have := List.mem_range.mp (List.mem_of_mem_filter hs)
    omega
  have hloss (state : ℕ) (hs : state ∈ r.completions input.market.eventCount) :=
    evaluatePolicy_loss plannedAt hp ha (hstate state hs)
  generalize input.journal ++ [input.candidate.entry plannedAt] = j at hj hloss ⊢
  generalize input.market.nameSpace = market at hloss ⊢
  set held := fun c => (position [.confirmed] market j' c).toNat
  -- What is held in the end still pays that much, less what has been lost.
  have hpays (state : ℕ) (hs : state ∈ r.completions input.market.eventCount) :
      (costBasis measured market j : ℤ) - input.policy.maxWorstCaseLossAtoms -
        (((j.zip j').filter (fails market)).map fun p => (p.1.quantityAtoms : ℤ)).sum ≤
          Mean.payout (claims j) held (fun c state => paysIn c state) state := by
    have hterm (c : Claim) : (if paysIn c state then max (position measured market j c) 0 else 0) ≤
        ((if paysIn c state then held c else 0 : ℕ) : ℤ) + lostShares market j j' c := by
      have hpos : position measured market j c = _ + _ := position_finished hj
      have hlost : 0 ≤ lostShares market j j' c := lostShares_nonneg
      have hheldc : (held c : ℤ) = max (position [.confirmed] market j' c) 0 := Int.ofNat_toNat _
      split <;> omega
    have hsum : ∑ c ∈ claims j, lostShares market j j' c ≤ _ := sum_lostShares
    have hle := (hloss state hs).trans (Finset.sum_le_sum fun c _ => hterm c)
    rw [Finset.sum_add_distrib] at hle
    rw [Mean.payout]
    push_cast at hle ⊢
    linarith
  have hmean := Mean.le_sum_div (completions_ne_nil hr) hpays
  have hcost : costBasis [.confirmed] market j' + _ ≤ costBasis measured market j := costBasis_finished hj
  have hpaid : ∑ c ∈ claims j', (payout input.market.eventCount r c (held c) : ℤ) =
      (∑ c ∈ claims j, held c * Mean.count (fun c state => paysIn c state) (r.completions input.market.eventCount) c /
        (r.completions input.market.eventCount).length : ℕ) := by
    rw [claims_finished hj]
    push_cast
    rfl
  have hrounded : roundedPositions input.market.eventCount r market j' =
      Mean.rounded (claims j) held (fun c state => paysIn c state) (r.completions input.market.eventCount) := by
    rw [roundedPositions, claims_finished hj]
    rfl
  rw [settledLoss, hpaid, hrounded, shortfall_eq]
  push_cast at hmean hcost ⊢
  linarith

theorem loss_bounded (input : PolicyInput) (plannedAt : ℤ) (r : Resolution) (j' : List PolicyEntry)
    (ha : input.candidate.action = .buy) (hp : evaluatePolicy input = [])
    (hj : List.Forall₂ Finishes (input.journal ++ [input.candidate.entry plannedAt]) j')
    (hr : r.Valid input.market.eventCount) :
    settledLoss input.market.eventCount r input.market.nameSpace j' ≤
      input.policy.maxWorstCaseLossAtoms +
        shortfall input.market.nameSpace (input.journal ++ [input.candidate.entry plannedAt]) j' +
        (roundedPositions input.market.eventCount r input.market.nameSpace j' - 1 : ℕ) :=
  settledLoss_le plannedAt ha hp hj hr

theorem shortfall_eq_zero (h : List.Forall₂ (fun e e' => e.UnfinishedBuy → e'.status = .confirmed) j j') :
    shortfall market j j' = 0 := by
  have hnone : (j.zip j').filter (fails market) = [] := by
    rw [List.filter_eq_nil_iff]
    rintro ⟨e, e'⟩ hm hf
    simp only [fails, decide_eq_true_eq] at hf
    have hs := (List.forall₂_iff_zip.mp h).2 hm hf.1
    rw [hs] at hf
    exact absurd hf.2.2.2 (by decide)
  rw [shortfall, hnone]
  rfl

-- Without a void event one state is left, and nothing is rounded.
theorem completions_of_void_zero (hr : r.Valid events) (hv : r.voidMask = 0) : r.completions events = [r.yesMask] := by
  have hlt : r.yesMask < 2 ^ events - 1 + 1 := by
    have := hr.yes_lt
    omega
  have heq : r.completions events = (List.range (2 ^ events - 1 + 1)).filter (· = r.yesMask) := by
    refine List.filter_congr fun state hs => ?_
    have hstate : state < 2 ^ events := by
      have := List.mem_range.mp hs
      have := Nat.two_pow_pos events
      omega
    rw [hv, Nat.xor_zero, Nat.and_two_pow_sub_one_eq_mod, Nat.mod_eq_of_lt hstate]
  rw [heq, List.filter_eq, List.count_eq_one_of_mem List.nodup_range (List.mem_range.mpr hlt)]
  rfl

theorem roundedPositions_eq_zero (hr : r.Valid events) (hv : r.voidMask = 0) :
    roundedPositions events r market j = 0 := by
  have hone (c : Claim) : (payoutFraction c events r.yesMask r.voidMask).2 = 1 := by
    rw [payoutFraction_eq, completions_of_void_zero hr hv]
    rfl
  simp [roundedPositions, hone]

-- If every purchase is confirmed in the end and no event is void, the limit holds.
theorem loss_within_limit {input : PolicyInput} {plannedAt : ℤ} (ha : input.candidate.action = .buy)
    (hp : evaluatePolicy input = [])
    (hj : List.Forall₂ Finishes (input.journal ++ [input.candidate.entry plannedAt]) j')
    (hc : List.Forall₂ (fun e e' => e.UnfinishedBuy → e'.status = .confirmed)
      (input.journal ++ [input.candidate.entry plannedAt]) j')
    (hr : r.Valid input.market.eventCount) (hv : r.voidMask = 0) :
    settledLoss input.market.eventCount r input.market.nameSpace j' ≤ input.policy.maxWorstCaseLossAtoms := by
  have hle := settledLoss_le plannedAt ha hp hj hr
  rw [shortfall_eq_zero hc, roundedPositions_eq_zero hr hv] at hle
  simpa using hle

end Bound

section Pool

open FactoredCost (project)

variable {scope state mask quantity paid : ℕ} {D : Dependencies} {cfg : Pools.Config}
  {s : Pools.Storage D Pools.PilotPool.Void} {r : Resolution}

theorem scopeEvents_eq (h : scope < 2 ^ 31) : scopeEvents scope = scope.bitIndices := by
  refine List.Pairwise.eq_of_mem_iff (r := (· < ·)) (List.Pairwise.filter _ List.pairwise_lt_range)
    Nat.bitIndices_sorted.pairwise fun i => ?_
  rw [scopeEvents, List.mem_filter, List.mem_range, Nat.mem_bitIndices]
  simp only [Nat.one_shiftLeft, Bits.and_two_pow_ne_zero, decide_eq_true_eq]
  refine ⟨And.right, fun hi => ⟨?_, hi⟩⟩
  by_contra hge
  rw [Bits.testBit_eq_false h (not_lt.mp hge)] at hi
  cases hi

theorem localState_eq (h : scope < 2 ^ 31) : localState scope state = project scope state := by
  have hgather : (List.foldl _ (0, 0) (scope.bitIndices.map (2 ^ ·))).1 = 0 ||| _ <<< 0 :=
    Bits.foldl_gather (x := state)
  rw [List.foldl_map, Nat.zero_or, Nat.shiftLeft_zero] at hgather
  rw [localState, scopeEvents_eq h, FactoredCost.project_eq (by omega), ← hgather]
  simp only [Nat.one_shiftLeft]

-- The runtime reads claims as the pools do.
theorem paysIn_eq (h : c.scope < 2 ^ 31) : paysIn c state = c.pays state := by
  rw [paysIn, Claim.pays, localState_eq h, Nat.one_shiftLeft]
  simp [Bits.and_two_pow_ne_zero]

-- What the agent counts on is what `PilotPool.redeem` pays.
theorem payout_redeemed {w w' : Pools.World D Pools.PilotPool.Void} {msg : Msg cfg.self}
    (h : Pools.PilotPool.redeem cfg msg scope mask quantity w = .ok (w', paid)) (hs : scope < 2 ^ 31) :
    paid = truncate 128 (payout cfg.eventCount ⟨w.pool.resolvedState, w.pool.ext.voidMask⟩ ⟨scope, mask⟩ quantity) := by
  have hcount : (payoutFraction ⟨scope, mask⟩ cfg.eventCount w.pool.resolvedState w.pool.ext.voidMask) =
      (Pools.PilotPool.numerator cfg w.pool ⟨scope, mask⟩, Pools.PilotPool.denominator cfg w.pool) := by
    have hrange : 2 ^ cfg.eventCount - 1 + 1 = 2 ^ cfg.eventCount := Nat.sub_add_cancel (Nat.two_pow_pos _)
    have hpays : paysIn ⟨scope, mask⟩ = Claim.pays ⟨scope, mask⟩ := funext fun _ => paysIn_eq hs
    simp only [payoutFraction, Pools.PilotPool.numerator, Pools.PilotPool.denominator,
      Pools.PilotPool.completions, hrange, hpays, Nat.one_shiftLeft]
  rw [(Pools.PilotPool.redeem_eq_ok h).right, payout, hcount]

theorem payout_le : payout eventCount r c quantity ≤ quantity := by
  rw [payout, payoutFraction_eq]
  refine Nat.div_le_of_le_mul ?_
  rw [mul_comm]
  exact Nat.mul_le_mul_right _ (List.length_filter_le _ _)

-- What a market that was resolved so pays for a claim. Nothing is redeemed for what is not held.
def Pays (cfg : Pools.Config) (D : Dependencies) (r : Resolution) (c : Claim) (quantity paid : ℕ) : Prop :=
  (quantity = 0 ∧ paid = 0) ∨ ∃ (msg : Msg cfg.self) (w w' : Pools.World D Pools.PilotPool.Void),
    w.pool.resolvedState = r.yesMask ∧ w.pool.ext.voidMask = r.voidMask ∧
      Pools.PilotPool.redeem cfg msg c.scope c.mask quantity w = .ok (w', paid)

theorem Pays.eq (h : Pays cfg D r c quantity paid) (hs : c.scope < 2 ^ 31) (hq : quantity < 2 ^ 128) :
    paid = payout cfg.eventCount r c quantity := by
  rcases h with ⟨rfl, rfl⟩ | ⟨msg, w, w', hy, hv, h⟩
  · simp [payout]
  · rw [payout_redeemed h hs, hy, hv]
    exact Nat.mod_eq_of_lt (payout_le.trans_lt hq)

-- The bound is about what `PilotPool.redeem` pays for what is held in the end.
theorem redeemed_loss_bounded {input : PolicyInput} (plannedAt : ℤ) {paid : Claim → ℕ}
    (ha : input.candidate.action = .buy) (hp : evaluatePolicy input = [])
    (hj : List.Forall₂ Finishes (input.journal ++ [input.candidate.entry plannedAt]) j')
    (hr : r.Valid input.market.eventCount) (he : cfg.eventCount = input.market.eventCount)
    (hc : ∀ c ∈ claims j', c.scope < 2 ^ 31 ∧
      (position [.confirmed] input.market.nameSpace j' c).toNat < 2 ^ 128 ∧
      Pays cfg D r c (position [.confirmed] input.market.nameSpace j' c).toNat (paid c)) :
    (costBasis [.confirmed] input.market.nameSpace j' : ℤ) - ∑ c ∈ claims j', (paid c : ℤ) ≤
      input.policy.maxWorstCaseLossAtoms +
        shortfall input.market.nameSpace (input.journal ++ [input.candidate.entry plannedAt]) j' +
        (roundedPositions input.market.eventCount r input.market.nameSpace j' - 1 : ℕ) := by
  have hpaid : ∑ c ∈ claims j', (paid c : ℤ) =
      ∑ c ∈ claims j',
        (payout input.market.eventCount r c (position [.confirmed] input.market.nameSpace j' c).toNat : ℤ) :=
    Finset.sum_congr rfl fun c hm => by
      obtain ⟨hs, hq, h⟩ := hc c hm
      rw [h.eq hs hq, he]
  rw [hpaid]
  exact settledLoss_le plannedAt ha hp hj hr

end Pool

end Sdk

namespace Sdk.Pilot

-- A purchase that is evaluated against a journal with another purchase on the same event.

def purchaseEntry (claim : Claim) (quantityAtoms limitAtoms : ℕ) (costAtoms : Option ℕ)
    (status : JournalStatus) : PolicyEntry :=
  ⟨.buy, "pilot", some claim, quantityAtoms, limitAtoms, costAtoms, status, 90⟩

def evaluated (entry : PolicyEntry) (quantityAtoms limitAtoms : ℕ) : PolicyInput where
  policy           := { policy with maxWorstCaseLossAtoms := 100_000 }
  now              := 100
  market           := ⟨"pilot", 2, 10_000, true, false⟩
  nativeBalanceWei := 10 ^ 18
  holdings         := []
  journal          := [entry]
  candidate        := ⟨.buy, "pilot", ⟨1, 1⟩, quantityAtoms, limitAtoms, 50, 100, 120_000, 10⟩

-- The first event is bought as Yes and as No. The Yes is not confirmed yet, and expires.
def hedged : PolicyInput :=
  evaluated (purchaseEntry ⟨1, 2⟩ 1_000_000 500_000 none .signed) 1_000_000 600_000

def unhedged : List PolicyEntry :=
  [purchaseEntry ⟨1, 2⟩ 1_000_000 500_000 none .expired,
    purchaseEntry ⟨1, 1⟩ 1_000_000 600_000 (some 600_000) .confirmed]

-- Both are confirmed, and the event is void.
def paired : PolicyInput :=
  evaluated (purchaseEntry ⟨1, 2⟩ 1_000_001 500_001 (some 500_001) .confirmed) 1_000_001 600_000

def halved : List PolicyEntry :=
  [purchaseEntry ⟨1, 2⟩ 1_000_001 500_001 (some 500_001) .confirmed,
    purchaseEntry ⟨1, 1⟩ 1_000_001 600_000 (some 600_000) .confirmed]

theorem unhedged_finishes : List.Forall₂ Finishes (hedged.journal ++ [hedged.candidate.entry 90]) unhedged :=
  .cons (.failed _ .expired (by decide) (by decide))
    (.cons (.confirmed _ 600_000 (by decide) (by decide)) .nil)

theorem halved_finishes : List.Forall₂ Finishes (paired.journal ++ [paired.candidate.entry 90]) halved :=
  .cons (.other _ (by decide)) (.cons (.confirmed _ 600_000 (by decide) (by decide)) .nil)

end Sdk.Pilot

open Sdk Pilot in
theorem Sdk.loss_bounded_hedged :
    settledLoss 2 ⟨0, 0⟩ "pilot" unhedged ≤ 100_000 +
        shortfall "pilot" (hedged.journal ++ [hedged.candidate.entry 90]) unhedged +
        (roundedPositions 2 ⟨0, 0⟩ "pilot" unhedged - 1 : ℕ) :=
  loss_bounded hedged 90 ⟨0, 0⟩ unhedged rfl (by decide +kernel) unhedged_finishes ⟨by decide, by decide⟩

open Sdk Pilot in
theorem Sdk.loss_exceeded :
    (¬ ∀ (input : PolicyInput) (plannedAt : ℤ) (r : Resolution) (j' : List PolicyEntry),
        input.candidate.action = .buy → evaluatePolicy input = [] →
        List.Forall₂ Finishes (input.journal ++ [input.candidate.entry plannedAt]) j' →
        r.Valid input.market.eventCount → r.voidMask = 0 →
        settledLoss input.market.eventCount r input.market.nameSpace j' ≤ input.policy.maxWorstCaseLossAtoms) ∧
      ¬ ∀ (input : PolicyInput) (plannedAt : ℤ) (r : Resolution) (j' : List PolicyEntry),
        input.candidate.action = .buy → evaluatePolicy input = [] →
        List.Forall₂ Finishes (input.journal ++ [input.candidate.entry plannedAt]) j' →
        r.Valid input.market.eventCount → (∀ e ∈ j', e.status = .confirmed) →
        settledLoss input.market.eventCount r input.market.nameSpace j' ≤ input.policy.maxWorstCaseLossAtoms := by
  constructor
  · intro h
    have := h hedged 90 ⟨1, 0⟩ unhedged rfl (by decide +kernel) unhedged_finishes ⟨by decide, by decide⟩ rfl
    exact absurd this (by decide +kernel)
  · intro h
    have := h paired 90 ⟨0, 1⟩ halved rfl (by decide +kernel) halved_finishes ⟨by decide, by decide⟩ (by decide)
    exact absurd this (by decide +kernel)
