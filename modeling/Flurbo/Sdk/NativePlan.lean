import Flurbo.Sdk.NativeExact

-- The plans of the 128-bit runtimes and their checks of effects, on every number that the chain may return.

open Machine Except

namespace Sdk

namespace Native

section Sides

variable {n m q : ℕ}

theorem narrow_neg (h : 2 ^ bits ≤ n) (hn : n < 2 ^ (bits + 1)) :
    wrap bits n = (n : ℤ) - 2 ^ (bits + 1) ∧ wrap bits n < 0 := by
  have hw := narrow_of_ge h hn
  have : (n : ℤ) < 2 ^ (bits + 1) := by exact_mod_cast hn
  exact ⟨hw, by omega⟩

-- A number of the upper half is on the other side of every bound.
theorem narrow_gt_iff (hn : n < 2 ^ (bits + 1)) (hm : m < 2 ^ bits) :
    (wrap bits n > (m : ℤ) ↔ (n : ℤ) > m) ↔ n < 2 ^ bits := by
  rcases lt_or_ge n (2 ^ bits) with h | h
  · rw [narrow_of_lt h]
    exact iff_of_true Iff.rfl h
  · have ⟨_, hneg⟩ := narrow_neg h hn
    refine iff_of_false (fun he => ?_) h.not_gt
    have := he.mpr (by exact_mod_cast lt_of_lt_of_le hm h)
    omega

theorem narrow_lt_iff (hn : n < 2 ^ (bits + 1)) (hm : m < 2 ^ bits) :
    (wrap bits n < (m : ℤ) ↔ (n : ℤ) < m) ↔ n < 2 ^ bits := by
  rcases lt_or_ge n (2 ^ bits) with h | h
  · rw [narrow_of_lt h]
    exact iff_of_true Iff.rfl h
  · have ⟨_, hneg⟩ := narrow_neg h hn
    refine iff_of_false (fun he => ?_) h.not_gt
    have := he.mp (by omega)
    have : n < m := by exact_mod_cast this
    omega

-- What is left of a balance after a fee that fits.
theorem rest_iff {fee : ℕ} (hn : n < 2 ^ (bits + 1)) (hm : m < 2 ^ bits) (hf : fee < 2 ^ bits) :
    Fits bits (wrap bits n - fee) ∧ (wrap bits n - fee < (m : ℤ) ↔ (n : ℤ) - fee < m) ↔ n < 2 ^ bits := by
  rcases lt_or_ge n (2 ^ bits) with h | h
  · rw [narrow_of_lt h]
    refine iff_of_true ⟨⟨?_, ?_⟩, Iff.rfl⟩ h
    · have : (fee : ℤ) < 2 ^ bits := by exact_mod_cast hf
      omega
    · have : (n : ℤ) < 2 ^ bits := by exact_mod_cast h
      omega
  · have ⟨hw, hneg⟩ := narrow_neg h hn
    have hp : (2 : ℤ) ^ (bits + 1) = 2 * 2 ^ bits := by ring
    have : (m : ℤ) < 2 ^ bits := by exact_mod_cast hm
    refine iff_of_false (fun ⟨⟨hl, _⟩, he⟩ => ?_) h.not_gt
    have := he.mp (by omega)
    omega

-- The fee of a gas limit within the limit of the service, as the policy computes it.
theorem fee_iff {gas price : ℕ} (h0 : gas ≠ 0) (hg : gas ≤ maxGas) (hp : price < 2 ^ (bits + 1))
    (hf : gas * price < 2 ^ (bits + 1)) (hm : m < 2 ^ bits) :
    Fits bits (wrap bits gas * wrap bits price) ∧
      (wrap bits gas * wrap bits price > (m : ℤ) ↔ ((gas * price : ℕ) : ℤ) > m) ↔ gas * price < 2 ^ bits := by
  have hgas : wrap bits gas = gas := narrow_of_lt (lt_of_le_of_lt hg (by decide))
  rw [hgas]
  rcases lt_or_ge price (2 ^ bits) with h | h
  · rw [narrow_of_lt h, ← Nat.cast_mul, fits_natCast]
    exact and_iff_left Iff.rfl
  · have hone : gas = 1 := by
      by_contra hne
      have h2 : 2 * 2 ^ bits ≤ gas * price := Nat.mul_le_mul (by omega) h
      have hp : 2 ^ (bits + 1) = 2 * 2 ^ bits := by ring
      omega
    rw [hone, Nat.cast_one, one_mul, one_mul]
    have hw := narrow_gt_iff hp hm
    refine ⟨fun he => hw.mp he.2, fun hl => absurd h hl.not_ge⟩

end Sides

section Plan

variable {o : Options} {p : Plan} {view : PlanView} {times : PlanTimes} {gas : ℕ} {j : Journal} {claim : Claim}
variable {id : String} {owner : Owner}

-- What the types of the chain reader, of the policy and of the journal hold.
structure Typed (o : Options) (view : PlanView) (j : Journal) : Prop where
  price    : view.fees.maxFeePerGas < 2 ^ (bits + 1)
  native   : view.native < 2 ^ (bits + 1)
  holdings : ∀ c, view.holdings c < 2 ^ (bits + 1)
  maxFee   : o.policy.maxFeeWei < 2 ^ bits
  reserve  : o.policy.reserveWei < 2 ^ bits
  position : o.policy.maxPositionAtoms < 2 ^ bits
  journal  : Bounded (policyEntries j)

-- The position after a purchase fits, or its upper half wraps around to what is beyond the limit as well.
def PositionFits (i : PolicyInput) (held : ℕ) : Prop :=
  let position := held + (pending i).sum + i.candidate.quantityAtoms
  position < 2 ^ bits ∨ 2 ^ bits ≤ held ∧ i.policy.maxPositionAtoms + 2 ^ (bits + 1) < position ∧
    position < 2 ^ (bits + 1) + 2 ^ bits

structure ClaimFits (i : PolicyInput) (held : ℕ) : Prop where
  sale     : i.candidate.action ≠ .buy → held < 2 ^ bits
  total    : i.candidate.action = .buy → totalSpend i.journal + i.candidate.limitAtoms < 2 ^ bits
  pending  : i.candidate.action = .buy → (Native.pending i).sum < 2 ^ bits
  position : i.candidate.action = .buy → PositionFits i held
  loss     : i.candidate.action = .buy → LossFits i

-- The fee, the balance and the holdings of the chain are in the lower half, and no amount overflows.
def PlanFits (o : Options) (p : Plan) (view : PlanView) (times : PlanTimes) (j : Journal) : Prop :=
  ∀ tx, buildTransaction p.intent p.deployment = .ok tx → view.simulated → ∀ estimate, view.estimateGas = some estimate →
    estimate * 120 < 2 ^ (bits + 1) ∧ (estimate * 120 / 100 ≠ 0 → estimate * 120 / 100 ≤ maxGas →
      estimate * 120 / 100 * view.fees.maxFeePerGas < 2 ^ bits ∧ view.native < 2 ^ bits ∧
      ∀ claim, p.intent.claim? = some claim →
        ClaimFits (lift (p.input o view times (estimate * 120 / 100) j claim)) (view.holdings claim))

theorem totalsFit_iff {i : PolicyInput} {held : ℕ} (hh : held < 2 ^ (bits + 1))
    (hm : i.policy.maxPositionAtoms < 2 ^ bits) :
    TotalsFit i (wrap bits held) ∧ ((exactTotals i (wrap bits held)).position > i.policy.maxPositionAtoms ↔
      (exactTotals i held).position > i.policy.maxPositionAtoms) ↔
    totalSpend i.journal + i.candidate.limitAtoms < 2 ^ bits ∧ (pending i).sum < 2 ^ bits ∧ PositionFits i held ∧
      LossFits i := by
  have hp : (2 : ℤ) ^ (bits + 1) = 2 * 2 ^ bits := by ring
  have hp' : 2 ^ (bits + 1) = 2 * 2 ^ bits := by ring
  have hm' : (i.policy.maxPositionAtoms : ℤ) < 2 ^ bits := by exact_mod_cast hm
  have hcast : ((2 ^ bits : ℕ) : ℤ) = 2 ^ bits := by push_cast; rfl
  simp only [exactTotals, PositionFits]
  constructor
  case mp =>
    rintro ⟨⟨ht, hpend, hsub, hpos, hl⟩, hside⟩
    refine ⟨ht, hpend, ?_, hl⟩
    rcases lt_or_ge held (2 ^ bits) with h | h
    · rw [narrow_of_lt h] at hpos
      have := hpos.2
      left
      omega
    · obtain ⟨hw, hneg⟩ := narrow_neg h hh
      rw [hw] at hpos hside
      have h' : (2 : ℤ) ^ bits ≤ held := by exact_mod_cast h
      have := hside.mpr (by omega)
      have := hpos.2
      exact .inr ⟨h, by omega, by omega⟩
  case mpr =>
    rintro ⟨ht, hpend, hpos, hl⟩
    have hpend' : ((pending i).sum : ℤ) < 2 ^ bits := by exact_mod_cast hpend
    rcases hpos with hpos | ⟨h, hgt, hlt⟩
    · have h : held < 2 ^ bits := by omega
      rw [narrow_of_lt h]
      exact ⟨⟨ht, hpend, ⟨by omega, by omega⟩, ⟨by omega, by omega⟩, hl⟩, Iff.rfl⟩
    · obtain ⟨hw, hneg⟩ := narrow_neg h hh
      have h' : (2 : ℤ) ^ bits ≤ held := by exact_mod_cast h
      rw [hw]
      exact ⟨⟨ht, hpend, ⟨by omega, by omega⟩, ⟨by omega, by omega⟩, hl⟩, iff_of_true (by omega) (by omega)⟩

theorem input_exact (gas : ℕ) (claim : Claim) :
    input exact o p view times gas j claim = lift (p.input o view times gas j claim) := rfl

theorem filter_holdings {l : List Claim} {f : Claim → ℤ} (hd : l.Nodup) (hm : claim ∈ l) :
    ((l.map fun c => (c, f c)).filter (·.1 = claim)).map (·.2) = [f claim] := by
  induction l
  case nil          => cases hm
  case cons c l hi =>
    obtain ⟨hn, hd⟩ := List.nodup_cons.mp hd
    rw [List.map_cons, List.filter_cons]
    by_cases hc : c = claim
    case pos =>
      have hnone : (l.map fun c => (c, f c)).filter (·.1 = claim) = [] := by
        rw [List.filter_eq_nil_iff]
        intro x hx
        obtain ⟨c', hc', rfl⟩ := List.mem_map.mp hx
        simp only [decide_eq_true_eq]
        rintro rfl
        exact hn (hc ▸ hc')
      rw [if_pos (by simpa using hc), hnone, hc]
      rfl
    case neg =>
      rw [if_neg (by simpa using hc)]
      exact hi hd ((List.mem_cons.mp hm).resolve_left fun h => hc h.symm)

-- The chain is asked once for the holdings of the claim.
theorem holdings_input (a : Arith) (gas : ℕ) (hc : p.intent.claim? = some claim) :
    ((input a o p view times gas j claim).holdings.filter (·.1 = claim)).map (·.2) =
      [a.narrow (view.holdings claim)] := by
  have hmap : (input a o p view times gas j claim).holdings =
      (((view.snapshot.filter (·.nameSpace = p.deployment.nameSpace)).filterMap (·.claim) ++
        p.intent.claim?.toList).dedup).map fun c => (c, a.narrow (view.holdings c)) := by
    rw [input, Plan.holdings, List.map_map]
    rfl
  rw [hmap]
  refine filter_holdings (f := fun c => a.narrow (view.holdings c)) (List.nodup_dedup _) (List.mem_dedup.mpr ?_)
  rw [hc]
  exact List.mem_append_right _ (by simp)

theorem held_input (a : Arith) (gas : ℕ) (hc : p.intent.claim? = some claim) :
    held (input a o p view times gas j claim) = a.narrow (view.holdings claim) := by
  refine (congrArg List.sum (holdings_input a gas hc)).trans ?_
  rw [List.sum_singleton]

theorem quantity_le {tx : TransactionRequest} (hb : buildTransaction p.intent p.deployment = .ok tx)
    (hc : p.intent.claim? = some claim) : p.intent.quantityAtoms < 2 ^ bits := by
  simp only [buildTransaction, bind_eq_ok, pure_eq_ok, ok.injEq, validateTransaction, refuseIf_eq_ok] at hb
  obtain ⟨_, _, _, ⟨_, _, ha⟩, _⟩ := hb
  cases hi : p.intent
  case approve amount => rw [hi] at hc; cases hc
  all_goals
    rw [hi] at ha
    simp only [TransactionRequest.agrees, validClaim, Bool.and_eq_true, decide_eq_true_eq, not_not] at ha
    have : p.intent.quantityAtoms ≤ maxQuantityAtoms := by
      rw [hi]
      simp only [Intent.quantityAtoms]
      tauto
    rw [hi] at this
    exact lt_of_le_of_lt this (by decide)

theorem totalsFit_input (a : Arith) (gas : ℕ) (claim : Claim) (h : ℤ) :
    TotalsFit (input a o p view times gas j claim) h ↔ TotalsFit (lift (p.input o view times gas j claim)) h :=
  ⟨fun ⟨h₁, h₂, h₃, h₄, ⟨h₅, h₆, h₇, h₈⟩⟩ => ⟨h₁, h₂, h₃, h₄, ⟨h₅, h₆, h₇, h₈⟩⟩,
    fun ⟨h₁, h₂, h₃, h₄, ⟨h₅, h₆, h₇, h₈⟩⟩ => ⟨h₁, h₂, h₃, h₄, ⟨h₅, h₆, h₇, h₈⟩⟩⟩

-- The amounts of the chain are in the holdings, the fee and the balance only.
theorem policyFits_input (a : Arith) (gas : ℕ) (hc : p.intent.claim? = some claim) :
    PolicyFits (input a o p view times gas j claim) ↔
      Prefixes bits 0 [a.narrow (view.holdings claim)] ∧
      (p.intent.action = .buy →
        TotalsFit (lift (p.input o view times gas j claim)) (a.narrow (view.holdings claim))) ∧
      Fits bits (a.narrow gas * a.narrow view.fees.maxFeePerGas) ∧
      Fits bits (a.narrow view.native - a.narrow gas * a.narrow view.fees.maxFeePerGas) := by
  have hheld := @held_input o p view times j claim a gas hc
  have hlist := @holdings_input o p view times j claim a gas hc
  constructor
  case mp =>
    intro ⟨hone, htotals, hfee, hrest⟩
    rw [hheld] at htotals
    exact ⟨hlist ▸ hone, fun hb => (totalsFit_input a gas claim _).mp (htotals hb), hfee, hrest⟩
  case mpr =>
    intro ⟨hone, htotals, hfee, hrest⟩
    refine ⟨hlist.symm ▸ hone, fun hb => ?_, hfee, hrest⟩
    rw [hheld]
    exact (totalsFit_input a gas claim _).mpr (htotals hb)

theorem exactViolations_input (a : Arith) (gas : ℕ) (hc : p.intent.claim? = some claim) :
    exactViolations (input a o p view times gas j claim) =
      violations (lift (p.input o view times gas j claim)) (a.narrow (view.holdings claim))
        (if (lift (p.input o view times gas j claim)).candidate.action = .buy then
          exactTotals (lift (p.input o view times gas j claim)) (a.narrow (view.holdings claim)) else ⟨0, [], 0, 0⟩)
        (a.narrow gas * a.narrow view.fees.maxFeePerGas)
        (a.narrow view.native - a.narrow gas * a.narrow view.fees.maxFeePerGas) := by
  rw [exactViolations, held_input a gas hc]
  rfl

theorem fee_exact {price : ℕ} (h0 : gas ≠ 0) (hg : gas ≤ maxGas) (hf : gas * price < 2 ^ bits) :
    wrap bits gas * wrap bits price = (gas * price : ℕ) := by
  have hprice : price ≤ gas * price := Nat.le_mul_of_pos_left _ (Nat.pos_of_ne_zero h0)
  rw [narrow_of_lt (lt_of_le_of_lt hg (by decide)), narrow_of_lt (lt_of_le_of_lt hprice hf), Nat.cast_mul]

-- The policy check of a plan, with the claim of the intent.
theorem evaluate_iff {tx : TransactionRequest} (ht : Typed o view j) (h0 : gas ≠ 0) (hg : gas ≤ maxGas)
    (hb : buildTransaction p.intent p.deployment = .ok tx) (hc : p.intent.claim? = some claim)
    (hf : gas * view.fees.maxFeePerGas < 2 ^ (bits + 1)) :
    evaluatePolicy (checked bits) (input (checked bits) o p view times gas j claim) =
      .ok (Sdk.evaluatePolicy (p.input o view times gas j claim)) ↔
    gas * view.fees.maxFeePerGas < 2 ^ bits ∧ view.native < 2 ^ bits ∧
      ClaimFits (lift (p.input o view times gas j claim)) (view.holdings claim) := by
  have hfee := @fee_iff (lift (p.input o view times gas j claim)).policy.maxFeeWei _ _ h0 hg ht.price hf ht.maxFee
  have hrest (hl : gas * view.fees.maxFeePerGas < 2 ^ bits) :=
    @rest_iff _ (lift (p.input o view times gas j claim)).policy.reserveWei _ ht.native ht.reserve hl
  have htotals := @totalsFit_iff (lift (p.input o view times gas j claim)) _ (ht.holdings claim) ht.position
  have hsale := @narrow_lt_iff _ (lift (p.input o view times gas j claim)).candidate.quantityAtoms (ht.holdings claim)
    (quantity_le hb hc)
  rw [evaluatePolicy_iff ht.journal, ← exactViolations_lift, ← input_exact, exactViolations_input exact gas hc,
    exactViolations_input (checked bits) gas hc, policyFits_input (checked bits) gas hc]
  simp only [exact_narrow, checked_narrow]
  rw [violations_exact_iff]
  simp only [← Nat.cast_mul]
  constructor
  case mp =>
    intro ⟨⟨_, htf, hff, hfr⟩, hs, hp, hfs, hrs⟩
    have hl := hfee.mp ⟨hff, hfs.symm⟩
    rw [fee_exact h0 hg hl] at hfr hrs
    refine ⟨hl, (hrest hl).mp ⟨hfr, hrs.symm⟩, fun hn => hsale.mp (hs hn).symm, ?_, ?_, ?_, ?_⟩
    · exact fun hbuy => (htotals.mp ⟨htf hbuy, (hp hbuy).symm⟩).1
    · exact fun hbuy => (htotals.mp ⟨htf hbuy, (hp hbuy).symm⟩).2.1
    · exact fun hbuy => (htotals.mp ⟨htf hbuy, (hp hbuy).symm⟩).2.2.1
    · exact fun hbuy => (htotals.mp ⟨htf hbuy, (hp hbuy).symm⟩).2.2.2
  case mpr =>
    intro ⟨hl, hnative, hclaim⟩
    have ⟨hff, hfs⟩ := hfee.mpr hl
    have ⟨hfr, hrs⟩ := (hrest hl).mpr hnative
    have hbuys (hbuy : p.intent.action = .buy) :=
      htotals.mpr ⟨hclaim.total hbuy, hclaim.pending hbuy, hclaim.position hbuy, hclaim.loss hbuy⟩
    rw [fee_exact h0 hg hl] at hff hfs ⊢
    refine ⟨⟨?_, fun hbuy => (hbuys hbuy).1, hff, hfr⟩, fun hn => (hsale.mpr (hclaim.sale hn)).symm,
      fun hbuy => (hbuys hbuy).2.symm, hfs.symm, hrs.symm⟩
    refine prefixes_cons.mpr ⟨?_, fun ps hp hn => absurd (List.prefix_nil.mp hp) hn⟩
    rw [zero_add]
    exact fits_narrow (ht.holdings claim)

theorem planViolations_iff {tx : TransactionRequest} (ht : Typed o view j) (h0 : gas ≠ 0) (hg : gas ≤ maxGas)
    (hb : buildTransaction p.intent p.deployment = .ok tx) :
    planViolations (checked bits) o p view times gas j = .ok (p.violations o view times gas j) ↔
      gas * view.fees.maxFeePerGas < 2 ^ bits ∧ view.native < 2 ^ bits ∧
        ∀ claim, p.intent.claim? = some claim →
          ClaimFits (lift (p.input o view times gas j claim)) (view.holdings claim) := by
  have hlt : (2 : ℕ) ^ bits < 2 ^ (bits + 1) := Nat.pow_lt_pow_right (by decide) (Nat.lt_succ_self bits)
  rw [planViolations, Plan.violations]
  simp only [bind_eq_ok, checked_unsigned_iff, checked_narrow]
  cases hc : p.intent.claim?
  case some claim =>
    simp only [Option.some.injEq, forall_eq']
    constructor
    case mp =>
      rintro ⟨_, ⟨hf, rfl⟩, he⟩
      exact (evaluate_iff ht h0 hg hb hc hf).mp he
    case mpr => exact fun h => ⟨_, ⟨h.1.trans hlt, rfl⟩, (evaluate_iff ht h0 hg hb hc (h.1.trans hlt)).mpr h⟩
  case none =>
    simp only [bind_eq_ok, checked_signed_iff, pure_eq_ok, ok.injEq, approvalViolations_reference, reduceCtorEq,
      false_implies, implies_true, and_true]
    constructor
    case mp =>
      rintro ⟨fee, ⟨hf, hfee⟩, rest, ⟨hfr, hrest⟩, he⟩
      rw [hfee] at hfr hrest he
      rw [hrest] at he
      obtain ⟨hfs, hrs⟩ := approvalViolations_eq_iff.mp he
      have hl := (narrow_gt_iff hf ht.maxFee).mp hfs
      rw [narrow_of_lt hl] at hfr hrs
      exact ⟨hl, (rest_iff ht.native ht.reserve hl).mp ⟨hfr, hrs⟩⟩
    case mpr =>
      rintro ⟨hl, hnative⟩
      obtain ⟨hfr, hrs⟩ := (rest_iff ht.native ht.reserve hl).mpr hnative
      have hfs := (narrow_gt_iff (hl.trans hlt) ht.maxFee).mpr hl
      have hw : wrap bits ((gas * view.fees.maxFeePerGas : ℕ) : ℤ) = (gas * view.fees.maxFeePerGas : ℕ) :=
        narrow_of_lt hl
      refine ⟨_, ⟨hl.trans hlt, rfl⟩, _, ⟨?_, rfl⟩, approvalViolations_eq_iff.mpr ⟨hfs, ?_⟩⟩
      · rw [hw]
        exact hfr
      · rw [hw]
        exact hrs

-- A plan tells what its policy has found.
theorem outcome_inj {vs vs' : List Violation} {j' : Journal} :
    (if vs ≠ [] then .error (.rejectedByPolicy vs) else .ok j' : Except Refusal Journal) =
      (do refuseIf (vs' ≠ []) (.rejectedByPolicy vs'); return j') ↔ vs = vs' := by
  rw [refuseIf]
  by_cases h : vs = []
  case pos =>
    rw [h, if_neg (not_not.mpr rfl)]
    by_cases h' : vs' = []
    case pos => rw [h']; exact iff_of_true rfl rfl
    case neg => rw [if_pos h']; exact iff_of_false (by simp) fun he => h' he.symm
  case neg =>
    rw [if_pos h]
    by_cases h' : vs' = []
    case pos => rw [h']; exact iff_of_false (by simp) h
    case neg => rw [if_pos h', error_bind, error.injEq, Refusal.rejectedByPolicy.injEq]

theorem plan_iff (ht : Typed o view j) :
    plan (checked bits) o p view times j id owner = .ok (Sdk.plan o p view times j id owner) ↔
      PlanFits o p view times j := by
  rw [plan, Sdk.plan, PlanFits]
  cases hb : buildTransaction p.intent p.deployment
  case error e => exact iff_of_true rfl (by simp)
  case ok tx   =>
    simp only [ok_bind, ok.injEq, forall_eq']
    by_cases hs : view.simulated
    case neg =>
      rw [if_pos hs, refuseIf, if_pos hs]
      exact iff_of_true rfl fun h => absurd h hs
    case pos =>
      rw [if_neg (not_not.mpr hs), refuseIf, if_neg (not_not.mpr hs), planGas, Sdk.planGas]
      cases he : view.estimateGas
      case none          => exact iff_of_true rfl (by simp)
      case some estimate =>
        simp only [hs, forall_const, Option.some.injEq, forall_eq', bind_eq_ok, checked_unsigned_iff, pure_eq_ok, ok.injEq]
        generalize hg : estimate * 120 / 100 = gas
        by_cases hr : gas = 0 ∨ gas > maxGas
        case pos =>
          constructor
          case mp  => exact fun ⟨_, ⟨_, ⟨hf, _⟩, _⟩, _⟩ => ⟨hf, fun h0 hl => absurd hr (by omega)⟩
          case mpr => exact fun ⟨hf, _⟩ => ⟨_, ⟨_, ⟨hf, rfl⟩, rfl⟩, by rw [hg, if_pos hr]; rfl⟩
        case neg =>
          have ⟨h0, hl⟩ : gas ≠ 0 ∧ gas ≤ maxGas := by omega
          have hv := @planViolations_iff _ _ _ times _ _ _ ht h0 hl hb
          rw [forall_prop_of_true h0, forall_prop_of_true hl, ← hv, if_neg hr]
          constructor
          case mp =>
            intro ⟨_, ⟨_, ⟨hf, hn⟩, hres⟩, h⟩
            rw [← hres, hn, hg, if_neg hr] at h
            obtain ⟨vs, hvs, h⟩ := bind_eq_ok.mp h
            exact ⟨hf, hvs.trans (congrArg _ (outcome_inj.mp (ok.inj h)))⟩
          case mpr =>
            intro ⟨hf, hvs⟩
            refine ⟨_, ⟨_, ⟨hf, rfl⟩, rfl⟩, ?_⟩
            rw [hg, if_neg hr]
            exact bind_eq_ok.mpr ⟨_, hvs, congrArg _ (outcome_inj.mpr rfl)⟩

theorem fees_iff {price : ℕ} {priority : Option ℕ} :
    fees (checked bits) price priority = .ok (Sdk.fees price priority) ↔ price * 120 < 2 ^ (bits + 1) := by
  simp only [fees, bind_eq_ok, checked_unsigned_iff, pure_eq_ok]
  constructor
  case mp  => exact fun h => h.choose_spec.1.1
  case mpr => exact fun h => ⟨_, ⟨h, rfl⟩, rfl⟩

theorem stable_fees (price : ℕ) (priority : Option ℕ) : Stable bits fun a => fees a price priority :=
  (stable_unsigned _).bind fun _ => stable_ok _

theorem stable_planGas (view : PlanView) : Stable bits fun a => planGas a view := by
  simp only [planGas]
  cases view.estimateGas
  case none   => exact stable_ok _
  case some n => exact (stable_unsigned _).bind fun _ => stable_ok _

theorem stable_planViolations (o : Options) (p : Plan) (view : PlanView) (times : PlanTimes) (gas : ℕ) (j : Journal) :
    Stable bits fun a => planViolations a o p view times gas j := by
  have hinput (g : ℕ → ℤ) (claim : Claim) :
      Stable bits fun a => evaluatePolicy a (input { a with narrow := g } o p view times gas j claim) :=
    stable_evaluatePolicy (input { exact with narrow := g } o p view times gas j claim)
  refine (stable_unsigned _).bind fun product => ?_
  cases p.intent.claim?
  case none       =>
    refine Stable.narrow (f := fun a g => a.signed (g view.native - g product) >>= fun rest =>
      .ok (approvalViolations o p j p.intent.limitAtoms (g product) rest)) fun g => ?_
    exact (stable_signed _).bind fun _ => stable_ok _
  case some claim =>
    exact Stable.narrow (f := fun a g => evaluatePolicy a (input { a with narrow := g } o p view times gas j claim))
      fun g => hinput g claim

theorem stable_plan (o : Options) (p : Plan) (view : PlanView) (times : PlanTimes) (j : Journal) (id : String)
    (owner : Owner) : Stable bits fun a => plan a o p view times j id owner := by
  simp only [plan]
  cases buildTransaction p.intent p.deployment
  case error e => exact stable_ok _
  case ok tx   =>
    simp only []
    split
    case isTrue  => exact stable_ok _
    case isFalse =>
      refine (stable_planGas view).bind fun gas => ?_
      cases gas
      case error e => exact stable_ok _
      case ok gas  => exact (stable_planViolations o p view times gas j).bind fun _ => stable_ok _

end Plan

section Effect

variable {intent : ExecutionIntent} {claim : Claim} {logs : List Log} {receipt : Receipt} {allowance : Option ℕ}

-- The result of the reference as the native runtimes write it.
def Effect.of : EffectResult → Effect
  | .confirmed amount => .confirmed (amount.map fun (n : ℕ) => (n : ℤ))
  | .mismatch         => .mismatch

-- The amount of a log that is the event of the intent, whatever its limit.
def shown (intent : ExecutionIntent) (claim : Claim) (log : Log) : Option ℕ :=
  if log.address ≠ intent.pool then none
  else match log.event with
    | some (.traded trader claim' isBuy quantity amount) =>
      if claim' = claim ∧ quantity = intent.quantityAtoms ∧ trader = intent.wallet ∧
          (intent.action = .buy ∧ isBuy ∨ intent.action = .sell ∧ ¬ isBuy) then some amount else none
    | some (.redeemed owner claim' quantity amount)      =>
      if claim' = claim ∧ quantity = intent.quantityAtoms ∧ owner = intent.wallet ∧
          intent.action = .redeem then some amount else none
    | none                                               => none

-- The limit of the intent.
def accepts (intent : ExecutionIntent) (amount : ℤ) : Bool :=
  match intent.action with
  | .buy  => amount ≤ intent.limitAtoms
  | .sell => amount ≥ intent.limitAtoms
  | _     => true

def EventTyped : PoolEvent → Prop
  | .traded _ _ _ quantity amount => quantity < 2 ^ (bits + 1) ∧ amount < 2 ^ (bits + 1)
  | .redeemed _ _ quantity amount => quantity < 2 ^ (bits + 1) ∧ amount < 2 ^ (bits + 1)

-- What the types of the intent and of the logs hold.
structure EffectTyped (intent : ExecutionIntent) (logs : List Log) : Prop where
  quantity : intent.quantityAtoms < 2 ^ bits
  limit    : intent.limitAtoms < 2 ^ bits
  logs     : ∀ log ∈ logs, ∀ event, log.event = some event → EventTyped event

-- The first amount that decides is in the lower half.
def EffectFits (intent : ExecutionIntent) (receipt : Receipt) : Prop :=
  receipt.success → intent.action ≠ .approve → ∀ claim, intent.claim = some claim →
    ∀ amount, (receipt.logs.filterMap (shown intent claim)).find? (fun (n : ℕ) => accepts intent n ∨ 2 ^ bits ≤ n) =
      some amount → amount < 2 ^ bits

theorem narrow_eq_iff {n m : ℕ} (hn : n < 2 ^ (bits + 1)) (hm : m < 2 ^ bits) : wrap bits n = (m : ℤ) ↔ n = m := by
  rcases lt_or_ge n (2 ^ bits) with h | h
  · rw [narrow_of_lt h]
    exact Nat.cast_inj
  · have ⟨_, hneg⟩ := narrow_neg h hn
    exact iff_of_false (by omega) (by omega)

theorem filter_ite {α β : Type} {P : Prop} [Decidable P] {x : α} {f : α → β} {q : β → Bool} :
    ((if P then some x else none).map f).filter q = if P ∧ q (f x) then some (f x) else none := by
  by_cases hp : P
  case pos => simp only [hp, if_true, Option.map_some, Option.filter_some, true_and]
  case neg => simp only [hp, if_false, Option.map_none, Option.filter_none, false_and]

-- The two directions of a trade are each checked against the limit their own way.
theorem trade_iff {isBuy : Bool} {amount : ℤ} :
    (intent.action = .buy ∧ isBuy ∧ amount ≤ intent.limitAtoms ∨
      intent.action = .sell ∧ ¬ isBuy ∧ amount ≥ intent.limitAtoms) ↔
    (intent.action = .buy ∧ isBuy ∨ intent.action = .sell ∧ ¬ isBuy) ∧ accepts intent amount := by
  rw [accepts]
  cases intent.action <;> simp

theorem accepts_redeem {amount : ℤ} (h : intent.action = .redeem) : accepts intent amount := by rw [accepts, h]

-- A log shows its amount if the limit accepts it, by whichever arithmetic.
theorem matchLog_iff {w : ℕ → ℤ} {log : Log} (hw : ∀ event, log.event = some event → match event with
      | .traded _ _ _ quantity _ => w quantity = intent.quantityAtoms ↔ quantity = intent.quantityAtoms
      | .redeemed _ _ quantity _ => w quantity = intent.quantityAtoms ↔ quantity = intent.quantityAtoms) :
    matchLog { exact with narrow := w } intent claim log =
      ((shown intent claim log).map w).filter (accepts intent) := by
  rw [matchLog, shown]
  by_cases hp : log.address = intent.pool
  case neg => rw [if_pos hp, if_pos hp]; rfl
  case pos =>
    rw [if_neg (not_not.mpr hp), if_neg (not_not.mpr hp)]
    cases he : log.event
    case none => rfl
    case some event =>
      have hq := hw event he
      cases event
      case traded trader claim' isBuy quantity amount =>
        simp only [filter_ite]
        refine if_congr ?_ rfl rfl
        rw [trade_iff, and_assoc, and_assoc, and_assoc]
        exact and_congr_right' (and_congr hq Iff.rfl)
      case redeemed owner claim' quantity amount =>
        simp only [filter_ite]
        refine if_congr ?_ rfl rfl
        rw [and_iff_left_of_imp fun h => accepts_redeem h.2.2.2]
        exact and_congr_right' (and_congr hq Iff.rfl)

theorem matchLog_exact (log : Log) : (Sdk.matchLog intent claim log).map (fun (n : ℕ) => (n : ℤ)) =
    matchLog exact intent claim log := by
  rw [Sdk.matchLog, matchLog]
  by_cases hp : log.address = intent.pool
  case neg => rw [if_pos hp, if_pos hp]; rfl
  case pos =>
    rw [if_neg (not_not.mpr hp), if_neg (not_not.mpr hp)]
    rcases log.event with _ | ⟨trader, claim', isBuy, quantity, amount⟩ | ⟨owner, claim', quantity, amount⟩
    · rfl
    · simp only [exact_narrow, apply_ite (Option.map fun (n : ℕ) => (n : ℤ)), Option.map_some, Option.map_none,
        Nat.cast_inj, Nat.cast_le, ge_iff_le]
    · simp only [exact_narrow, apply_ite (Option.map fun (n : ℕ) => (n : ℤ)), Option.map_some, Option.map_none,
        Nat.cast_inj]

theorem findSome_filter {α β γ : Type} (f : α → Option β) (w : β → γ) (q : γ → Bool) (l : List α) :
    (l.findSome? fun x => ((f x).map w).filter q) = ((l.filterMap f).map w).find? q := by
  induction l
  case nil          => rfl
  case cons x l hi =>
    rw [List.findSome?_cons]
    cases hx : f x
    case none   =>
      rw [List.filterMap_cons_none hx]
      exact hi
    case some y =>
      rw [List.filterMap_cons_some hx, List.map_cons, List.find?_cons, Option.map_some, Option.filter_some]
      cases q (w y)
      case true  => rfl
      case false => exact hi

-- A number of the upper half passes every limit, as it is or as a negative one.
theorem accepts_high {n : ℕ} (hl : intent.limitAtoms < 2 ^ bits) (h : 2 ^ bits ≤ n) (hn : n < 2 ^ (bits + 1)) :
    accepts intent n ∨ accepts intent (wrap bits n) := by
  have ⟨_, hneg⟩ := narrow_neg h hn
  have hle : (intent.limitAtoms : ℤ) ≤ n := by exact_mod_cast hl.le.trans h
  rw [accepts, accepts]
  cases intent.action
  case buy   => exact .inr (decide_eq_true (by omega))
  case sell  => exact .inl (decide_eq_true hle)
  all_goals exact .inl rfl

theorem find_iff {amounts : List ℕ} (hl : intent.limitAtoms < 2 ^ bits) (h : ∀ n ∈ amounts, n < 2 ^ (bits + 1)) :
    (amounts.map fun (n : ℕ) => wrap bits n).find? (accepts intent) =
      (amounts.map fun (n : ℕ) => (n : ℤ)).find? (accepts intent) ↔
    ∀ amount, amounts.find? (fun (n : ℕ) => accepts intent n ∨ 2 ^ bits ≤ n) = some amount → amount < 2 ^ bits := by
  induction amounts
  case nil =>
    rw [List.map_nil, List.map_nil]
    exact iff_of_true rfl fun _ h => by cases h
  case cons n amounts hi =>
    have ⟨hn, hrest⟩ := List.forall_mem_cons.mp h
    rcases lt_or_ge n (2 ^ bits) with hb | hb
    · rw [List.map_cons, List.map_cons, List.find?_cons, List.find?_cons, List.find?_cons, narrow_of_lt hb]
      cases ha : accepts intent n
      case true =>
        refine iff_of_true rfl fun amount he => ?_
        simp only [true_or, decide_true, Option.some.injEq] at he
        exact he ▸ hb
      case false =>
        simp only [hb.not_ge, Bool.false_eq_true, or_self, decide_false]
        exact hi hrest
    · refine iff_of_false (fun he => ?_) fun hall => absurd (hall n ?_) hb.not_gt
      · rcases accepts_high hl hb hn with ha | ha
        · have hr : ((n :: amounts).map fun (n : ℕ) => (n : ℤ)).find? (accepts intent) = some (n : ℤ) := by
            rw [List.map_cons, List.find?_cons, ha]
          obtain ⟨m, hm, hmn⟩ := List.mem_map.mp (List.mem_of_find?_eq_some (he.trans hr))
          have hlow := (fits_narrow (h m hm)).2
          rw [hmn] at hlow
          exact absurd (by exact_mod_cast hlow) hb.not_gt
        · have hr : ((n :: amounts).map fun (n : ℕ) => wrap bits n).find? (accepts intent) = some (wrap bits n) := by
            rw [List.map_cons, List.find?_cons, ha]
          obtain ⟨m, hm, hmn⟩ := List.mem_map.mp (List.mem_of_find?_eq_some (he.symm.trans hr))
          have ⟨_, hneg⟩ := narrow_neg hb hn
          omega
      · rw [List.find?_cons]
        simp only [hb, or_true, decide_true]

theorem shown_typed {log : Log} {n : ℕ} (ht : ∀ event, log.event = some event → EventTyped event)
    (h : shown intent claim log = some n) : n < 2 ^ (bits + 1) := by
  rw [shown] at h
  split at h
  case isTrue  => cases h
  case isFalse =>
    split at h
    case h_1 he => exact Option.some.inj (Option.ite_none_right_eq_some.mp h).2 ▸ (ht _ he).2
    case h_2 he => exact Option.some.inj (Option.ite_none_right_eq_some.mp h).2 ▸ (ht _ he).2
    case h_3    => cases h

theorem findSome_exact (logs : List Log) :
    (logs.findSome? (Sdk.matchLog intent claim)).map (fun (n : ℕ) => (n : ℤ)) =
      ((logs.filterMap (shown intent claim)).map fun (n : ℕ) => (n : ℤ)).find? (accepts intent) := by
  rw [← findSome_filter, List.map_findSome?]
  congr 1
  funext log
  refine (matchLog_exact log).trans (matchLog_iff fun event he => ?_)
  cases event <;> exact Nat.cast_inj

theorem findSome_narrow (hq : intent.quantityAtoms < 2 ^ bits)
    (ht : ∀ log ∈ logs, ∀ event, log.event = some event → EventTyped event) :
    logs.findSome? (matchLog (checked bits) intent claim) =
      ((logs.filterMap (shown intent claim)).map fun (n : ℕ) => wrap bits n).find? (accepts intent) := by
  rw [← findSome_filter]
  induction logs
  case nil            => rfl
  case cons log logs hi =>
    obtain ⟨hlog, hlogs⟩ := List.forall_mem_cons.mp ht
    have hm : matchLog (checked bits) intent claim log =
        ((shown intent claim log).map fun (n : ℕ) => wrap bits n).filter (accepts intent) := by
      refine matchLog_iff fun event he => ?_
      have ht := hlog event he
      cases event <;> exact narrow_eq_iff ht.1 hq
    rw [List.findSome?_cons, List.findSome?_cons, hm, hi hlogs]

theorem verifyEffect_iff (ht : EffectTyped intent receipt.logs) :
    verifyEffect (checked bits) intent receipt allowance = .of (Sdk.verifyEffect intent receipt allowance) ↔
      EffectFits intent receipt := by
  rw [verifyEffect, Sdk.verifyEffect, EffectFits]
  by_cases hs : receipt.success
  case neg => rw [if_pos hs, if_pos hs]; exact iff_of_true rfl fun h => absurd h hs
  rw [if_neg (not_not.mpr hs), if_neg (not_not.mpr hs), forall_prop_of_true hs]
  by_cases ha : intent.action = .approve
  case pos =>
    rw [if_pos ha, if_pos ha]
    refine iff_of_true ?_ fun h => absurd ha h
    split <;> rfl
  rw [if_neg ha, if_neg ha, forall_prop_of_true ha]
  cases hc : intent.claim
  case none       => exact iff_of_true rfl fun _ h => by cases h
  case some claim =>
    have hall : ∀ n ∈ receipt.logs.filterMap (shown intent claim), n < 2 ^ (bits + 1) := by
      intro n hn
      obtain ⟨log, hlog, hs⟩ := List.mem_filterMap.mp hn
      exact shown_typed (ht.logs log hlog) hs
    simp only [Option.some.injEq, forall_eq']
    rw [← find_iff ht.limit hall, ← findSome_exact, findSome_narrow ht.quantity ht.logs]
    generalize ((receipt.logs.filterMap (shown intent claim)).map fun (n : ℕ) => wrap bits n).find? (accepts intent) = x
    cases x <;> cases receipt.logs.findSome? (Sdk.matchLog intent claim)
    all_goals simp [Effect.of]

end Effect

end Native

section Verdict

variable {α : Type} {f : Arith → Except Fault α} {v : α}

-- Every build of the two runtimes does what the checked arithmetic does, if it does not fail.
theorem stable_builds (hf : Stable Native.bits f) :
    (∀ b, f (Rust.arith b) = .ok v) ∧ f Cpp.arith = .ok v ↔ f (checked Native.bits) = .ok v := by
  constructor
  case mp  => exact fun h => h.1 .debug
  case mpr =>
    intro h
    refine ⟨fun b => ?_, hf _ _ extends_undefined h⟩
    cases b
    case debug   => exact h
    case release => exact hf _ _ extends_wrapping h

open Native in
-- The policy, the plan and the check of an effect give the verdict of exact arithmetic, which is that of the
-- reference, exactly if no number of the chain is beyond what they hold.
theorem verdicts_exact (i : Native.PolicyInput) (reference : PolicyInput) (o : Options) (p : Plan) (view : PlanView)
    (times : PlanTimes) (j : Journal) (id : String) (owner : Owner) (intent : ExecutionIntent) (receipt : Receipt)
    (allowance : Option ℕ) (price : ℕ) (priority : Option ℕ) :
    (Bounded i.journal →
      ((∀ b, Rust.evaluatePolicy b i = Native.evaluatePolicy exact i) ∧
          Cpp.evaluatePolicy i = Native.evaluatePolicy exact i ↔ PolicyFits i)) ∧
    Native.evaluatePolicy exact (lift reference) = .ok (evaluatePolicy reference) ∧
    ((∀ b, Rust.fees b price priority = .ok (Sdk.fees price priority)) ∧
        Cpp.fees price priority = .ok (Sdk.fees price priority) ↔ price * 120 < 2 ^ (bits + 1)) ∧
    (Typed o view j →
      ((∀ b, Rust.plan b o p view times j id owner = .ok (plan o p view times j id owner)) ∧
          Cpp.plan o p view times j id owner = .ok (plan o p view times j id owner) ↔ PlanFits o p view times j)) ∧
    (EffectTyped intent receipt.logs →
      ((∀ b, Rust.verifyEffect b intent receipt allowance = .of (verifyEffect intent receipt allowance)) ∧
          Cpp.verifyEffect intent receipt allowance = .of (verifyEffect intent receipt allowance) ↔
        EffectFits intent receipt)) := by
  refine ⟨fun hb => ?_, ?_, ?_, fun ht => ?_, fun ht => ?_⟩
  · rw [exact_evaluatePolicy]
    refine (stable_builds (stable_evaluatePolicy i)).trans ((evaluatePolicy_iff hb).trans ?_)
    exact and_iff_left rfl
  · rw [exact_evaluatePolicy, exactViolations_lift]
  · exact (stable_builds (stable_fees price priority)).trans fees_iff
  · exact (stable_builds (stable_plan o p view times j id owner)).trans (plan_iff ht)
  · refine Iff.trans ⟨fun h => h.1 .debug, fun h => ⟨fun b => ?_, h⟩⟩ (verifyEffect_iff ht)
    cases b <;> exact h

end Verdict

section Samples

def samplePolicy : PolicyConfig where
  markets               := ["market"]
  maxQuantityAtoms      := 10
  maxTradeCostAtoms     := 10
  maxSlippageBps        := 50
  totalAtoms            := 10
  windows               := []
  maxPositionAtoms      := 10
  maxWorstCaseLossAtoms := 10
  maxFeeWei             := 1000
  reserveWei            := 1
  quoteMaxAgeSeconds    := 60
  minSecondsBeforeClose := 60
  maxPending            := 5
  allowSell             := true
  allowRedeem           := true

def samplePlan : Plan where
  deployment  := ⟨"market", 10143, 0xb0, 1000, 2⟩
  intent      := .approve 5
  decisionId  := "decision"
  quoteBlock  := none
  slippageBps := 50

-- With a fifth on top, the price is `2 ^ 121` and the estimate 128.
def samplePrice : ℕ := 2215379992974859788173011767133907627

def sampleView (price : ℕ) : PlanView where
  simulated   := true
  estimateGas := some 107
  fees        := fees price none
  native      := 5000
  head        := ⟨1, 0⟩
  resolved    := false
  snapshot    := []
  holdings _  := 0

def sampleSale : Native.PolicyInput where
  policy           := samplePolicy
  now              := 0
  market           := ⟨"market", 2, 1000, true, false⟩
  nativeBalanceWei := 5000
  holdings         := [(⟨1, 1⟩, 5)]
  journal          := []
  candidate        := ⟨.sell, "market", ⟨1, 1⟩, 5, 1, 50, 0, 2, 100⟩

def sampleIntent : ExecutionIntent where
  action        := .buy
  wallet        := 1
  pool          := 0xb0
  claim         := some ⟨1, 1⟩
  quantityAtoms := 5
  limitAtoms    := 5

def sampleReceipt (amount : ℕ) : Receipt where
  success           := true
  blockNumber       := 1
  gasUsed           := 1
  effectiveGasPrice := none
  logs              := [⟨0xb0, some (.traded 1 ⟨1, 1⟩ true 5 amount)⟩]

def sampleReference : PolicyInput where
  policy           := samplePolicy
  now              := 0
  market           := ⟨"market", 2, 1000, true, false⟩
  nativeBalanceWei := 5000
  holdings         := [(⟨1, 1⟩, 5)]
  journal          := []
  candidate        := ⟨.sell, "market", ⟨1, 1⟩, 5, 1, 50, 0, 2, 100⟩

theorem verdicts_exact_sample :
    (Cpp.evaluatePolicy sampleSale = Native.evaluatePolicy exact sampleSale) ∧
    (Rust.plan .debug ⟨1, samplePolicy⟩ samplePlan (sampleView 5) ⟨0, 0, 0⟩ [] "id" ⟨1, "host"⟩ =
      .ok (plan ⟨1, samplePolicy⟩ samplePlan (sampleView 5) ⟨0, 0, 0⟩ [] "id" ⟨1, "host"⟩)) ∧
    Rust.verifyEffect .release sampleIntent (sampleReceipt 4) none = .confirmed (some 4) ∧
    Cpp.fees samplePrice none = .ok ⟨2 ^ 121, 0⟩ := by
  obtain ⟨hpolicy, _, hfees, hplan, heffect⟩ := verdicts_exact sampleSale sampleReference ⟨1, samplePolicy⟩
    samplePlan (sampleView 5) ⟨0, 0, 0⟩ [] "id" ⟨1, "host"⟩ sampleIntent (sampleReceipt 4) none samplePrice none
  refine ⟨?_, ?_, ?_, (hfees.mpr (by decide +kernel)).2⟩
  · refine ((hpolicy (by simp [Native.Bounded, sampleSale])).mpr ⟨?_, ?_, ?_, ?_⟩).2
    · refine prefixes_cons.mpr ⟨by decide +kernel, fun ps hp hn => absurd (List.prefix_nil.mp hp) hn⟩
    · exact fun h => by cases h
    · decide +kernel
    · decide +kernel
  · have ht : Native.Typed ⟨1, samplePolicy⟩ (sampleView 5) [] :=
      ⟨by decide +kernel, by decide +kernel, fun _ => Nat.two_pow_pos _, by decide +kernel, by decide +kernel,
        by decide +kernel, by simp [Native.Bounded, policyEntries]⟩
    refine ((hplan ht).mpr ?_).1 .debug
    intro tx _ _ estimate he
    cases he
    exact ⟨by decide +kernel, fun _ _ => ⟨by decide +kernel, by decide +kernel, fun claim hc => by cases hc⟩⟩
  · have ht : Native.EffectTyped sampleIntent (sampleReceipt 4).logs := by
      refine ⟨by decide +kernel, by decide +kernel, fun log hl event he => ?_⟩
      obtain rfl := List.mem_singleton.mp hl
      cases he
      exact ⟨by decide +kernel, by decide +kernel⟩
    refine ((heffect ht).mpr ?_).1 .release
    intro _ _ claim hc amount ha
    cases hc
    have hf : [4].find? (fun (n : ℕ) => Native.accepts sampleIntent n ∨ 2 ^ Native.bits ≤ n) = some amount := ha
    have := List.mem_singleton.mp (List.mem_of_find?_eq_some hf)
    rw [this]
    decide +kernel

-- A fee that wraps around to zero passes every bound, and a cost that turns negative is within every limit.
theorem verdicts_diverge :
    (∀ b, Rust.fees b samplePrice none = .ok (fees samplePrice none)) ∧
    Cpp.fees samplePrice none = .ok (fees samplePrice none) ∧
    Rust.plan .debug ⟨1, samplePolicy⟩ samplePlan (sampleView samplePrice) ⟨0, 0, 0⟩ [] "id" ⟨1, "host"⟩ =
      .error .overflow ∧
    (Rust.plan .release ⟨1, samplePolicy⟩ samplePlan (sampleView samplePrice) ⟨0, 0, 0⟩ [] "id" ⟨1, "host"⟩).map
      (·.isOk) = .ok true ∧
    (Cpp.plan ⟨1, samplePolicy⟩ samplePlan (sampleView samplePrice) ⟨0, 0, 0⟩ [] "id" ⟨1, "host"⟩).map (·.isOk) =
      .ok true ∧
    plan ⟨1, samplePolicy⟩ samplePlan (sampleView samplePrice) ⟨0, 0, 0⟩ [] "id" ⟨1, "host"⟩ =
      .error (.rejectedByPolicy [.gasFeeLimit, .gasReserve]) ∧
    (∀ b, Rust.verifyEffect b sampleIntent (sampleReceipt (2 ^ 127)) none = .confirmed (some (-2 ^ 127))) ∧
    Cpp.verifyEffect sampleIntent (sampleReceipt (2 ^ 127)) none = .confirmed (some (-2 ^ 127)) ∧
    verifyEffect sampleIntent (sampleReceipt (2 ^ 127)) none = .mismatch := by
  refine ⟨?_, ?_, ?_, ?_, ?_, ?_, ?_, ?_, ?_⟩
  · intro b
    cases b <;> rfl
  · rfl
  · rfl
  · rfl
  · rfl
  · rfl
  · intro b
    cases b <;> decide +kernel
  · decide +kernel
  · decide +kernel

end Samples

end Sdk
