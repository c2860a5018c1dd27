import Flurbo.Sdk.Native

-- Which numbers of the chain, of the policy and of the journal the 128-bit runtimes treat as exact arithmetic does.

open Machine Except

namespace Sdk

namespace Native

variable {a : Arith} {claim : Claim} {q : ℤ} {ps qs : List (Claim × ℤ)} {e : PolicyEntry} {market : String}
variable {journal : List PolicyEntry}

section Exact

-- Exact arithmetic gives the amounts of the reference.
def lift (i : Sdk.PolicyInput) : PolicyInput where
  policy           := i.policy
  now              := i.now
  market           := i.market
  nativeBalanceWei := i.nativeBalanceWei
  holdings         := i.holdings.map fun (c, n) => (c, (n : ℤ))
  journal          := i.journal
  candidate        :=
    { action              := i.candidate.action
      nameSpace           := i.candidate.nameSpace
      claim               := i.candidate.claim
      quantityAtoms       := i.candidate.quantityAtoms
      limitAtoms          := i.candidate.limitAtoms
      slippageBps         := i.candidate.slippageBps
      quoteBlockTimestamp := i.candidate.quoteBlockTimestamp
      gasLimit            := i.candidate.gasLimit
      maxFeePerGas        := i.candidate.maxFeePerGas }

def held (i : PolicyInput) : ℤ := ((i.holdings.filter (·.1 = i.candidate.claim)).map (·.2)).sum

def spent (journal : List PolicyEntry) (limit : ℕ) : ℤ := (totalSpend journal + limit : ℕ)

def pending (i : PolicyInput) : List ℕ :=
  (i.journal.filter fun e => e.action = .buy ∧ e.status ∈ JournalStatus.unfinished ∧
    e.nameSpace = i.candidate.nameSpace ∧ e.claim = some i.candidate.claim).map (·.quantityAtoms)

-- The positions after some entries, with their cost.
def after (i : PolicyInput) (journal : List PolicyEntry) : List (Claim × ℤ) × ℕ :=
  journal.foldl (Sdk.addEntry i.market.nameSpace) ([], 0)

def finalPositions (i : PolicyInput) : List (Claim × ℤ) :=
  Sdk.addPosition i.candidate.claim i.candidate.quantityAtoms (after i i.journal).1

def loss (i : PolicyInput) : ℤ :=
  ((after i i.journal).2 + i.candidate.limitAtoms : ℕ) -
    lowest ((List.range (2 ^ i.market.eventCount)).map (payoutIn (finalPositions i)))

def exactTotals (i : PolicyInput) (h : ℤ) : Totals where
  total    := spent i.journal i.candidate.limitAtoms
  windows  := i.policy.windows.map fun w =>
    spent (i.journal.filter (·.plannedAt ≥ i.now - w.seconds)) i.candidate.limitAtoms
  position := h + (pending i).sum + i.candidate.quantityAtoms
  loss     := loss i

def exactViolations (i : PolicyInput) : List Violation :=
  let fee := i.candidate.gasLimit * i.candidate.maxFeePerGas
  violations i (held i) (if i.candidate.action = .buy then exactTotals i (held i) else ⟨0, [], 0, 0⟩) fee
    (i.nativeBalanceWei - fee)

end Exact

section WorstCaseLoss

-- What `i128` holds of the journal.
def Bounded (journal : List PolicyEntry) : Prop := ∀ e ∈ journal, e.quantityAtoms < 2 ^ bits

def Within (s : List (Claim × ℤ) × ℕ) : Prop := (∀ p ∈ s.1, Fits bits p.2) ∧ s.2 < 2 ^ bits

theorem addPosition_iff (h : ∀ p ∈ ps, Fits bits p.2) :
    addPosition (checked bits) claim q ps = .ok qs ↔
      (∀ p ∈ Sdk.addPosition claim q ps, Fits bits p.2) ∧ qs = Sdk.addPosition claim q ps := by
  induction ps generalizing qs
  case nil =>
    simp only [addPosition, Sdk.addPosition, zero_add, bind_eq_ok, checked_signed_iff, pure_eq_ok, ok.injEq,
      List.forall_mem_singleton]
    constructor
    case mp =>
      rintro ⟨_, ⟨hf, rfl⟩, he⟩
      exact ⟨hf, he.symm⟩
    case mpr =>
      rintro ⟨hf, he⟩
      exact ⟨_, ⟨hf, rfl⟩, he.symm⟩
  case cons p ps hi =>
    obtain ⟨hp, hps⟩ := List.forall_mem_cons.mp h
    rw [addPosition, Sdk.addPosition]
    split
    case isTrue =>
      simp only [bind_eq_ok, checked_signed_iff, pure_eq_ok, ok.injEq, List.forall_mem_cons]
      constructor
      case mp =>
        rintro ⟨_, ⟨hf, rfl⟩, he⟩
        exact ⟨⟨hf, hps⟩, he.symm⟩
      case mpr =>
        rintro ⟨⟨hf, _⟩, he⟩
        exact ⟨_, ⟨hf, rfl⟩, he.symm⟩
    case isFalse =>
      simp only [bind_eq_ok, hi hps, pure_eq_ok, ok.injEq, List.forall_mem_cons]
      constructor
      case mp =>
        rintro ⟨_, ⟨hf, rfl⟩, he⟩
        exact ⟨⟨hp, hf⟩, he.symm⟩
      case mpr =>
        rintro ⟨⟨_, hf⟩, he⟩
        exact ⟨_, ⟨hf, rfl⟩, he.symm⟩

def cast (s : List (Claim × ℤ) × ℕ) : List (Claim × ℤ) × ℤ := (s.1, s.2)

-- One entry overflows neither a position nor the cost.
theorem addEntry_iff {s : List (Claim × ℤ) × ℕ} {s' : List (Claim × ℤ) × ℤ} (h : Within s)
    (he : e.quantityAtoms < 2 ^ bits) :
    addEntry (checked bits) market (cast s) e = .ok s' ↔
      Within (Sdk.addEntry market s e) ∧ s' = cast (Sdk.addEntry market s e) := by
  have hsame : (.ok (cast s) : Except Fault _) = .ok s' ↔ Within s ∧ s' = cast s := by
    rw [ok.injEq]
    exact ⟨fun hs => ⟨h, hs.symm⟩, fun hs => hs.2.symm⟩
  have hbuy (claim : Claim) (n : ℕ) : (do
      return (← addPosition (checked bits) claim e.quantityAtoms (cast s).1, ← (checked bits).signed ((cast s).2 + (n : ℤ)))) =
        .ok s' ↔ Within (Sdk.addPosition claim e.quantityAtoms s.1, s.2 + n) ∧
      s' = cast (Sdk.addPosition claim e.quantityAtoms s.1, s.2 + n) := by
    have hc : ((cast s).2 + (n : ℤ)) = ((s.2 + n : ℕ) : ℤ) := by rw [cast, Nat.cast_add]
    simp only [bind_eq_ok, hc, checked_signed_iff, fits_natCast, pure_eq_ok, ok.injEq]
    simp only [cast, addPosition_iff h.1, Within]
    constructor
    case mp =>
      rintro ⟨_, ⟨hf, rfl⟩, _, ⟨hn, rfl⟩, he⟩
      exact ⟨⟨hf, hn⟩, he.symm⟩
    case mpr =>
      rintro ⟨⟨hf, hn⟩, he⟩
      exact ⟨_, ⟨hf, rfl⟩, _, ⟨hn, rfl⟩, he.symm⟩
  rw [addEntry, Sdk.addEntry]
  cases e.claim
  case none       => exact hsame
  case some claim =>
    simp only []
    split
    case isTrue => exact hsame
    split
    case isTrue => exact hbuy claim _
    split
    case isTrue => exact hbuy claim _
    split
    case isFalse => exact hsame
    case isTrue  =>
      have hneg : Fits bits (-(e.quantityAtoms : ℤ)) := by
        have : (e.quantityAtoms : ℤ) < 2 ^ bits := by exact_mod_cast he
        exact ⟨by omega, by omega⟩
      simp only [bind_eq_ok, checked_signed_iff, pure_eq_ok, ok.injEq]
      simp only [cast, addPosition_iff h.1, Within]
      constructor
      case mp =>
        rintro ⟨_, ⟨_, rfl⟩, _, ⟨hf, rfl⟩, he⟩
        exact ⟨⟨hf, h.2⟩, he.symm⟩
      case mpr =>
        rintro ⟨⟨hf, _⟩, he⟩
        exact ⟨_, ⟨hneg, rfl⟩, _, ⟨hf, rfl⟩, he.symm⟩

def Run (market : String) (s : List (Claim × ℤ) × ℕ) (journal : List PolicyEntry) : Prop :=
  ∀ pre, pre <+: journal → Within (pre.foldl (Sdk.addEntry market) s)

theorem run_cons {s : List (Claim × ℤ) × ℕ} : Run market s (e :: journal) ↔
    Within s ∧ Run market (Sdk.addEntry market s e) journal := by
  constructor
  case mp =>
    intro h
    refine ⟨h [] List.nil_prefix, fun pre hp => ?_⟩
    exact h (e :: pre) (List.cons_prefix_cons.mpr ⟨rfl, hp⟩)
  case mpr =>
    intro ⟨hs, h⟩ pre hp
    rcases List.prefix_cons_iff.mp hp with rfl | ⟨rest, rfl, hr⟩
    · exact hs
    · exact h rest hr

theorem foldlM_addEntry_iff {s : List (Claim × ℤ) × ℕ} {s' : List (Claim × ℤ) × ℤ} (h : Within s)
    (hb : Bounded journal) : journal.foldlM (addEntry (checked bits) market) (cast s) = .ok s' ↔
      Run market s journal ∧ s' = cast (journal.foldl (Sdk.addEntry market) s) := by
  induction journal generalizing s
  case nil =>
    rw [List.foldlM_nil, pure_eq_ok, ok.injEq, List.foldl_nil]
    constructor
    case mp =>
      intro he
      exact ⟨fun pre hp => by rwa [List.prefix_nil.mp hp], he.symm⟩
    case mpr => exact fun he => he.2.symm
  case cons e journal hi =>
    obtain ⟨he, hj⟩ := List.forall_mem_cons.mp hb
    rw [List.foldlM_cons, bind_eq_ok, run_cons, List.foldl_cons]
    constructor
    case mp =>
      intro ⟨s₁, hs₁, hr⟩
      obtain ⟨hw, rfl⟩ := (addEntry_iff h he).mp hs₁
      have ⟨hrun, hs⟩ := (hi hw hj).mp hr
      exact ⟨⟨h, hrun⟩, hs⟩
    case mpr =>
      intro ⟨⟨_, hrun⟩, hs⟩
      have hw : Within (Sdk.addEntry market s e) := hrun [] List.nil_prefix
      exact ⟨_, (addEntry_iff h he).mpr ⟨hw, rfl⟩, (hi hw hj).mpr ⟨hrun, hs⟩⟩

theorem sum_paying (ps : List (Claim × ℤ)) (state : ℕ) : (paying ps state).sum = payoutIn ps state := by
  rw [paying, payoutIn]
  induction ps
  case nil          => rfl
  case cons p ps hi =>
    obtain ⟨c, q⟩ := p
    rw [List.map_cons, List.sum_cons, ← hi, List.filter_cons]
    simp only [decide_eq_true_eq]
    split
    case isTrue  => rw [List.map_cons, List.sum_cons]
    case isFalse => rw [zero_add]

theorem paying_nonneg (ps : List (Claim × ℤ)) (state : ℕ) : ∀ z ∈ paying ps state, 0 ≤ z := by
  intro z hz
  obtain ⟨p, hp, rfl⟩ := List.mem_map.mp hz
  have hp := (List.mem_filter.mp hp).2
  simp only [decide_eq_true_eq] at hp
  exact hp.1.le

theorem foldl_lowest {payouts : List ℤ} {floor : Option ℤ} {b : ℤ} (hb : 0 < b) (h : ∀ z ∈ payouts, 0 ≤ z ∧ z < b)
    (hf : ∀ z ∈ floor, 0 ≤ z ∧ z < b) :
    0 ≤ (payouts.foldl (fun floor payout => if floor.all (payout < ·) then some payout else floor) floor).getD 0 ∧
      (payouts.foldl (fun floor payout => if floor.all (payout < ·) then some payout else floor) floor).getD 0 < b := by
  induction payouts generalizing floor
  case nil =>
    cases floor
    case none   => exact ⟨le_rfl, hb⟩
    case some z => exact hf z rfl
  case cons z zs hi =>
    obtain ⟨hz, hzs⟩ := List.forall_mem_cons.mp h
    rw [List.foldl_cons]
    refine hi hzs ?_
    split
    case isTrue  => exact fun y hy => by cases hy; exact hz
    case isFalse => exact hf

structure LossFits (i : PolicyInput) : Prop where
  run       : Run i.market.nameSpace ([], 0) i.journal
  positions : ∀ p ∈ finalPositions i, Fits bits p.2
  cost      : (after i i.journal).2 + i.candidate.limitAtoms < 2 ^ bits
  payouts   : ∀ state < 2 ^ i.market.eventCount, payoutIn (finalPositions i) state < 2 ^ bits

theorem worstCaseLoss_iff {i : PolicyInput} {v : ℤ} (hb : Bounded i.journal) :
    worstCaseLoss (checked bits) i = .ok v ↔ LossFits i ∧ v = loss i := by
  have hstart : Within ([], 0) := ⟨by simp, by decide⟩
  have hsum (ps : List (Claim × ℤ)) (state : ℕ) (y : ℤ) : (checked bits).sum (paying ps state) = .ok y ↔
      payoutIn ps state < 2 ^ bits ∧ y = payoutIn ps state := by
    rw [checked_sum_iff, prefixes_of_nonneg (paying_nonneg ps state), sum_paying]
  have hlimit : (((after i i.journal).2 : ℤ) + (i.candidate.limitAtoms : ℤ)) =
      (((after i i.journal).2 + i.candidate.limitAtoms : ℕ) : ℤ) := by rw [Nat.cast_add]
  rw [worstCaseLoss, bind_eq_ok]
  constructor
  case mp =>
    rintro ⟨s, hs, h⟩
    obtain ⟨hrun, rfl⟩ := (foldlM_addEntry_iff hstart hb).mp hs
    have hw := hrun i.journal (List.prefix_refl _)
    simp only [bind_eq_ok] at h
    obtain ⟨ps, hps, c, hc, payouts, hpay, hv⟩ := h
    obtain ⟨hfit, rfl⟩ := (addPosition_iff hw.1).mp hps
    obtain ⟨hfc, rfl⟩ := checked_signed_iff.mp hc
    obtain ⟨hp, rfl⟩ := (mapM_eq_ok_iff (hsum _)).mp hpay
    obtain ⟨_, rfl⟩ := checked_signed_iff.mp hv
    refine ⟨⟨hrun, hfit, ?_, fun state hs => hp state (List.mem_range.mpr hs)⟩, by rw [loss, ← hlimit]; rfl⟩
    have hfc : Fits bits (((after i i.journal).2 : ℤ) + (i.candidate.limitAtoms : ℤ)) := hfc
    rwa [hlimit, fits_natCast] at hfc
  case mpr =>
    rintro ⟨hf, hv⟩
    have hw := hf.run i.journal (List.prefix_refl _)
    refine ⟨_, (foldlM_addEntry_iff hstart hb).mpr ⟨hf.run, rfl⟩, ?_⟩
    simp only [bind_eq_ok]
    have hcost : Fits bits (((after i i.journal).2 : ℤ) + (i.candidate.limitAtoms : ℤ)) := by
      rw [hlimit, fits_natCast]
      exact hf.cost
    have hpay : ∀ state ∈ List.range (2 ^ i.market.eventCount), payoutIn (finalPositions i) state < 2 ^ bits :=
      fun state hs => hf.payouts state (List.mem_range.mp hs)
    refine ⟨_, (addPosition_iff hw.1).mpr ⟨hf.positions, rfl⟩, _, checked_signed_iff.mpr ⟨hcost, rfl⟩, _,
      (mapM_eq_ok_iff (hsum _)).mpr ⟨hpay, rfl⟩, checked_signed_iff.mpr ⟨?_, ?_⟩⟩
    · have hmem : ∀ z ∈ (List.range (2 ^ i.market.eventCount)).map (payoutIn (finalPositions i)), 0 ≤ z ∧ z < 2 ^ bits := by
        intro z hz
        obtain ⟨state, hs, rfl⟩ := List.mem_map.mp hz
        refine ⟨?_, hpay state hs⟩
        rw [← sum_paying]
        exact List.sum_nonneg (paying_nonneg _ _)
      have hl := @foldl_lowest _ none (2 ^ bits) (by decide) hmem (by simp)
      change Fits bits ((((after i i.journal).2 : ℤ) + (i.candidate.limitAtoms : ℤ)) -
        lowest ((List.range (2 ^ i.market.eventCount)).map (payoutIn (finalPositions i))))
      rw [← lowest] at hl
      generalize lowest _ = low at hl
      obtain ⟨_, hu⟩ := hcost
      exact ⟨by omega, by omega⟩
    · rw [hv, loss, ← hlimit]
      rfl

end WorstCaseLoss

section Policy

variable {i : PolicyInput} {h v : ℤ} {t : Totals} {limit : ℕ} {vs : List Violation}

theorem spending_iff : spending (checked bits) journal limit = .ok v ↔
    totalSpend journal + limit < 2 ^ bits ∧ v = spent journal limit := by
  have hs : (amounts journal).sum = (totalSpend journal : ℤ) := by
    rw [amounts, ← Nat.cast_list_sum, totalSpend]
  have hc : ((totalSpend journal : ℤ) + (limit : ℤ)) = spent journal limit := by rw [spent, Nat.cast_add]
  simp only [spending, bind_eq_ok, checked_sum_iff, checked_signed_iff]
  constructor
  case mp =>
    rintro ⟨_, ⟨_, rfl⟩, hf, hv⟩
    rw [hs, hc] at hf hv
    exact ⟨fits_natCast.mp hf, hv⟩
  case mpr =>
    rintro ⟨hf, hv⟩
    refine ⟨_, ⟨?_, rfl⟩, ?_⟩
    · rw [amounts, prefixes_natCast]
      exact lt_of_le_of_lt (Nat.le_add_right _ _) hf
    · rw [hs, hc]
      exact ⟨fits_natCast.mpr hf, hv⟩

-- A window does not count more than the whole journal.
theorem totalSpend_filter_le (p : PolicyEntry → Bool) (journal : List PolicyEntry) :
    totalSpend (journal.filter p) ≤ totalSpend journal :=
  (List.filter_sublist.map _).sum_le_sum fun _ _ => Nat.zero_le _

structure TotalsFit (i : PolicyInput) (h : ℤ) : Prop where
  total    : totalSpend i.journal + i.candidate.limitAtoms < 2 ^ bits
  pending  : (pending i).sum < 2 ^ bits
  subtotal : Fits bits (h + (Native.pending i).sum)
  position : Fits bits (h + (Native.pending i).sum + i.candidate.quantityAtoms)
  loss     : LossFits i

theorem totals_iff (hb : Bounded i.journal) :
    totals (checked bits) i h = .ok t ↔ TotalsFit i h ∧ t = exactTotals i h := by
  have hpend : ((pending i).map fun (n : ℕ) => (n : ℤ)).sum = ((pending i).sum : ℤ) := (Nat.cast_list_sum _).symm
  have hwindows (w : SpendWindow) (y : ℤ) := @spending_iff
    (i.journal.filter (·.plannedAt ≥ i.now - w.seconds)) y i.candidate.limitAtoms
  simp only [totals, bind_eq_ok]
  constructor
  case mp =>
    rintro ⟨total, ht, windows, hw, p, hp, s, hs, q, hq, l, hl, he⟩
    obtain ⟨hft, rfl⟩ := spending_iff.mp ht
    obtain ⟨_, rfl⟩ := (mapM_eq_ok_iff hwindows).mp hw
    obtain ⟨hfp, rfl⟩ := checked_sum_iff.mp hp
    obtain ⟨hfs, rfl⟩ := checked_signed_iff.mp hs
    obtain ⟨hfq, rfl⟩ := checked_signed_iff.mp hq
    obtain ⟨hfl, rfl⟩ := (worstCaseLoss_iff hb).mp hl
    have hfs : Fits bits (h + ((pending i).map fun (n : ℕ) => (n : ℤ)).sum) := hfs
    have hfq : Fits bits (h + ((pending i).map fun (n : ℕ) => (n : ℤ)).sum + i.candidate.quantityAtoms) := hfq
    rw [hpend] at hfs hfq
    refine ⟨⟨hft, prefixes_natCast.mp hfp, hfs, hfq, hfl⟩, ?_⟩
    cases he
    rw [exactTotals, ← hpend]
    rfl
  case mpr =>
    rintro ⟨hf, he⟩
    refine ⟨_, spending_iff.mpr ⟨hf.total, rfl⟩, _, (mapM_eq_ok_iff hwindows).mpr ⟨fun w _ => ?_, rfl⟩, _,
      checked_sum_iff.mpr ⟨prefixes_natCast.mpr hf.pending, rfl⟩, _, checked_signed_iff.mpr ⟨?_, rfl⟩, _,
      checked_signed_iff.mpr ⟨?_, rfl⟩, _, (worstCaseLoss_iff hb).mpr ⟨hf.loss, rfl⟩, ?_⟩
    · exact lt_of_le_of_lt (Nat.add_le_add_right (totalSpend_filter_le _ _) _) hf.total
    · change Fits bits (h + ((pending i).map fun (n : ℕ) => (n : ℤ)).sum)
      rw [hpend]
      exact hf.subtotal
    · change Fits bits (h + ((pending i).map fun (n : ℕ) => (n : ℤ)).sum + i.candidate.quantityAtoms)
      rw [hpend]
      exact hf.position
    · rw [he, exactTotals, ← hpend]
      rfl

structure PolicyFits (i : PolicyInput) : Prop where
  held   : Prefixes bits 0 ((i.holdings.filter (·.1 = i.candidate.claim)).map (·.2))
  totals : i.candidate.action = .buy → TotalsFit i (Native.held i)
  fee    : Fits bits (i.candidate.gasLimit * i.candidate.maxFeePerGas)
  rest   : Fits bits (i.nativeBalanceWei - i.candidate.gasLimit * i.candidate.maxFeePerGas)

theorem evaluatePolicy_iff (hb : Bounded i.journal) :
    evaluatePolicy (checked bits) i = .ok vs ↔ PolicyFits i ∧ vs = exactViolations i := by
  have htotals (t : Totals) : totalsOf (checked bits) i (held i) = .ok t ↔
      (i.candidate.action = .buy → TotalsFit i (held i)) ∧
        t = if i.candidate.action = .buy then exactTotals i (held i) else ⟨0, [], 0, 0⟩ := by
    rw [totalsOf]
    split
    case isTrue hbuy   => rw [totals_iff hb, forall_prop_of_true hbuy]
    case isFalse hbuy  =>
      rw [ok.injEq, forall_prop_of_false hbuy, true_and]
      exact eq_comm
  simp only [evaluatePolicy, bind_eq_ok]
  constructor
  case mp =>
    rintro ⟨s, hs, t, ht, fee, hfee, rest, hrest, he⟩
    obtain ⟨hfs, rfl⟩ := checked_sum_iff.mp hs
    obtain ⟨hft, rfl⟩ := (htotals t).mp ht
    obtain ⟨hff, rfl⟩ := checked_signed_iff.mp hfee
    obtain ⟨hfr, rfl⟩ := checked_signed_iff.mp hrest
    exact ⟨⟨hfs, hft, hff, hfr⟩, (ok.inj he).symm⟩
  case mpr =>
    rintro ⟨hf, he⟩
    exact ⟨_, checked_sum_iff.mpr ⟨hf.held, rfl⟩, _, (htotals _).mpr ⟨hf.totals, rfl⟩, _,
      checked_signed_iff.mpr ⟨hf.fee, rfl⟩, _, checked_signed_iff.mpr ⟨hf.rest, rfl⟩, congrArg _ he.symm⟩

end Policy

section Stable

theorem stable_addPosition (claim : Claim) (q : ℤ) (ps : List (Claim × ℤ)) :
    Stable bits fun a => addPosition a claim q ps := by
  induction ps
  case nil          => exact (stable_signed _).bind fun _ => stable_ok _
  case cons p ps hi =>
    simp only [addPosition]
    split
    case isTrue  => exact (stable_signed _).bind fun _ => stable_ok _
    case isFalse => exact hi.bind fun _ => stable_ok _

theorem stable_addEntry (market : String) (s : List (Claim × ℤ) × ℤ) (e : PolicyEntry) :
    Stable bits fun a => addEntry a market s e := by
  have hbuy (claim : Claim) (n : ℤ) : Stable bits fun a => do
      return (← addPosition a claim e.quantityAtoms s.1, ← a.signed (s.2 + n)) :=
    (stable_addPosition _ _ _).bind fun _ => (stable_signed _).bind fun _ => stable_ok _
  simp only [addEntry]
  cases e.claim
  case none       => exact stable_ok s
  case some claim =>
    simp only []
    split
    case isTrue  => exact stable_ok s
    split
    case isTrue  => exact hbuy claim _
    split
    case isTrue  => exact hbuy claim _
    split
    case isTrue  => exact (stable_signed _).bind fun _ => (stable_addPosition _ _ _).bind fun _ => stable_ok _
    case isFalse => exact stable_ok s

theorem stable_worstCaseLoss (i : PolicyInput) : Stable bits fun a => worstCaseLoss a i := by
  refine (Stable.foldlM (fun s e => stable_addEntry _ s e) _ _).bind fun s => ?_
  refine (stable_addPosition _ _ _).bind fun _ => (stable_signed _).bind fun _ => ?_
  exact (Stable.mapM (fun _ => stable_sum _) _).bind fun _ => stable_signed _

theorem stable_spending (journal : List PolicyEntry) (limit : ℕ) :
    Stable bits fun a => spending a journal limit :=
  (stable_sum _).bind fun _ => stable_signed _

theorem stable_totals (i : PolicyInput) (h : ℤ) : Stable bits fun a => totals a i h := by
  refine (stable_spending _ _).bind fun _ => (Stable.mapM (fun _ => stable_spending _ _) _).bind fun _ => ?_
  refine (stable_sum _).bind fun _ => (stable_signed _).bind fun _ => (stable_signed _).bind fun _ => ?_
  exact (stable_worstCaseLoss i).bind fun _ => stable_ok _

theorem stable_totalsOf (i : PolicyInput) (h : ℤ) : Stable bits fun a => totalsOf a i h := by
  simp only [totalsOf]
  split
  case isTrue  => exact stable_totals i h
  case isFalse => exact stable_ok _

theorem stable_evaluatePolicy (i : PolicyInput) : Stable bits fun a => evaluatePolicy a i := by
  refine (stable_sum _).bind fun h => (stable_totalsOf i h).bind fun t => ?_
  exact (stable_signed _).bind fun _ => (stable_signed _).bind fun _ => stable_ok _

end Stable

section Reference

variable {i : PolicyInput}

theorem exact_sum (zs : List ℤ) : exact.sum zs = .ok zs.sum := by
  have h (s : ℤ) : zs.foldlM (fun s z => exact.signed (s + z)) s = .ok (s + zs.sum) := by
    induction zs generalizing s
    case nil          => rw [List.sum_nil, add_zero]; rfl
    case cons z zs hi => rw [List.foldlM_cons, List.sum_cons, ← add_assoc]; exact hi (s + z)
  rw [Arith.sum, h, zero_add]

theorem exact_addPosition (claim : Claim) (q : ℤ) (ps : List (Claim × ℤ)) :
    addPosition exact claim q ps = .ok (Sdk.addPosition claim q ps) := by
  induction ps
  case nil          => rw [addPosition, Sdk.addPosition, zero_add]; rfl
  case cons p ps hi =>
    rw [addPosition, Sdk.addPosition]
    split
    case isTrue  => rfl
    case isFalse => rw [hi]; rfl

theorem exact_addEntry (market : String) (s : List (Claim × ℤ) × ℕ) (e : PolicyEntry) :
    addEntry exact market (cast s) e = .ok (cast (Sdk.addEntry market s e)) := by
  have hbuy (claim : Claim) (n : ℕ) : (do
      return (← addPosition exact claim e.quantityAtoms (cast s).1, ← exact.signed ((cast s).2 + (n : ℤ)))) =
        (.ok (cast (Sdk.addPosition claim e.quantityAtoms s.1, s.2 + n)) : Except Fault _) := by
    rw [exact_addPosition, cast, cast, Nat.cast_add]
    rfl
  rw [addEntry, Sdk.addEntry]
  cases e.claim
  case none       => rfl
  case some claim =>
    simp only []
    split
    case isTrue  => rfl
    split
    case isTrue  => exact hbuy claim _
    split
    case isTrue  => exact hbuy claim _
    split
    case isTrue  => exact congrArg (fun p => p >>= fun ps => .ok (ps, (s.2 : ℤ))) (exact_addPosition claim _ s.1)
    case isFalse => rfl

theorem exact_foldlM (market : String) (s : List (Claim × ℤ) × ℕ) (journal : List PolicyEntry) :
    journal.foldlM (addEntry exact market) (cast s) = .ok (cast (journal.foldl (Sdk.addEntry market) s)) := by
  induction journal generalizing s
  case nil               => rfl
  case cons e journal hi => rw [List.foldlM_cons, exact_addEntry, ok_bind, hi, List.foldl_cons]

theorem exact_mapM {α β : Type} {f : α → Except Fault β} {g : α → β} (h : ∀ x, f x = .ok (g x)) (xs : List α) :
    xs.mapM f = .ok (xs.map g) := by
  induction xs
  case nil          => rfl
  case cons x xs hi => rw [List.mapM_cons, h, ok_bind, hi]; rfl

theorem exact_worstCaseLoss (i : PolicyInput) : worstCaseLoss exact i = .ok (loss i) := by
  have hr : i.journal.foldlM (addEntry exact i.market.nameSpace) ([], (0 : ℤ)) = .ok (cast (after i i.journal)) :=
    exact_foldlM i.market.nameSpace ([], 0) i.journal
  have hp := exact_mapM (fun state => (exact_sum (paying (finalPositions i) state)).trans
    (congrArg _ (sum_paying _ state))) (List.range (2 ^ i.market.eventCount))
  rw [worstCaseLoss, hr, ok_bind]
  simp only [exact_addPosition, ok_bind]
  change ((List.range (2 ^ i.market.eventCount)).mapM fun state => exact.sum (paying (finalPositions i) state)) >>=
    (fun payouts => .ok (((after i i.journal).2 : ℤ) + (i.candidate.limitAtoms : ℤ) - lowest payouts)) = .ok (loss i)
  rw [hp, ok_bind, loss, Nat.cast_add]

theorem exact_spending (journal : List PolicyEntry) (limit : ℕ) :
    spending exact journal limit = .ok (spent journal limit) := by
  rw [spending, exact_sum, ok_bind, amounts, ← Nat.cast_list_sum, spent, Nat.cast_add]
  rfl

theorem exact_totals (i : PolicyInput) (h : ℤ) : totals exact i h = .ok (exactTotals i h) := by
  have hw := exact_mapM (fun w : SpendWindow => exact_spending
    (i.journal.filter (·.plannedAt ≥ i.now - w.seconds)) i.candidate.limitAtoms) i.policy.windows
  rw [totals]
  simp only [hw, exact_sum, ok_bind]
  rw [exact_spending, exact_worstCaseLoss, exactTotals, ← Nat.cast_list_sum]
  rfl

theorem exact_evaluatePolicy (i : PolicyInput) : evaluatePolicy exact i = .ok (exactViolations i) := by
  have ht : totalsOf exact i (held i) =
      .ok (if i.candidate.action = .buy then exactTotals i (held i) else ⟨0, [], 0, 0⟩) := by
    rw [totalsOf]
    split
    case isTrue  => exact exact_totals i _
    case isFalse => rfl
  rw [evaluatePolicy]
  simp only [exact_sum, ok_bind]
  change totalsOf exact i (held i) >>= _ = _
  rw [ht]
  rfl

theorem loss_lift (i : Sdk.PolicyInput) : loss (lift i) = Sdk.worstCaseLoss i := by
  rw [loss, lowest, List.foldl_map]
  rfl

theorem held_lift (i : Sdk.PolicyInput) :
    held (lift i) = (((i.holdings.filter (·.1 = i.candidate.claim)).map (·.2)).sum : ℕ) := by
  have hf : ((i.holdings.map fun (c, n) => (c, (n : ℤ))).filter (·.1 = i.candidate.claim)).map (·.2) =
      ((i.holdings.filter (·.1 = i.candidate.claim)).map (·.2)).map fun (n : ℕ) => (n : ℤ) := by
    rw [List.filter_map, List.map_map, List.map_map]
    rfl
  exact (congrArg List.sum hf).trans (Nat.cast_list_sum _).symm

theorem any_windows (windows : List SpendWindow) (spent : SpendWindow → ℕ) :
    (((windows.map fun w => (spent w : ℤ)).zip windows).any fun p => decide (p.1 > (p.2.atoms : ℤ))) =
      windows.any fun w => spent w > w.atoms := by
  induction windows
  case nil               => rfl
  case cons w windows hi =>
    rw [List.map_cons, List.zip_cons_cons, List.any_cons, List.any_cons, hi]
    congr 1
    exact decide_eq_decide.mpr Nat.cast_lt

-- The policy of the reference, on the amounts that it has.
theorem exactViolations_lift (i : Sdk.PolicyInput) : exactViolations (lift i) = Sdk.evaluatePolicy i := by
  have hl := loss_lift i
  have hw := any_windows i.policy.windows fun w =>
    totalSpend (i.journal.filter (·.plannedAt ≥ i.now - w.seconds)) + i.candidate.limitAtoms
  have hfee : (i.candidate.gasLimit : ℤ) * (i.candidate.maxFeePerGas : ℤ) > (i.policy.maxFeeWei : ℤ) ↔
      i.candidate.gasLimit * i.candidate.maxFeePerGas > i.policy.maxFeeWei := by
    rw [← Nat.cast_mul]
    exact Nat.cast_lt
  have hrest : (i.nativeBalanceWei : ℤ) - (i.candidate.gasLimit : ℤ) * (i.candidate.maxFeePerGas : ℤ) <
      (i.policy.reserveWei : ℤ) ↔ (i.nativeBalanceWei : ℤ) -
        (i.candidate.gasLimit * i.candidate.maxFeePerGas : ℕ) < (i.policy.reserveWei : ℤ) := by rw [Nat.cast_mul]
  have hposition (h n q m : ℕ) : (h : ℤ) + (n : ℤ) + (q : ℤ) > (m : ℤ) ↔ h + n + q > m := by omega
  rw [exactViolations, violations, Sdk.evaluatePolicy, held_lift]
  refine congrArg (fun checks : List (Violation × Bool) => (checks.filter (·.2)).map (·.1)) ?_
  simp only [List.cons.injEq, Prod.mk.injEq, true_and, and_true, decide_eq_decide]
  by_cases hb : i.candidate.action = .buy
  case pos =>
    rw [if_pos (show (lift i).candidate.action = .buy from hb)]
    refine ⟨Iff.rfl, Iff.rfl, Iff.rfl, Iff.rfl, Iff.rfl, Iff.rfl, and_congr_right' Nat.cast_lt, Iff.rfl, Iff.rfl, Iff.rfl,
      Iff.rfl, and_congr_right' Nat.cast_lt, and_congr_right' (Bool.eq_iff_iff.mp hw), and_congr_right' (hposition _ _ _ _),
      and_congr_right' ?_, hfee, hrest, Iff.rfl⟩
    exact (congrArg (· > (i.policy.maxWorstCaseLossAtoms : ℤ)) hl).to_iff
  case neg =>
    have hn {p q : Prop} : (lift i).candidate.action = .buy ∧ p ↔ i.candidate.action = .buy ∧ q :=
      iff_of_false (fun h => hb h.1) fun h => hb h.1
    exact ⟨Iff.rfl, Iff.rfl, Iff.rfl, Iff.rfl, Iff.rfl, Iff.rfl, and_congr_right' Nat.cast_lt, Iff.rfl, Iff.rfl, Iff.rfl,
      Iff.rfl, hn, hn, hn, hn, hfee, hrest, Iff.rfl⟩

end Reference

section Checks

variable {checks checks' : List (Violation × Bool)} {i : PolicyInput} {h h' fee fee' rest rest' : ℤ} {t t' : Totals}

-- What is found tells how each check went.
theorem found_inj (hk : checks.map (·.1) = checks'.map (·.1)) (hd : (checks.map (·.1)).Nodup) :
    (checks.filter (·.2)).map (·.1) = (checks'.filter (·.2)).map (·.1) ↔ checks = checks' := by
  refine ⟨fun h => ?_, fun h => h ▸ rfl⟩
  induction checks generalizing checks'
  case nil             => exact (List.map_eq_nil_iff.mp hk.symm).symm
  case cons c checks hi =>
    cases checks'
    case nil              => cases hk
    case cons c' checks' =>
      obtain ⟨k, b⟩ := c
      obtain ⟨k', b'⟩ := c'
      obtain ⟨rfl, hks⟩ := List.cons.inj hk
      obtain ⟨hn, hds⟩ := List.nodup_cons.mp hd
      have hnot (l : List (Violation × Bool)) (hl : l.map (·.1) = checks.map (·.1)) :
          k ∉ (l.filter (·.2)).map (·.1) := fun hm => by
        obtain ⟨x, hx, hxk⟩ := List.mem_map.mp hm
        exact hn (hl ▸ List.mem_map.mpr ⟨x, (List.mem_filter.mp hx).1, hxk⟩)
      cases b <;> cases b'
      case true.true =>
        rw [List.filter_cons_of_pos rfl, List.filter_cons_of_pos rfl, List.map_cons, List.map_cons, List.cons.injEq] at h
        rw [hi hks hds h.2]
      case false.false =>
        rw [List.filter_cons_of_neg (by simp), List.filter_cons_of_neg (by simp)] at h
        rw [hi hks hds h]
      case true.false =>
        rw [List.filter_cons_of_pos rfl, List.filter_cons_of_neg (by simp), List.map_cons] at h
        exact absurd (h ▸ List.mem_cons_self) (hnot checks' hks.symm)
      case false.true =>
        rw [List.filter_cons_of_neg (by simp), List.filter_cons_of_pos rfl, List.map_cons] at h
        exact absurd (h ▸ List.mem_cons_self) (hnot checks rfl)

-- Two runs of the checks of a policy on one input find the same if no amount is on another side of its bound.
theorem violations_eq_iff (ht : t.total = t'.total) (hw : t.windows = t'.windows) (hl : t.loss = t'.loss) :
    violations i h t fee rest = violations i h' t' fee' rest' ↔
      (i.candidate.action ≠ .buy → (h < i.candidate.quantityAtoms ↔ h' < i.candidate.quantityAtoms)) ∧
      (i.candidate.action = .buy → (t.position > i.policy.maxPositionAtoms ↔ t'.position > i.policy.maxPositionAtoms)) ∧
      (fee > i.policy.maxFeeWei ↔ fee' > i.policy.maxFeeWei) ∧
      (rest < i.policy.reserveWei ↔ rest' < i.policy.reserveWei) := by
  rw [violations, violations, ht, hw, hl]
  refine (found_inj ?_ ?_).trans ?_
  · rfl
  · simp only [List.map_cons, List.map_nil]
    decide
  simp only [List.cons.injEq, Prod.mk.injEq, true_and, and_true, decide_eq_decide]
  exact and_congr and_congr_right_iff (and_congr and_congr_right_iff Iff.rfl)

-- The holdings are only a part of the position.
theorem violations_exact_iff :
    violations i h (if i.candidate.action = .buy then exactTotals i h else ⟨0, [], 0, 0⟩) fee rest =
      violations i h' (if i.candidate.action = .buy then exactTotals i h' else ⟨0, [], 0, 0⟩) fee' rest' ↔
      (i.candidate.action ≠ .buy → (h < i.candidate.quantityAtoms ↔ h' < i.candidate.quantityAtoms)) ∧
      (i.candidate.action = .buy → ((exactTotals i h).position > i.policy.maxPositionAtoms ↔
        (exactTotals i h').position > i.policy.maxPositionAtoms)) ∧
      (fee > i.policy.maxFeeWei ↔ fee' > i.policy.maxFeeWei) ∧
      (rest < i.policy.reserveWei ↔ rest' < i.policy.reserveWei) := by
  rw [violations_eq_iff (by split <;> rfl) (by split <;> rfl) (by split <;> rfl)]
  by_cases hb : i.candidate.action = .buy
  case pos => rw [if_pos hb, if_pos hb]
  case neg => simp only [hb, forall_prop_of_false, not_false_eq_true]

variable {o : Options} {p : Plan} {j : Journal} {amount : ℕ}

theorem approvalViolations_eq_iff :
    approvalViolations o p j amount fee rest = approvalViolations o p j amount fee' rest' ↔
      (fee > o.policy.maxFeeWei ↔ fee' > o.policy.maxFeeWei) ∧
      (rest < o.policy.reserveWei ↔ rest' < o.policy.reserveWei) := by
  rw [approvalViolations, approvalViolations]
  refine (found_inj ?_ ?_).trans ?_
  · rfl
  · simp only [List.map_cons, List.map_nil]
    decide
  simp only [List.cons.injEq, Prod.mk.injEq, true_and, and_true, decide_eq_decide]

theorem approvalViolations_reference (view : PlanView) (gas : ℕ) :
    Sdk.approvalViolations o p view gas j amount = approvalViolations o p j amount
      (gas * view.fees.maxFeePerGas : ℕ) ((view.native : ℤ) - (gas * view.fees.maxFeePerGas : ℕ)) := by
  rw [Sdk.approvalViolations, approvalViolations]
  refine congrArg (fun checks : List (Violation × Bool) => (checks.filter (·.2)).map (·.1)) ?_
  simp only [List.cons.injEq, Prod.mk.injEq, true_and, and_true, decide_eq_decide]
  exact Nat.cast_lt.symm

end Checks

end Native

end Sdk
