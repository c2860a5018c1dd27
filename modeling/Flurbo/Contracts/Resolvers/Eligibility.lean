import Flurbo.Contracts.Resolvers.Windows

-- Who can dispute at the resolver of accounts: holders of a claim that depends on the event, with a
-- permit of the authority that is used once.

open Evm Except

namespace Claim

-- The claim can pay differently if only the event has another outcome.
def DependsOn (events : ℕ) (c : Claim) (i : ℕ) : Prop :=
  ∃ state < 2 ^ events, c.pays state ≠ c.pays (state ^^^ 2 ^ i)

end Claim

namespace AccountPilotResolver

open Resolvers

section Dependence

variable {n i scope mask : ℕ}

-- The loop counts the events of the scope, and finds the place of the event among them.
theorem localBitOf_eq : localBitOf n i scope = (((List.range n).filter (scope.testBit ·)).length,
    if i < n ∧ scope.testBit i then 2 ^ ((List.range i).filter (scope.testBit ·)).length else 0) := by
  unfold localBitOf
  induction n
  case zero      => simp
  case succ n hi =>
    rw [List.range_succ, List.foldl_append, hi, List.filter_append, List.length_append]
    simp only [List.foldl_cons, List.foldl_nil, Nat.one_shiftLeft, Bits.and_two_pow_ne_zero]
    by_cases hn : scope.testBit n
    case pos =>
      by_cases he : n = i
      case pos => subst he; simp [hn]
      case neg =>
        have hlt : i < n + 1 ↔ i < n := by omega
        simp [hn, he, hlt]
    case neg =>
      by_cases he : n = i
      case pos => subst he; simp [hn]
      case neg =>
        have hlt : i < n + 1 ↔ i < n := by omega
        simp [hn, hlt]

theorem place (hs : scope < 2 ^ n) (hi : i < n) (hb : scope.testBit i) :
    scope.bitIndices[((List.range i).filter (scope.testBit ·)).length]? = some i := by
  rw [Bits.bitIndices_eq_filter hs]
  obtain ⟨k, rfl⟩ := Nat.exists_eq_add_of_lt hi
  have hr : List.range (i + k + 1) = List.range i ++ i :: List.range' (i + 1) k := by
    rw [List.range_eq_range', show i + k + 1 = i + (k + 1) by omega, ← List.range'_append_1,
      List.range'_succ, List.range_eq_range', Nat.zero_add]
  rw [hr, List.filter_append, List.filter_cons_of_pos (by simpa using hb)]
  rw [List.getElem?_append_right le_rfl, Nat.sub_self]
  rfl

-- The loop over the local states decides the dependence.
theorem isDependent_iff (mask : ℕ) (hn : n ≤ 32) (hs : scope < 2 ^ n) (hi : i < n) (hb : scope.testBit i) :
    isDependent (localBitOf n i scope).1 (localBitOf n i scope).2 mask = true ↔
      Claim.DependsOn n ⟨scope, mask⟩ i := by
  have hs32 : scope < 2 ^ 32 := hs.trans_le (Nat.pow_le_pow_right (by decide) hn)
  have hplace := place hs hi hb
  rw [localBitOf_eq, if_pos ⟨hi, hb⟩, ← Bits.bitIndices_eq_filter hs]
  set k := ((List.range i).filter (scope.testBit ·)).length
  have hbit (x j : ℕ) : (x >>> j) &&& 1 = (x.testBit j).toNat := by
    rw [Nat.testBit, Nat.and_comm]
    rcases Nat.mod_two_eq_zero_or_one (x >>> j) with h | h <;>
      simp [Nat.one_and_eq_mod_two, h]
  have hflip (x : ℕ) : FactoredCost.project scope (x ^^^ 2 ^ i) =
      FactoredCost.project scope x ^^^ 2 ^ k := by
    rw [FactoredCost.project_eq hs32, FactoredCost.project_eq hs32]
    exact Bits.gather_flip Nat.bitIndices_nodup hplace
  have hne (a b : Bool) : a.toNat ≠ b.toNat ↔ a ≠ b := by cases a <;> cases b <;> decide
  simp only [isDependent, List.any_eq_true, List.mem_range, Nat.one_shiftLeft, hbit, decide_eq_true_eq,
    hne, Claim.DependsOn, Claim.pays]
  constructor
  · rintro ⟨loc, hl, h⟩
    have hx : FactoredCost.project scope (Bits.scatter scope.bitIndices loc) = loc := by
      rw [FactoredCost.project_eq hs32]
      exact Bits.gather_scatter Nat.bitIndices_nodup hl
    have hmod : ∀ j, scope.testBit j →
        (Bits.scatter scope.bitIndices loc % 2 ^ n).testBit j = (Bits.scatter scope.bitIndices loc).testBit j := by
      intro j hj
      rw [Nat.testBit_mod_two_pow]
      have : j < n := by
        by_contra hle
        rw [Bits.testBit_eq_false hs (not_lt.mp hle)] at hj
        cases hj
      simp [this]
    refine ⟨Bits.scatter scope.bitIndices loc % 2 ^ n, Nat.mod_lt _ (Nat.two_pow_pos n), ?_⟩
    rwa [hflip, FactoredCost.project_congr hs32 hmod, hx]
  · rintro ⟨state, _, h⟩
    refine ⟨FactoredCost.project scope state, ?_, by rwa [hflip] at h⟩
    rw [FactoredCost.project_eq hs32]
    exact Bits.gather_lt

end Dependence

section Shares

variable {D : Dependencies} {ε : Type} {site : Site} {w : World D ε} {holder : Address}
  {eventIndex scope mask : ℕ} {wrapped : Bool}

-- A holder, other than the contracts themselves, of a claim that depends on the event: of the position
-- itself, or of its receipts.
structure Qualifies (site : Site) (w : World D ε) (holder : Address) (eventIndex scope mask : ℕ)
    (wrapped : Bool) : Prop where
  account  : holder ≠ 0 ∧ holder ≠ site.pool.self ∧ holder ≠ site.resolver.self
  escrow   : holder ≠ tokenAddress w (1 <<< eventIndex) 2 ∧ holder ≠ tokenAddress w (1 <<< eventIndex) 1
  scope_lt : scope < 2 ^ site.resolver.eventCount
  event_lt : eventIndex < site.resolver.eventCount
  valid    : Claim.Valid ⟨scope, mask⟩
  depends  : Claim.DependsOn site.resolver.eventCount ⟨scope, mask⟩ eventIndex
  holds    : (wrapped = false ∧ 0 < w.pool.positions holder ⟨scope, mask⟩) ∨
               (wrapped = true ∧ scope = 2 ^ eventIndex ∧ ∃ token, w.pool.baseTokens ⟨scope, mask⟩ =
                 some token ∧ token.address ≠ 0 ∧ 0 < D.receipt.balanceOf token.state holder)

-- A claim on other events does not depend on this one.
theorem testBit_of_depends {n i : ℕ} (hn : n ≤ 32) (hs : scope < 2 ^ n)
    (h : Claim.DependsOn n ⟨scope, mask⟩ i) : scope.testBit i = true := by
  obtain ⟨state, _, hne⟩ := h
  by_contra hb
  refine hne (congrArg mask.testBit (FactoredCost.project_congr
    (hs.trans_le (Nat.pow_le_pow_right (by decide) hn)) fun j hj => ?_))
  have : i ≠ j := fun he => hb (he ▸ hj)
  simp [Nat.testBit_xor, this]

theorem mask_le_two {i : ℕ} (hn : i < 32) (hv : Claim.Valid ⟨2 ^ i, mask⟩) : mask = 1 ∨ mask = 2 := by
  have hlt := hv.mask_lt
  have hpos := hv.mask_pos
  have hp : FactoredCost.popcount (2 ^ i) = 1 := by
    rw [FactoredCost.popcount_eq (Nat.pow_lt_pow_right (by decide) (by omega))]
    simp
  simp only [hp] at hlt hpos
  omega

-- The checks of the contract say exactly that.
theorem hasQualifyingShares_iff (ha : site.resolver.Accepted) :
    hasQualifyingShares site w holder eventIndex scope mask wrapped = .ok true ↔
      w.resolver.pool ≠ none ∧ Qualifies site w holder eventIndex scope mask wrapped := by
  have hn : site.resolver.eventCount ≤ 32 := ha.events_le.trans (by decide)
  have hreceipt : holdsReceipt w holder scope mask = true ↔ ∃ token, w.pool.baseTokens ⟨scope, mask⟩ =
      some token ∧ token.address ≠ 0 ∧ 0 < D.receipt.balanceOf token.state holder := by
    unfold holdsReceipt
    cases w.pool.baseTokens ⟨scope, mask⟩ <;> simp
  have hshift : scope >>> site.resolver.eventCount ≠ 0 ↔ ¬ scope < 2 ^ site.resolver.eventCount := by
    rw [Nat.shiftRight_eq_div_pow, ne_eq, Nat.div_eq_zero_iff_lt (Nat.two_pow_pos _)]
  have hand : scope &&& 1 <<< eventIndex = 0 ↔ ¬ scope.testBit eventIndex = true := by
    rw [Nat.one_shiftLeft, ← Bits.and_two_pow_ne_zero, not_not]
  unfold hasQualifyingShares
  simp only [hshift, hand]
  split
  case isTrue hc =>
    simp only [pure_eq_ok, ok.injEq, Bool.false_eq_true, false_iff, not_and]
    intro hb hq
    rcases hc with hc | hc | hc | hc | hc | hc | hc
    · exact hb hc
    · exact hq.account.left hc
    · exact hq.account.right.left hc
    · exact hq.account.right.right hc
    · exact absurd hq.event_lt (not_lt.mpr hc)
    · exact hc hq.scope_lt
    · exact hc (testBit_of_depends hn hq.scope_lt hq.depends)
  case isFalse hc =>
    simp only [not_or, not_not, not_le] at hc
    obtain ⟨hb, h₀, hpool, hself, hi, hs, hbit⟩ := hc
    have hdep := isDependent_iff mask hn hs hi hbit
    simp only [bind_eq_ok, FactoredPositions.key_eq_ok]
    constructor
    case mp =>
      rintro ⟨_, ⟨hv, rfl⟩, h⟩
      split at h
      case isTrue => cases h
      case isFalse hd =>
        rw [not_not] at hd
        split at h
        case isTrue => cases h
        case isFalse ht =>
          rw [not_or] at ht
          refine ⟨hb, ⟨h₀, hpool, hself⟩, ht, hs, hi, hv, hdep.mp hd, ?_⟩
          cases wrapped
          case true =>
            rw [if_pos rfl] at h
            split at h
            case isTrue => cases h
            case isFalse hw =>
              rw [not_or, not_not] at hw
              exact .inr ⟨rfl, by rw [hw.left, Nat.one_shiftLeft], hreceipt.mp (by simpa using h)⟩
          case false =>
            rw [if_neg (by decide)] at h
            simp only [bind_eq_ok, FactoredPositions.balance, FactoredPositions.key_eq_ok, pure_eq_ok,
              ok.injEq, decide_eq_true_eq] at h
            obtain ⟨_, ⟨_, ⟨_, rfl⟩, rfl⟩, h⟩ := h
            exact .inl ⟨rfl, h⟩
    case mpr =>
      rintro ⟨_, hq⟩
      refine ⟨_, ⟨hq.valid, rfl⟩, ?_⟩
      rw [if_neg (not_not.mpr (hdep.mpr hq.depends)), if_neg (not_or.mpr hq.escrow)]
      rcases hq.holds with ⟨rfl, hpos⟩ | ⟨rfl, rfl, hr⟩
      · rw [if_neg (by decide)]
        simp only [bind_eq_ok, FactoredPositions.balance, FactoredPositions.key_eq_ok, pure_eq_ok, ok.injEq,
          decide_eq_true_eq]
        exact ⟨_, ⟨_, ⟨hq.valid, rfl⟩, rfl⟩, hpos⟩
      · have hm := mask_le_two (by omega) hq.valid
        rw [if_pos rfl, if_neg (by simp only [Nat.one_shiftLeft]; omega)]
        exact congrArg _ (hreceipt.mpr hr)

end Shares

section Permits

variable {D : Dependencies} {site : Site} {crypto : Cryptography} {authority : Address}

abbrev Permit := Eligibility × List UInt8

theorem outcomeCode_injective : Function.Injective outcomeCode := by
  intro a b h
  cases a <;> cases b <;> first | rfl | cases h

theorem abiEncode_inj {ws vs : List ℕ} (hl : ws.length = vs.length) (hw : Words.Fits (2 ^ 256) ws)
    (hv : Words.Fits (2 ^ 256) vs) (h : abiEncode ws = abiEncode vs) : ws = vs := by
  have hbytes (l : List ℕ) : (abiEncode l).map UInt8.toNat = l.flatMap (Words.fixed 256 32) := by
    rw [abiEncode, List.map_map]
    refine (List.map_congr_left fun n hn => ?_).trans (List.map_id _)
    obtain ⟨w, _, hn⟩ := List.mem_flatMap.mp hn
    have hlt : n < 256 := Words.fits_fixed (by decide) n hn
    rw [Function.comp_apply, UInt8.toNat_ofNat', Nat.mod_eq_of_lt hlt, id]
  have hword : 2 ^ 256 = 256 ^ 32 := by norm_num
  rw [hword] at hw hv
  refine Words.flatMap_fixed_inj hl hw hv ?_
  rw [← hbytes, ← hbytes, h]

-- With a hash function that has no collisions, the signature of a digest covers all arguments of the dispute.
theorem eligibilityDigest_inj {d d' : Challenge} {e e' : Eligibility} (hk : Function.Injective crypto.keccak256)
    (hh : Function.Injective crypto.hashTypedDataV4) (hf : Words.Fits (2 ^ 256) (crypto.eligibilityWords d e))
    (hf' : Words.Fits (2 ^ 256) (crypto.eligibilityWords d' e'))
    (h : crypto.eligibilityDigest d e = crypto.eligibilityDigest d' e') : d = d' ∧ e = e' := by
  have hl : (crypto.eligibilityWords d e).length = (crypto.eligibilityWords d' e').length := rfl
  have hwords := abiEncode_inj hl hf hf' (hk (hh h))
  obtain ⟨eventIndex, alternative, evidenceHash, evidenceURI⟩ := d
  obtain ⟨accountCommitment, challenger, holder, scope, mask, wrapped, nonce, deadline⟩ := e
  simp only [Cryptography.eligibilityWords, List.cons.injEq, Fin.val_inj, and_true, true_and] at hwords
  obtain ⟨rfl, rfl, rfl, rfl, rfl, hwrapped, rfl, rfl, rfl, halternative, rfl, huri⟩ := hwords
  have hflag : wrapped = e'.wrapped := by
    generalize e'.wrapped = wrapped' at hwrapped ⊢
    cases wrapped <;> cases wrapped' <;> first | rfl | cases hwrapped
  rw [hflag, outcomeCode_injective halternative, hk huri]
  exact ⟨rfl, rfl⟩

-- A permit for a dispute, in the state that the dispute found: the authority signed it for the caller
-- and for these arguments, it has just been issued, and its holder qualifies.
structure Permitted (crypto : Cryptography) (authority : Address) (site : Site)
    (w : World D UsedEligibility) (tx : Tx site) (d : Challenge) (permit : Permit) : Prop where
  challenger : permit.1.challenger = tx.sender
  commitment : permit.1.accountCommitment ≠ 0
  signed     : crypto.recover (crypto.eligibilityDigest d permit.1) permit.2 = .ok authority
  deadline   : tx.timestamp < permit.1.deadline ∧ permit.1.deadline ≤ tx.timestamp + 120
  window     : ∃ c, w.resolver.cases[d.eventIndex]? = some c ∧ permit.1.deadline ≤ c.challengeUntil
  qualifies  : Qualifies site w permit.1.holder d.eventIndex permit.1.scope permit.1.mask permit.1.wrapped
  unused     : w.resolver.ext permit.1.nonce = false

theorem check_permitted {w : World D UsedEligibility} {tx : Tx site} {d : Challenge} {c : Case}
    {permit : Permit} {ext : UsedEligibility} (ha : site.resolver.Accepted)
    (hc : w.resolver.cases[d.eventIndex]? = some c)
    (h : check crypto authority site tx w d c permit = .ok ext) :
    Permitted crypto authority site w tx d permit ∧
      ext = Function.update w.resolver.ext permit.1.nonce true := by
  simp only [check, bind_eq_ok, revertIf_eq_ok, checkedAdd_eq_ok, pure_eq_ok, ok.injEq, not_or, not_not,
    not_lt, not_le, Bool.not_eq_true] at h
  obtain ⟨_, ⟨h₁, h₂, h₃⟩, _, ⟨_, rfl⟩, _, ⟨h₄, h₅, h₆⟩, signer, hs, _, rfl, qualifies, hq, _, ht, rfl⟩ := h
  cases Bool.eq_true_of_not_eq_false ht
  exact ⟨⟨h₁, h₂, hs, ⟨h₃, h₄⟩, ⟨c, hc, h₅⟩, ((hasQualifyingShares_iff ha).mp hq).right, h₆⟩, rfl⟩

-- The nonces of the permits that disputes have used, in order.
def nonceOf (e : Entry D UsedEligibility Permit site) : Option ℕ :=
  match e.2.1 with
  | .call _ (.dispute _ permit) => some permit.1.nonce
  | _                           => none

-- Every dispute was permitted, and no permit was used twice.
structure PermitsUsed (crypto : Cryptography) (authority : Address) (site : Site)
    (w : World D UsedEligibility) (es : List (Entry D UsedEligibility Permit site)) : Prop where
  permitted : ∀ e ∈ es, ∀ tx d permit, e.2.1 = .call tx (.dispute d permit) →
                Permitted crypto authority site (e.1.at tx.timestamp) tx d permit
  nodup     : (es.filterMap nonceOf).Nodup
  used      : ∀ nonce, w.resolver.ext nonce = true ↔ nonce ∈ es.filterMap nonceOf

theorem PermitsUsed.step {w w' : World D UsedEligibility} {a : Action D site Permit}
    {es : List (Entry D UsedEligibility Permit site)} (ha : site.resolver.Accepted)
    (h : PermitsUsed crypto authority site w es)
    (hs : Stepped (variant crypto authority) site w a w') :
    PermitsUsed crypto authority site w' (es ++ [(w, a, w')]) := by
  have hsame (hn : nonceOf (w, a, w') = none) (he : w'.resolver.ext = w.resolver.ext) :
      PermitsUsed crypto authority site w' (es ++ [(w, a, w')]) := by
    have hf : (es ++ [(w, a, w')]).filterMap nonceOf = es.filterMap nonceOf := by
      rw [List.filterMap_append, List.filterMap_cons_none hn, List.filterMap_nil, List.append_nil]
    refine ⟨fun e hm tx d permit hd => ?_, hf ▸ h.nodup, fun nonce => by rw [he, hf]; exact h.used nonce⟩
    rcases List.mem_append.mp hm with hm | hm
    · exact h.permitted e hm tx d permit hd
    · cases List.mem_singleton.mp hm
      simp only at hd
      simp [nonceOf, hd] at hn
  cases hs
  case disputed tx d permit c token ext hd hx ht =>
    obtain ⟨hp, rfl⟩ := check_permitted (w := w.at tx.timestamp) ha hd.case_eq hx
    have hfresh : permit.1.nonce ∉ es.filterMap nonceOf := by
      intro hm
      have := (h.used _).mpr hm
      rw [show w.resolver.ext permit.1.nonce = false from hp.unused] at this
      cases this
    have hf {w' : World D UsedEligibility} : (es ++ [((w, .call tx (.dispute d permit), w') :
        Entry D UsedEligibility Permit site)]).filterMap nonceOf =
          es.filterMap nonceOf ++ [permit.1.nonce] := by
      rw [List.filterMap_append]
      rfl
    refine ⟨fun e hm tx' d' permit' he => ?_, ?_, fun nonce => ?_⟩
    · rcases List.mem_append.mp hm with hm | hm
      · exact h.permitted e hm tx' d' permit' he
      · cases List.mem_singleton.mp hm
        cases he
        exact hp
    · rw [hf]
      refine List.nodup_append.mpr ⟨h.nodup, by simp, fun b hb b' hb' => ?_⟩
      rintro rfl
      exact hfresh (List.mem_singleton.mp hb' ▸ hb)
    · rw [hf, List.mem_append, List.mem_singleton, ← h.used]
      by_cases hn : nonce = permit.1.nonce
      case pos => simp [hn, Storage.lock]
      case neg => simp [hn, Storage.lock, World.at]
  case decided hf   => exact hsame rfl (by rw [hf.eq]; rfl)
  case finalized hf => exact hsame rfl (by rw [hf.eq])
  all_goals exact hsame rfl rfl

-- In every run of the account resolver each dispute has a permit of its own, whose holder had a claim
-- on the event at that time.
theorem disputes_permitted (hT : D.collateral.Confined) {chain : Chain} {self sender : Address}
    {rulesHash : ℕ} {config : Config}
    (h : construct chain self sender rulesHash config authority = .ok site.resolver)
    (token : D.collateral.State) (actions : List (Action D site Permit)) :
    let s := step (variant crypto authority) site
    let w := World.initial site token fun _ => false
    PermitsUsed crypto authority site (Run.run s w actions) (Run.history s w actions) := by
  have hd : Deployed D (variant crypto authority) site.resolver _ := .account h
  intro s w
  refine Run.history_invariant (J := PermitsUsed crypto authority site) ?_ fun w es w' a _ h hs =>
    h.step hd.accepted (step_eq_ok hT hd.accepted.bond_pos hs).left
  exact ⟨fun _ hm => (by cases hm), List.nodup_nil, fun nonce => ⟨fun h => (by cases h), fun h => (by cases h)⟩⟩

namespace Testnet

-- A signature that recovers to the authority.
def signing : Cryptography := ⟨fun bytes => bytes.foldl (fun n b => 256 * n + b.toNat) 1, id, fun _ _ => .ok 21⟩

def permit : Permit := (⟨1, 8, 7, 1, 2, false, 77, 400⟩, [])

-- The dispute follows the purchase of a claim on the event.
def actions : List (Action Dependencies.testnet Testnet.site Permit) :=
  [.call (Testnet.creator 10) (.bindPool 1), .pool (Testnet.trader 20) (.action .fund),
    .pool (Testnet.trader 30) (.action (.buy 1 2 (10 ^ 15) (10 ^ 15) 50)),
    .call (Testnet.trader 200) (.assertOutcome 0 .yes 1 https),
    .call (Testnet.disputer 300) (.dispute ⟨0, .no, 1, https⟩ permit)]

end Testnet

theorem disputes_permitted_testnet :
    let s := step (variant Testnet.signing 21) Resolvers.Testnet.site
    let w := World.initial Resolvers.Testnet.site Resolvers.Testnet.funds fun _ => false
    (Run.history s w Testnet.actions).filterMap nonceOf = [77] ∧
      PermitsUsed Testnet.signing 21 Resolvers.Testnet.site (Run.run s w Testnet.actions)
        (Run.history s w Testnet.actions) := by
  have hT : Dependencies.testnet.collateral.Confined := Token.standard_confined 18
  have h : construct Resolvers.Testnet.chain 9 3 5 Resolvers.Testnet.config 21 =
      .ok Resolvers.Testnet.site.resolver := by
    with_unfolding_all rfl
  exact ⟨by decide +kernel, disputes_permitted hT h Resolvers.Testnet.funds Testnet.actions⟩

end Permits

end AccountPilotResolver
