import Flurbo.Sdk.AbiExact
import Flurbo.Sdk.SigningRequest

-- What the validators accept: the canonical transaction of an intent, up to the case of letters.

open Except

namespace Sdk

section Checks

variable {c : Prop} [Decidable c] {message : String} {u : Unit} {n : ℕ} {v w : U256}

@[simp]
theorem refuseWhen_eq_ok : refuseWhen c message = .ok u ↔ ¬ c := by
  rw [refuseWhen]
  split <;> simp [*]

-- A pool address in lower case.
def IsPool (s : List Char) : Prop := s.length = 42 ∧ ['0', 'x'].isPrefixOf s ∧ LowerHex (s.drop 2)

theorem isPool_iff {s : List Char} : Ts.isPool s ↔ IsPool s := by
  rw [Ts.isPool, Bool.and_eq_true, Bool.and_eq_true, List.all_eq_true, decide_eq_true_eq, List.length_drop, IsPool,
    LowerHex]
  refine ⟨fun h => ⟨by omega, h.left.left, h.right⟩, fun h => ⟨⟨h.right.left, by omega⟩, h.right.right⟩⟩

theorem IsPool.hexed {s : List Char} (h : IsPool s) : Hexed s := ⟨h.right.left, h.right.right.allHex⟩

theorem IsPool.value_lt {s : List Char} (h : IsPool s) : hexValue (s.drop 2) < 2 ^ 160 := by
  have := hexValue_lt (s.drop 2)
  rw [List.length_drop, h.left] at this
  exact this

theorem IsPool.addressFromWord {s : List Char} (h : IsPool s) : Ts.addressFromWord (hexValue (s.drop 2)) = s := by
  rw [addressFromWord_eq h.value_lt, ← eq_hexText h.right.right (by rw [List.length_drop, h.left]) rfl]
  exact (eq_marked h.hexed).symm

theorem addressFromWord_eq_iff {s : List Char} (h : IsPool s) (hn : n < 2 ^ 160) :
    Ts.addressFromWord n = s ↔ n = hexValue (s.drop 2) := by
  refine ⟨fun he => ?_, fun he => by rw [he, h.addressFromWord]⟩
  have hdrop : (['0', 'x'] ++ hexText 40 n).drop 2 = hexText 40 n := List.drop_left' rfl
  rw [← he, addressFromWord_eq hn, hdrop, hexValue_hexText (by rwa [show 16 ^ 40 = 2 ^ 160 by decide])]

theorem IsPool.lower_eq {s : List Char} (h : IsPool s) : Cpp.lower s = s := by
  rw [eq_marked h.hexed, cpp_lower_append, h.right.right.lower_eq]
  rfl

-- The two lower cases agree on what is an address.
theorem LowerCase.eq_pool_iff {lower : List Char → List Char} (hl : LowerCase lower) {s t : List Char} (h : IsPool t) :
    lower s = t ↔ Cpp.lower s = t := by
  refine ⟨fun he => ?_, fun he => ?_⟩
  · rw [← hl.eq_cpp (he ▸ h.hexed), he]
  · rw [hl.eq_cpp (hl.hexed_iff.mpr (he ▸ h.hexed)), he]

theorem isPool_collateral : IsPool collateralText := ⟨by decide, by decide, by decide⟩

end Checks

-- A claim and a quantity of an intent, as they stand in the calldata, which the service allows.
structure Within (d : Ts.Deployment) (claim : Ts.ClaimRef) (quantityAtoms : ℤ) (scope mask quantity : ℕ) : Prop where
  scope_eq    : claim.scope = some (scope : ℚ)
  mask_eq     : claim.mask = mask
  quantity_eq : quantityAtoms = quantity
  valid       : ∃ events : ℕ, d.eventCount = events ∧ validateClaim ⟨scope, mask⟩ events
  pos         : 1 ≤ quantity
  le          : quantity ≤ serviceMax

-- The limit and the deadline of a trade. A purchase has a limit above zero.
structure Terms (d : Ts.Deployment) (isBuy : Bool) (limitAtoms : ℤ) (deadline : Option ℚ) (limit time : ℕ) : Prop where
  limit_eq : limitAtoms = limit
  le       : limit ≤ serviceMax
  pos      : isBuy → limit ≠ 0
  time_eq  : deadline = some (time : ℚ)
  lt       : (time : ℚ) < d.closesAt

-- The canonical transaction of an intent: its recipient, its method and the numbers of its calldata.
inductive Intended (d : Ts.Deployment) : Ts.Intent → List Char → FunctionName → List ℕ → Prop
  | approve {amountAtoms : ℤ} {amount : ℕ} : amountAtoms = amount → amount ≠ 0 → amount ≤ serviceMax →
    Intended d (.approve amountAtoms) collateralText .approve [hexValue (d.pool.drop 2), amount]
  | redeem {claim : Ts.ClaimRef} {quantityAtoms : ℤ} {scope mask quantity : ℕ} :
    Within d claim quantityAtoms scope mask quantity →
    Intended d (.redeem claim quantityAtoms) d.pool .redeem [scope, mask, quantity]
  | buy {claim : Ts.ClaimRef} {quantityAtoms limitAtoms : ℤ} {deadline : Option ℚ}
      {scope mask quantity limit time : ℕ} :
    Within d claim quantityAtoms scope mask quantity → Terms d true limitAtoms deadline limit time →
    time < 2 ^ 256 →
    Intended d (.buy claim quantityAtoms limitAtoms deadline) d.pool .buy [scope, mask, quantity, limit, time]
  | sell {claim : Ts.ClaimRef} {quantityAtoms limitAtoms : ℤ} {deadline : Option ℚ}
      {scope mask quantity limit time : ℕ} :
    Within d claim quantityAtoms scope mask quantity → Terms d false limitAtoms deadline limit time →
    time < 2 ^ 256 →
    Intended d (.sell claim quantityAtoms limitAtoms deadline) d.pool .sell [scope, mask, quantity, limit, time]

-- What is asked of a transaction apart from its sender.
structure Authorized (lower : List Char → List Char) (tx : Ts.TransactionRequest) (intent : Ts.Intent)
    (d : Ts.Deployment) : Prop where
  chain_eq   : tx.chainId = some 10143
  pool_chain : d.chainId = 10143
  value_eq   : tx.value = 0
  call       : ∃ recipient name ns, Intended d intent recipient name ns ∧ lower tx.recipient = recipient ∧
    Cpp.lower tx.data = callText name ns

section TypeScript

variable {lower : List Char → List Char} {d : Ts.Deployment} {claim : Ts.ClaimRef}
  {quantityAtoms limitAtoms : ℤ} {deadline : Option ℚ} {isBuy : Bool} {ns rest : List ℕ} {scope mask quantity : ℕ}
  {tx : Ts.TransactionRequest} {intent : Ts.Intent} {wallet : List Char} {u : Unit}

theorem assertClaim_eq_ok (hp : IsPool d.pool) : Ts.assertClaim d.pool scope mask d.eventCount = .ok u ↔
    ∃ events : ℕ, d.eventCount = events ∧ validateClaim ⟨scope, mask⟩ events := by
  rw [Ts.assertClaim, if_neg (not_not.mpr (isPool_iff.mpr hp))]
  constructor
  case mp  =>
    intro h
    split_ifs at h with hm he
    have hevents : d.eventCount = d.eventCount.num.toNat := by
      have := he.left
      simp only [List.mem_cons, List.not_mem_nil, or_false] at this
      obtain h | h | h := this <;> rw [h] <;> rfl
    exact ⟨_, hevents, he.right⟩
  case mpr =>
    intro ⟨events, he, hv⟩
    have hv' := hv
    simp only [validateClaim, Bool.and_eq_true, decide_eq_true_eq] at hv'
    have hmask : 0 < mask := hv'.left.left.left.left.left.left.right
    have hmem : events ∈ [2, 3, 4] := hv'.left.left.left.left.left.left.left
    have hcast : d.eventCount ∈ [2, 3, 4] := by
      rw [he]
      simp only [List.mem_cons, List.not_mem_nil, or_false] at hmem ⊢
      obtain rfl | rfl | rfl := hmem
      · exact .inl rfl
      · exact .inr (.inl rfl)
      · exact .inr (.inr rfl)
    have hnum : d.eventCount.num.toNat = events := by rw [he]; rfl
    rw [if_neg hmask.ne', if_neg (by rw [not_not, hnum]; exact ⟨hcast, hv⟩)]

theorem ts_validateClaimCall_eq_ok (hp : IsPool d.pool) : Ts.validateClaimCall d claim quantityAtoms ns = .ok rest ↔
    ∃ scope mask quantity, ns = scope :: mask :: quantity :: rest ∧
      Within d claim quantityAtoms scope mask quantity := by
  match ns with
  | scope :: mask :: quantity :: rest' =>
    simp only [Ts.validateClaimCall, bind_eq_ok, refuseWhen_eq_ok, assertClaim_eq_ok hp, pure_eq_ok, ok.injEq, not_or,
      not_not, not_lt]
    constructor
    case mp  =>
      rintro ⟨_, ⟨hs, hm, hq⟩, _, hv, _, ⟨hpos, hle⟩, hr⟩
      exact ⟨scope, mask, quantity, by rw [hr], hs, hm, hq, hv, hpos, hle⟩
    case mpr =>
      rintro ⟨_, _, _, he, h⟩
      obtain ⟨rfl, rfl, rfl, rfl⟩ := by simpa using he
      exact ⟨(), ⟨h.scope_eq, h.mask_eq, h.quantity_eq⟩, (), h.valid, (), ⟨h.pos, h.le⟩, rfl⟩
  | [] | [_] | [_, _]                 => simp [Ts.validateClaimCall]

theorem bigInt_eq_ok {m : ℤ} : Ts.bigInt deadline = .ok m ↔ deadline = some (m : ℚ) := by
  cases deadline
  case none   => simp [Ts.bigInt]
  case some x =>
    simp only [Ts.bigInt, Option.some_inj]
    split
    case isTrue h  =>
      rw [ok.injEq]
      refine ⟨fun hm => ?_, fun hm => by rw [hm]; rfl⟩
      rw [← Rat.coe_int_num_of_den_eq_one h, hm]
    case isFalse h => exact iff_of_false nofun fun hm => h (by rw [hm]; rfl)

theorem ts_validateTradeTerms_eq_ok : Ts.validateTradeTerms d isBuy limitAtoms deadline ns = .ok u ↔
    ∃ limit time, ns = [limit, time] ∧ Terms d isBuy limitAtoms deadline limit time := by
  match ns with
  | [limit, time]                     =>
    simp only [Ts.validateTradeTerms, bind_eq_ok, refuseWhen_eq_ok, bigInt_eq_ok, not_or, not_not, not_lt, not_and,
      not_le]
    constructor
    case mp  =>
      rintro ⟨_, ⟨hl, hle, hpos⟩, m, hm, ht, hlt⟩
      rw [ht, Int.cast_natCast] at hlt hm
      exact ⟨limit, time, rfl, hl, hle, hpos, hm, hlt⟩
    case mpr =>
      rintro ⟨_, _, he, h⟩
      obtain ⟨rfl, rfl⟩ := by simpa using he
      exact ⟨(), ⟨h.limit_eq, h.le, h.pos⟩, time, h.time_eq, rfl, h.lt⟩
  | [] | [_] | _ :: _ :: _ :: _ => simp [Ts.validateTradeTerms]

theorem inRange_approve (h : InRange .approve ns) : ∃ spender amount, ns = [spender, amount] ∧ spender < 2 ^ 160 := by
  obtain ⟨spender, ns₁, hs, h₁, rfl⟩ := List.forall₂_cons_left_iff.mp h
  obtain ⟨amount, ns₂, _, h₂, rfl⟩ := List.forall₂_cons_left_iff.mp h₁
  exact ⟨spender, amount, by rw [List.forall₂_nil_left_iff.mp h₂], hs⟩

theorem length_inRange {name : FunctionName} (h : InRange name ns) : ns.length = name.signature.length :=
  h.length_eq.symm

theorem Within.bounds {claim : Ts.ClaimRef} (h : Within d claim quantityAtoms scope mask quantity) :
    scope < 2 ^ 32 ∧ mask < 2 ^ 256 ∧ quantity < 2 ^ 128 := by
  obtain ⟨events, _, hv⟩ := h.valid
  simp only [validateClaim, Bool.and_eq_true, decide_eq_true_eq] at hv
  have hle := h.le
  have hscope : scope < 2 ^ 4 := hv.left.left.left.right
  have hmask : mask < 1000 := hv.left.left.left.left.left.right
  rw [serviceMax] at hle
  exact ⟨hscope.trans_le (by decide), hmask.trans_le (by decide), by omega⟩

theorem Terms.limit_lt {limit time : ℕ} (h : Terms d isBuy limitAtoms deadline limit time) : limit < 2 ^ 128 := by
  have := h.le
  rw [serviceMax] at this
  omega

-- The numbers of the canonical calldata are in range.
theorem Intended.inRange {recipient : List Char} {name : FunctionName} (h : Intended d intent recipient name ns)
    (hp : IsPool d.pool) : InRange name ns := by
  cases h
  case approve ha _ hle =>
    rw [serviceMax] at hle
    exact .cons hp.value_lt (.cons (hle.trans_lt (by decide)) .nil)
  case redeem hw        =>
    have ⟨hs, hm, hq⟩ := hw.bounds
    exact .cons hs (.cons hm (.cons hq .nil))
  case buy hw ht hn     =>
    have ⟨hs, hm, hq⟩ := hw.bounds
    exact .cons hs (.cons hm (.cons hq (.cons ht.limit_lt (.cons hn .nil))))
  case sell hw ht hn    =>
    have ⟨hs, hm, hq⟩ := hw.bounds
    exact .cons hs (.cons hm (.cons hq (.cons ht.limit_lt (.cons hn .nil))))

theorem Intended.name_eq {recipient : List Char} {name : FunctionName} (h : Intended d intent recipient name ns) :
    name = intent.action := by
  cases h <;> rfl

theorem Intended.isPool {recipient : List Char} {name : FunctionName} (h : Intended d intent recipient name ns)
    (hp : IsPool d.pool) : IsPool recipient := by
  cases h
  case approve => exact isPool_collateral
  all_goals exact hp

theorem ts_validate_iff (hl : LowerCase lower) (hp : IsPool d.pool) :
    Ts.validateTransaction lower tx intent d wallet = .ok u ↔
      lower tx.sender = lower wallet ∧ Authorized lower tx intent d := by
  simp only [Ts.validateTransaction, bind_eq_ok, refuseWhen_eq_ok, not_or, not_not]
  constructor
  case mp  =>
    rintro ⟨_, ⟨hchain, hd⟩, _, hvalue, _, hsender, ⟨name, ns⟩, hdecode, _, hname, h⟩
    obtain ⟨hr, hdata⟩ := (decodeCall_iff hl).mp hdecode
    refine ⟨hsender, hchain, hd, hvalue, ?_⟩
    cases intent
    case approve amountAtoms =>
      simp only [bind_eq_ok, refuseWhen_eq_ok, not_not] at h
      obtain ⟨_, hrecipient, h⟩ := h
      subst hname
      obtain ⟨spender, amount, rfl, hlt⟩ := inRange_approve hr
      simp only [bind_eq_ok, refuseWhen_eq_ok, not_not, not_or, not_lt] at h
      obtain ⟨_, hspender, ha, hpos, hle⟩ := h
      rw [addressFromWord_eq_iff hp hlt] at hspender
      rw [hspender] at hdata
      exact ⟨_, _, _, .approve ha hpos hle, hrecipient, hdata⟩
    case redeem claim quantityAtoms =>
      simp only [bind_eq_ok, refuseWhen_eq_ok, not_not, ts_validateClaimCall_eq_ok hp] at h
      obtain ⟨_, hrecipient, rest, ⟨scope, mask, quantity, rfl, hw⟩, _⟩ := h
      subst hname
      have hlen : rest.length + 3 = 3 := length_inRange hr
      obtain rfl : rest = [] := List.length_eq_zero_iff.mp (by omega)
      exact ⟨_, _, _, .redeem hw, hrecipient, hdata⟩
    case buy claim quantityAtoms limitAtoms deadline =>
      simp only [bind_eq_ok, refuseWhen_eq_ok, not_not, ts_validateClaimCall_eq_ok hp, ts_validateTradeTerms_eq_ok] at h
      obtain ⟨_, hrecipient, rest, ⟨scope, mask, quantity, rfl, hw⟩, limit, time, rfl, ht⟩ := h
      subst hname
      exact ⟨_, _, _, .buy hw ht (hr.lt time (by simp)), hrecipient, hdata⟩
    case sell claim quantityAtoms limitAtoms deadline =>
      simp only [bind_eq_ok, refuseWhen_eq_ok, not_not, ts_validateClaimCall_eq_ok hp, ts_validateTradeTerms_eq_ok] at h
      obtain ⟨_, hrecipient, rest, ⟨scope, mask, quantity, rfl, hw⟩, limit, time, rfl, ht⟩ := h
      subst hname
      exact ⟨_, _, _, .sell hw ht (hr.lt time (by simp)), hrecipient, hdata⟩
  case mpr =>
    rintro ⟨hsender, h⟩
    obtain ⟨recipient, name, ns, hi, hrecipient, hdata⟩ := h.call
    have hdecode := (decodeCall_iff hl).mpr ⟨hi.inRange hp, hdata⟩
    refine ⟨(), ⟨h.chain_eq, h.pool_chain⟩, (), h.value_eq, (), hsender, _, hdecode, (), hi.name_eq, ?_⟩
    cases hi
    case approve ha hpos hle =>
      simp only [bind_eq_ok, refuseWhen_eq_ok, not_not, not_or, not_lt]
      exact ⟨(), hrecipient, (), hp.addressFromWord, ha, hpos, hle⟩
    case redeem hw =>
      simp only [bind_eq_ok, refuseWhen_eq_ok, not_not, ts_validateClaimCall_eq_ok hp]
      exact ⟨(), hrecipient, [], ⟨_, _, _, rfl, hw⟩, rfl⟩
    case buy hw ht _ =>
      simp only [bind_eq_ok, refuseWhen_eq_ok, not_not, ts_validateClaimCall_eq_ok hp, ts_validateTradeTerms_eq_ok]
      exact ⟨(), hrecipient, _, ⟨_, _, _, rfl, hw⟩, _, _, rfl, ht⟩
    case sell hw ht _ =>
      simp only [bind_eq_ok, refuseWhen_eq_ok, not_not, ts_validateClaimCall_eq_ok hp, ts_validateTradeTerms_eq_ok]
      exact ⟨(), hrecipient, _, ⟨_, _, _, rfl, hw⟩, _, _, rfl, ht⟩

theorem represents_bigint {kind : Kind} {m : ℤ} {n : ℕ} (hk : kind.IsInteger) (h : m = n) (hn : n < 2 ^ kind.bits) :
    Represents kind (.bigint m) n := h ▸ .bigint hk hn

-- The calldata of an intent is that of its canonical transaction.
theorem Intended.callFor {recipient : List Char} {name : FunctionName} (h : Intended d intent recipient name ns)
    (hp : IsPool d.pool) : Ts.callFor d intent = .ok (recipient, callText name ns) := by
  have hint : Kind.IsInteger .uint32 ∧ Kind.IsInteger .uint128 ∧ Kind.IsInteger .uint256 :=
    ⟨⟨by decide, by decide⟩, ⟨by decide, by decide⟩, ⟨by decide, by decide⟩⟩
  have hscope {claim : Ts.ClaimRef} {quantityAtoms : ℤ} {scope mask quantity : ℕ}
      (hw : Within d claim quantityAtoms scope mask quantity) : Represents .uint32 (.number claim.scope) scope := by
    have hs := hw.bounds.left
    rw [hw.scope_eq]
    exact .number hint.left hs (by omega)
  have hterms {claim : Ts.ClaimRef} {quantityAtoms limitAtoms : ℤ} {deadline : Option ℚ} {isBuy : Bool}
      {scope mask quantity limit time : ℕ} (hw : Within d claim quantityAtoms scope mask quantity)
      (ht : Terms d isBuy limitAtoms deadline limit time) (hn : time < 2 ^ 256) :
      ∀ name ∈ [FunctionName.buy, .sell], Stands name
        [.number claim.scope, .bigint claim.mask, .bigint quantityAtoms, .bigint limitAtoms, .bigint time]
        [scope, mask, quantity, limit, time] := by
    have ⟨_, hm, hq⟩ := hw.bounds
    have hbuy : Stands .buy
        [.number claim.scope, .bigint claim.mask, .bigint quantityAtoms, .bigint limitAtoms, .bigint time]
        [scope, mask, quantity, limit, time] :=
      ⟨rfl, .cons (hscope hw) (.cons (represents_bigint hint.right.right hw.mask_eq hm)
        (.cons (represents_bigint hint.right.left hw.quantity_eq hq)
          (.cons (represents_bigint hint.right.left ht.limit_eq ht.limit_lt)
            (.cons (represents_bigint hint.right.right rfl hn) .nil))))⟩
    -- The two methods have the same signature.
    have hsell : Stands .sell
        [.number claim.scope, .bigint claim.mask, .bigint quantityAtoms, .bigint limitAtoms, .bigint time]
        [scope, mask, quantity, limit, time] := hbuy
    simp only [List.forall_mem_cons]
    exact ⟨hbuy, hsell, by simp⟩
  cases h
  case approve amountAtoms amount ha hpos hle =>
    have hlt : amount < 2 ^ 256 := by
      rw [serviceMax] at hle
      exact hle.trans_lt (by decide)
    have hs : Stands .approve [.string d.pool, .bigint amountAtoms] [hexValue (d.pool.drop 2), amount] :=
      ⟨rfl, .cons (.address hp.hexed hp.left) (.cons (represents_bigint hint.right.right ha hlt) .nil)⟩
    rw [Ts.callFor, encodeCall_iff.mpr ⟨_, hs, rfl⟩]
    rfl
  case redeem claim quantityAtoms scope mask quantity hw =>
    have ⟨_, hm, hq⟩ := hw.bounds
    have hs : Stands .redeem [.number claim.scope, .bigint claim.mask, .bigint quantityAtoms] [scope, mask, quantity] :=
      ⟨rfl, .cons (hscope hw) (.cons (represents_bigint hint.right.right hw.mask_eq hm)
        (.cons (represents_bigint hint.right.left hw.quantity_eq hq) .nil))⟩
    rw [Ts.callFor, encodeCall_iff.mpr ⟨_, hs, rfl⟩]
    rfl
  case buy hw ht hn =>
    rw [Ts.callFor, bigInt_eq_ok.mpr ht.time_eq, ok_bind,
      encodeCall_iff.mpr ⟨_, hterms hw ht hn .buy (by simp), rfl⟩]
    rfl
  case sell hw ht hn =>
    rw [Ts.callFor, bigInt_eq_ok.mpr ht.time_eq, ok_bind,
      encodeCall_iff.mpr ⟨_, hterms hw ht hn .sell (by simp), rfl⟩]
    rfl

theorem ts_build_iff (hl : LowerCase lower) (hi : ∀ s, lower (lower s) = lower s) (hp : IsPool d.pool) :
    Ts.buildTransaction lower intent d wallet = .ok tx ↔ d.chainId = 10143 ∧
      ∃ recipient name ns, Intended d intent recipient name ns ∧
        tx = ⟨some 10143, lower wallet, recipient, callText name ns, 0⟩ := by
  simp only [Ts.buildTransaction, bind_eq_ok, ts_validate_iff hl hp, pure_eq_ok, ok.injEq]
  constructor
  case mp  =>
    rintro ⟨⟨recipient, data⟩, hcall, _, ⟨_, ha⟩, htx⟩
    obtain ⟨recipient', name, ns, hi, _, _⟩ := ha.call
    rw [hi.callFor hp] at hcall
    obtain ⟨rfl, rfl⟩ := Prod.mk.inj (ok.inj hcall)
    exact ⟨ha.pool_chain, _, _, _, hi, htx.symm⟩
  case mpr =>
    rintro ⟨hd, recipient, name, ns, hin, htx⟩
    refine ⟨_, hin.callFor hp, (), ⟨hi wallet, rfl, hd, rfl, _, _, _, hin, ?_, lower_callText name ns⟩, htx.symm⟩
    have hr := hin.isPool hp
    exact (hl.eq_pool_iff hr).mpr hr.lower_eq

end TypeScript

def PoolDeployment.toTs (d : PoolDeployment) : Ts.Deployment where
  chainId    := d.chainId.toNat
  pool       := d.pool
  closesAt   := d.closesAt.toNat
  eventCount := d.eventCount.toNat

def UnsignedCall.toTs (tx : UnsignedCall) : Ts.TransactionRequest where
  chainId   := some tx.chainId.toNat
  sender    := tx.sender
  recipient := tx.recipient
  data      := tx.data
  value     := tx.value.toNat

def Selection.toTs (claim : Selection) : Ts.ClaimRef where
  scope := some claim.scope.toNat
  mask  := claim.mask.toNat

def Rust.Intent.toTs : Rust.Intent → Ts.Intent
  | .approve amountAtoms                           => .approve amountAtoms.toInt
  | .buy claim quantityAtoms limitAtoms deadline   =>
    .buy claim.toTs quantityAtoms.toInt limitAtoms.toInt (some deadline.toNat)
  | .sell claim quantityAtoms limitAtoms deadline  =>
    .sell claim.toTs quantityAtoms.toInt limitAtoms.toInt (some deadline.toNat)
  | .redeem claim quantityAtoms                    => .redeem claim.toTs quantityAtoms.toInt

section Words

open U256

variable {v w : U256} {a : BitVec 128} {n scope mask events : ℕ}

theorem equals_iff : equals v a ↔ a.toInt = (v.toNat : ℤ) := by
  rw [equals, Bool.and_eq_true, decide_eq_true_eq, decide_eq_true_eq, ← toNat_inj, toNat_fromU128 a.isLt]
  have hmsb := @BitVec.msb_eq_toInt _ a
  constructor
  case mp  =>
    intro ⟨hpos, h⟩
    rw [h, BitVec.toInt_eq_toNat_of_msb (by rw [hmsb]; exact decide_eq_false (not_lt.mpr hpos))]
  case mpr =>
    intro h
    have hpos : 0 ≤ a.toInt := by omega
    rw [BitVec.toInt_eq_toNat_of_msb (by rw [hmsb]; exact decide_eq_false (not_lt.mpr hpos))] at h
    exact ⟨hpos, by omega⟩

theorem gt_iff : Rust.gt v w ↔ w.toNat < v.toNat := by
  rw [Rust.gt, decide_eq_true_eq, cmp_eq, compare_gt_iff_gt]

theorem cpp_gt_eq : Cpp.gt = Rust.gt := by
  funext v w
  rw [Bool.eq_iff_iff, gt_iff, Cpp.gt, lt_iff]

theorem toNat_serviceMax : (fromU128 serviceMax).toNat = serviceMax := toNat_fromU128 (by decide)

theorem eq_fromU128_iff (h : n < 2 ^ 128) : v = fromU128 n ↔ v.toNat = n := by
  rw [← toNat_inj, toNat_fromU128 h]

theorem head?_toDigits : (Nat.toDigits 10 n).head? = some '0' ↔ n = 0 := by
  refine ⟨fun h => ?_, fun h => by rw [h]; rfl⟩
  have hlen : (Nat.toDigits 10 n).length ≤ 1 := not_lt.mp fun hlt => Digits.noLeadingZero_toDigits n hlt h
  have hvalue := @Nat.ofDigitChars_ten_toDigits n
  obtain ⟨t, ht⟩ := List.head?_eq_some_iff.mp h
  rw [ht, List.length_cons] at hlen
  obtain rfl : t = [] := List.length_eq_zero_iff.mp (by omega)
  rw [ht] at hvalue
  exact hvalue.symm

theorem checkClaim_isOk : (checkClaim scope (Nat.toDigits 10 mask) events).isOk ↔ validateClaim ⟨scope, mask⟩ events := by
  have hlen : 3 < (Nat.toDigits 10 mask).length ↔ 1000 ≤ mask := by
    rw [← not_le, Nat.length_toDigits_le_iff (by decide) (by decide)]
    omega
  have hdigits : (Nat.toDigits 10 mask).all Char.isDigit := List.all_eq_true.mpr (Digits.allDigits_toDigits mask)
  have hmem : events ∈ [2, 3, 4] ↔ 2 ≤ (events : ℤ) ∧ (events : ℤ) ≤ 4 := by
    simp only [List.mem_cons, List.not_mem_nil, or_false]
    omega
  have hvalue : Digits.value (Nat.toDigits 10 mask) = mask := Nat.ofDigitChars_ten_toDigits
  simp only [checkClaim, validateClaim, hlen, head?_toDigits, hdigits, hvalue, Nat.toDigits_ne_nil, Int.toNat_natCast,
    Nat.one_shiftLeft, Bool.and_eq_true, decide_eq_true_eq, hmem, not_true_eq_false, or_false, false_or]
  split_ifs with h₁ h₂ h₃
  all_goals simp only [Except.isOk, Except.toBool, Bool.false_eq_true, false_iff, true_iff]
  all_goals omega

end Words

section Rust

open U256

variable {lower : List Char → List Char} {d : PoolDeployment} {claim : Selection}
  {quantityAtoms limitAtoms : BitVec 128} {deadline : BitVec 64} {isBuy : Bool} {args rest : List U256}
  {tx : UnsignedCall} {intent : Rust.Intent} {wallet : List Char} {u : Unit} {name : FunctionName}

theorem toNat_lt_u128 {w : ℕ} (v : BitVec w) (hw : w ≤ 128) : v.toNat < 2 ^ 128 :=
  v.isLt.trans_le (Nat.pow_le_pow_right (by decide) hw)

theorem rust_validateClaimCall_eq_ok : Rust.validateClaimCall d claim quantityAtoms args = .ok rest ↔
    ∃ scope mask quantity, args = scope :: mask :: quantity :: rest ∧
      Within d.toTs claim.toTs quantityAtoms.toInt scope.toNat mask.toNat quantity.toNat := by
  match args with
  | scope :: mask :: quantity :: rest' =>
    simp only [Rust.validateClaimCall, bind_eq_ok, refuseWhen_eq_ok, not_or, not_not,
      eq_fromU128_iff (toNat_lt_u128 claim.scope (by decide)), eq_fromU128_iff (toNat_lt_u128 claim.mask (by decide)),
      equals_iff, checkClaim_isOk, isZero_iff, gt_iff, toNat_serviceMax, not_lt, pure_eq_ok, ok.injEq]
    constructor
    case mp  =>
      rintro ⟨_, ⟨hs, hm, hq⟩, _, hv, _, ⟨hpos, hle⟩, hr⟩
      refine ⟨scope, mask, quantity, by rw [hr], ?_⟩
      rw [hs, hm]
      exact ⟨rfl, rfl, hq, ⟨_, rfl, hv⟩, by omega, hle⟩
    case mpr =>
      rintro ⟨_, _, _, he, h⟩
      obtain ⟨rfl, rfl, rfl, rfl⟩ := by simpa using he
      have hs : claim.scope.toNat = scope.toNat := by
        have := Option.some.inj h.scope_eq
        exact_mod_cast this
      have hm : claim.mask.toNat = mask.toNat := Int.ofNat.inj h.mask_eq
      obtain ⟨events, hev, hv⟩ := h.valid
      have hev : d.eventCount.toNat = events := Nat.cast_injective hev
      rw [← hs, ← hm, ← hev] at hv
      exact ⟨(), ⟨hs.symm, hm.symm, h.quantity_eq⟩, (), hv, (), ⟨by have := h.pos; omega, h.le⟩, rfl⟩
  | [] | [_] | [_, _]                 => simp [Rust.validateClaimCall]

theorem rust_validateTradeTerms_eq_ok : Rust.validateTradeTerms d isBuy limitAtoms deadline args = .ok u ↔
    ∃ limit time rest, args = limit :: time :: rest ∧
      Terms d.toTs isBuy limitAtoms.toInt (some deadline.toNat) limit.toNat time.toNat := by
  match args with
  | limit :: time :: rest =>
    simp only [Rust.validateTradeTerms, bind_eq_ok, refuseWhen_eq_ok, not_or, not_not, equals_iff, gt_iff,
      toNat_serviceMax, not_lt, not_and, isZero_iff, eq_fromU128_iff (toNat_lt_u128 deadline (by decide)),
      BitVec.le_def, not_le]
    constructor
    case mp  =>
      rintro ⟨_, ⟨hl, hle, hpos⟩, ht, hlt⟩
      refine ⟨limit, time, rest, rfl, hl, hle, hpos, by rw [ht], ?_⟩
      rw [ht]
      exact Nat.cast_lt.mpr hlt
    case mpr =>
      rintro ⟨_, _, _, he, h⟩
      obtain ⟨rfl, rfl, rfl⟩ := by simpa using he
      have ht : deadline.toNat = time.toNat := by
        have := Option.some.inj h.time_eq
        exact_mod_cast this
      refine ⟨(), ⟨h.limit_eq, h.le, h.pos⟩, ht.symm, ?_⟩
      have := h.lt
      rw [← ht] at this
      exact Nat.cast_lt.mp this
  | [] | [_]              => simp [Rust.validateTradeTerms]

theorem rust_decodeCall_iff (hl : LowerCase lower) {data : List Char} : Rust.decodeCall lower data = .ok (name, args) ↔
    InRange name (args.map toNat) ∧ Cpp.lower data = callText name (args.map toNat) := by
  rw [← decodeCall_iff hl, ← rust_decodeCall_eq hl]
  cases Rust.decodeCall lower data
  case error  => exact iff_of_false nofun nofun
  case ok r   =>
    rw [ok.injEq]
    refine ⟨fun h => by rw [h]; rfl, fun h => ?_⟩
    obtain ⟨h₁, h₂⟩ := Prod.mk.inj (ok.inj h)
    exact Prod.ext h₁ (List.map_injective_iff.mpr (fun v w h => toNat_inj.mp h) h₂)

theorem exists_words {ns : List ℕ} (h : ∀ n ∈ ns, n < 2 ^ 256) : ∃ args : List U256, args.map toNat = ns := by
  induction ns
  case nil          => exact ⟨[], rfl⟩
  case cons n ns hi =>
    have ⟨hn, h⟩ := List.forall_mem_cons.mp h
    obtain ⟨args, hargs⟩ := hi h
    exact ⟨⟨Words.fixed 256 32 n, Words.length_fixed 256 32 n, Words.fits_fixed (by decide)⟩ :: args, by
      rw [List.map_cons, hargs, U256.toNat, Words.value_fixed (by rwa [show 256 ^ 32 = 2 ^ 256 by decide])]⟩

theorem map_toNat_eq_three {a b c : ℕ} {ns : List ℕ} (h : args.map toNat = a :: b :: c :: ns) :
    ∃ u v w rest, args = u :: v :: w :: rest ∧ u.toNat = a ∧ v.toNat = b ∧ w.toNat = c ∧ rest.map toNat = ns := by
  obtain ⟨u, args₁, rfl, hu, h₁⟩ := List.map_eq_cons_iff.mp h
  obtain ⟨v, args₂, rfl, hv, h₂⟩ := List.map_eq_cons_iff.mp h₁
  obtain ⟨w, args₃, rfl, hw, h₃⟩ := List.map_eq_cons_iff.mp h₂
  exact ⟨u, v, w, args₃, rfl, hu, hv, hw, h₃⟩

theorem intent_action (intent : Rust.Intent) : intent.toTs.action = intent.action := by
  cases intent <;> rfl

theorem chain_iff (v : BitVec 64) : (v.toNat : ℚ) = 10143 ↔ v = 10143 := by
  rw [← BitVec.toNat_inj]
  exact Nat.cast_inj (m := v.toNat) (n := 10143)

theorem value_iff (v : BitVec 128) : (v.toNat : ℤ) = 0 ↔ v = 0 := by
  rw [← BitVec.toNat_inj]
  exact Nat.cast_inj (m := v.toNat) (n := 0)

-- The Rust validator accepts what the one of TypeScript accepts.
theorem rust_validate_iff (hl : LowerCase lower) (hp : IsPool d.pool) :
    Rust.validateTransaction lower tx intent d wallet = .ok u ↔
      lower tx.sender = lower wallet ∧ Authorized lower tx.toTs intent.toTs d.toTs := by
  simp only [Rust.validateTransaction, bind_eq_ok, refuseWhen_eq_ok, not_or, not_not]
  constructor
  case mp  =>
    rintro ⟨_, ⟨hchain, hd⟩, _, hvalue, _, hsender, ⟨name, args⟩, hdecode, _, hname, h⟩
    obtain ⟨hr, hdata⟩ := (rust_decodeCall_iff hl).mp hdecode
    refine ⟨hsender, congrArg some ((chain_iff _).mpr hchain), (chain_iff _).mpr hd, (value_iff _).mpr hvalue, ?_⟩
    cases intent
    case approve amountAtoms =>
      simp only [bind_eq_ok, refuseWhen_eq_ok, not_not] at h
      obtain ⟨_, hrecipient, h⟩ := h
      subst hname
      obtain ⟨_, _, hargs, hlt⟩ := inRange_approve hr
      obtain ⟨spender, args₁, rfl, rfl, h₁⟩ := List.map_eq_cons_iff.mp hargs
      obtain ⟨amount, args₂, rfl, rfl, h₂⟩ := List.map_eq_cons_iff.mp h₁
      obtain rfl := List.map_eq_nil_iff.mp h₂
      simp only [bind_eq_ok, refuseWhen_eq_ok, not_not, not_or, equals_iff, isZero_iff, gt_iff, toNat_serviceMax,
        not_lt, (addressText_eq hlt).left, addressFromWord_eq_iff hp hlt] at h
      obtain ⟨_, hspender, ha, hpos, hle⟩ := h
      rw [List.map_cons, hspender] at hdata
      exact ⟨_, _, _, .approve ha hpos hle, hrecipient, hdata⟩
    case redeem claim quantityAtoms =>
      simp only [bind_eq_ok, refuseWhen_eq_ok, not_not, rust_validateClaimCall_eq_ok] at h
      obtain ⟨_, hrecipient, rest, ⟨scope, mask, quantity, rfl, hw⟩, _⟩ := h
      subst hname
      have hlen : (rest.map toNat).length + 3 = 3 := length_inRange hr
      rw [List.length_map] at hlen
      obtain rfl : rest = [] := List.length_eq_zero_iff.mp (by omega)
      exact ⟨_, _, _, .redeem hw, hrecipient, hdata⟩
    case buy claim quantityAtoms limitAtoms deadline =>
      simp only [bind_eq_ok, refuseWhen_eq_ok, not_not, rust_validateClaimCall_eq_ok, rust_validateTradeTerms_eq_ok] at h
      obtain ⟨_, hrecipient, rest, ⟨scope, mask, quantity, rfl, hw⟩, limit, time, more, rfl, ht⟩ := h
      subst hname
      have hlen : (more.map toNat).length + 5 = 5 := length_inRange hr
      rw [List.length_map] at hlen
      obtain rfl : more = [] := List.length_eq_zero_iff.mp (by omega)
      exact ⟨_, _, _, .buy hw ht time.toNat_lt, hrecipient, hdata⟩
    case sell claim quantityAtoms limitAtoms deadline =>
      simp only [bind_eq_ok, refuseWhen_eq_ok, not_not, rust_validateClaimCall_eq_ok, rust_validateTradeTerms_eq_ok] at h
      obtain ⟨_, hrecipient, rest, ⟨scope, mask, quantity, rfl, hw⟩, limit, time, more, rfl, ht⟩ := h
      subst hname
      have hlen : (more.map toNat).length + 5 = 5 := length_inRange hr
      rw [List.length_map] at hlen
      obtain rfl : more = [] := List.length_eq_zero_iff.mp (by omega)
      exact ⟨_, _, _, .sell hw ht time.toNat_lt, hrecipient, hdata⟩
  case mpr =>
    rintro ⟨hsender, h⟩
    obtain ⟨recipient, name, ns, hi, hrecipient, hdata⟩ := h.call
    obtain ⟨args, rfl⟩ := exists_words (hi.inRange hp).lt
    have hdecode := (rust_decodeCall_iff hl).mpr ⟨hi.inRange hp, hdata⟩
    have hname : name = intent.action := by rw [hi.name_eq, intent_action]
    refine ⟨(), ⟨(chain_iff _).mp (Option.some.inj h.chain_eq), (chain_iff _).mp h.pool_chain⟩, (),
      (value_iff _).mp h.value_eq, (), hsender, _, hdecode, (), hname, ?_⟩
    generalize hns : args.map toNat = ns at hi
    cases intent
    all_goals simp only [Rust.Intent.toTs] at hi
    case approve amountAtoms =>
      cases hi with
      | approve ha hpos hle =>
        obtain ⟨spender, args₁, rfl, hs, h₁⟩ := List.map_eq_cons_iff.mp hns
        obtain ⟨amount, args₂, rfl, rfl, h₂⟩ := List.map_eq_cons_iff.mp h₁
        obtain rfl := List.map_eq_nil_iff.mp h₂
        have hlt : spender.toNat < 2 ^ 160 := by
          rw [hs]
          exact hp.value_lt
        simp only [bind_eq_ok, refuseWhen_eq_ok, not_not, not_or, equals_iff, isZero_iff, gt_iff, toNat_serviceMax,
          not_lt, (addressText_eq hlt).left, addressFromWord_eq_iff hp hlt]
        exact ⟨(), hrecipient, (), hs, ha, hpos, hle⟩
    case redeem claim quantityAtoms =>
      cases hi with
      | redeem hw =>
        obtain ⟨scope, mask, quantity, rest, rfl, rfl, rfl, rfl, hrest⟩ := map_toNat_eq_three hns
        obtain rfl := List.map_eq_nil_iff.mp hrest
        simp only [bind_eq_ok, refuseWhen_eq_ok, not_not, rust_validateClaimCall_eq_ok]
        exact ⟨(), hrecipient, [], ⟨_, _, _, rfl, hw⟩, rfl⟩
    case buy claim quantityAtoms limitAtoms deadline =>
      cases hi with
      | buy hw ht _ =>
        obtain ⟨scope, mask, quantity, rest, rfl, rfl, rfl, rfl, hrest⟩ := map_toNat_eq_three hns
        obtain ⟨limit, rest₁, rfl, rfl, h₁⟩ := List.map_eq_cons_iff.mp hrest
        obtain ⟨time, rest₂, rfl, rfl, h₂⟩ := List.map_eq_cons_iff.mp h₁
        simp only [bind_eq_ok, refuseWhen_eq_ok, not_not, rust_validateClaimCall_eq_ok, rust_validateTradeTerms_eq_ok]
        exact ⟨(), hrecipient, _, ⟨_, _, _, rfl, hw⟩, _, _, _, rfl, ht⟩
    case sell claim quantityAtoms limitAtoms deadline =>
      cases hi with
      | sell hw ht _ =>
        obtain ⟨scope, mask, quantity, rest, rfl, rfl, rfl, rfl, hrest⟩ := map_toNat_eq_three hns
        obtain ⟨limit, rest₁, rfl, rfl, h₁⟩ := List.map_eq_cons_iff.mp hrest
        obtain ⟨time, rest₂, rfl, rfl, h₂⟩ := List.map_eq_cons_iff.mp h₁
        simp only [bind_eq_ok, refuseWhen_eq_ok, not_not, rust_validateClaimCall_eq_ok, rust_validateTradeTerms_eq_ok]
        exact ⟨(), hrecipient, _, ⟨_, _, _, rfl, hw⟩, _, _, _, rfl, ht⟩

theorem amount_eq {a : BitVec 128} {n : ℕ} (h : a.toInt = n) : Rust.amount a = .ok (.uint (fromU128 n)) := by
  have hpos : ¬ a.toInt < 0 := by omega
  have hmsb := @BitVec.msb_eq_toInt _ a
  rw [decide_eq_false hpos] at hmsb
  rw [BitVec.toInt_eq_toNat_of_msb hmsb] at h
  rw [Rust.amount, if_neg hpos, Int.ofNat.inj h]

theorem represents_uint {kind : Kind} {n : ℕ} (hk : kind.IsInteger) (hn : n < 2 ^ kind.bits) (h : n < 2 ^ 128) :
    Represents kind (Arg.toWord (.uint (fromU128 n))) n := by
  rw [Arg.toWord, toNat_fromU128 h]
  exact .bigint hk hn

-- The calldata of an intent is that of its canonical transaction.
theorem Intended.rust_callFor {recipient : List Char} {ns : List ℕ}
    (h : Intended d.toTs intent.toTs recipient name ns) (hp : IsPool d.pool) :
    Rust.callFor d intent = .ok (recipient, callText name ns) := by
  have hint : Kind.IsInteger .uint32 ∧ Kind.IsInteger .uint128 ∧ Kind.IsInteger .uint256 :=
    ⟨⟨by decide, by decide⟩, ⟨by decide, by decide⟩, ⟨by decide, by decide⟩⟩
  have hpow {k : ℕ} (hk : k ≤ 128) {m : ℕ} (h : m < 2 ^ k) : m < 2 ^ 128 :=
    h.trans_le (Nat.pow_le_pow_right (by decide) hk)
  have hencode {args : List Arg} {ns : List ℕ} {name : FunctionName} (hs : Stands name (args.map Arg.toWord) ns) :
      Rust.encodeCall name args = .ok (callText name ns) := by
    rw [rust_encodeCall_eq, encodeCall_iff.mpr ⟨ns, hs, rfl⟩]
  have hclaim {claim : Selection} {q : ℤ} {scope mask quantity : ℕ}
      (hw : Within d.toTs claim.toTs q scope mask quantity) :
      Represents .uint32 (Arg.toWord (.uint (fromU128 claim.scope.toNat))) scope ∧
        Represents .uint256 (Arg.toWord (.uint (fromU128 claim.mask.toNat))) mask := by
    have hs : claim.scope.toNat = scope := Nat.cast_injective (Option.some.inj hw.scope_eq)
    have hm : claim.mask.toNat = mask := Int.ofNat.inj hw.mask_eq
    have hmask := toNat_lt_u128 claim.mask (by decide)
    rw [hm] at hmask
    rw [hs, hm]
    exact ⟨represents_uint hint.left hw.bounds.left (hpow (by decide) hw.bounds.left),
      represents_uint hint.right.right hw.bounds.right.left hmask⟩
  have htrade {claim : Selection} {q l : ℤ} {deadline : BitVec 64} {isBuy : Bool} {scope mask quantity limit time : ℕ}
      (hw : Within d.toTs claim.toTs q scope mask quantity)
      (ht : Terms d.toTs isBuy l (some deadline.toNat) limit time) :
      Stands .buy ([.uint (fromU128 claim.scope.toNat), .uint (fromU128 claim.mask.toNat), .uint (fromU128 quantity),
        .uint (fromU128 limit), .uint (fromU128 deadline.toNat)].map Arg.toWord) [scope, mask, quantity, limit, time] ∧
      Stands .sell ([.uint (fromU128 claim.scope.toNat), .uint (fromU128 claim.mask.toNat), .uint (fromU128 quantity),
        .uint (fromU128 limit), .uint (fromU128 deadline.toNat)].map Arg.toWord) [scope, mask, quantity, limit, time] := by
    have ⟨hs, hm⟩ := hclaim hw
    have hq := hw.bounds.right.right
    have htime : deadline.toNat = time := Nat.cast_injective (Option.some.inj ht.time_eq)
    have hlt := toNat_lt_u128 deadline (by decide)
    rw [htime] at hlt ⊢
    have hbuy : Stands .buy ([.uint (fromU128 claim.scope.toNat), .uint (fromU128 claim.mask.toNat),
        .uint (fromU128 quantity), .uint (fromU128 limit), .uint (fromU128 time)].map Arg.toWord)
        [scope, mask, quantity, limit, time] :=
      ⟨rfl, .cons hs (.cons hm (.cons (represents_uint hint.right.left hq hq)
        (.cons (represents_uint hint.right.left ht.limit_lt ht.limit_lt)
          (.cons (represents_uint hint.right.right (hlt.trans (show 2 ^ 128 < 2 ^ 256 by decide)) hlt) .nil))))⟩
    exact ⟨hbuy, hbuy⟩
  cases intent
  all_goals simp only [Rust.Intent.toTs] at h
  case approve amountAtoms =>
    cases h with
    | @approve _ amount ha hpos hle =>
      have hlt := hle
      rw [serviceMax] at hlt
      have hs : Stands .approve ([.text d.pool, .uint (fromU128 amount)].map Arg.toWord)
          [hexValue (d.pool.drop 2), amount] :=
        ⟨rfl, .cons (.address hp.hexed hp.left)
          (.cons (represents_uint hint.right.right (hlt.trans_lt (show 100_000_000 < 2 ^ 256 by decide))
            (hlt.trans_lt (by decide))) .nil)⟩
      rw [Rust.callFor, amount_eq ha, ok_bind, hencode hs]
      rfl
  case redeem claim quantityAtoms =>
    cases h with
    | @redeem _ _ scope mask quantity hw =>
      have ⟨hs, hm⟩ := hclaim hw
      have hq := hw.bounds.right.right
      have hs : Stands .redeem
          ([.uint (fromU128 claim.scope.toNat), .uint (fromU128 claim.mask.toNat), .uint (fromU128 quantity)].map
            Arg.toWord) [scope, mask, quantity] :=
        ⟨rfl, .cons hs (.cons hm (.cons (represents_uint hint.right.left hq hq) .nil))⟩
      rw [Rust.callFor, amount_eq hw.quantity_eq, ok_bind, hencode hs]
      rfl
  case buy claim quantityAtoms limitAtoms deadline =>
    cases h with
    | buy hw ht _ =>
      rw [Rust.callFor, amount_eq hw.quantity_eq, ok_bind, amount_eq ht.limit_eq, ok_bind, hencode (htrade hw ht).left]
      rfl
  case sell claim quantityAtoms limitAtoms deadline =>
    cases h with
    | sell hw ht _ =>
      rw [Rust.callFor, amount_eq hw.quantity_eq, ok_bind, amount_eq ht.limit_eq, ok_bind, hencode (htrade hw ht).right]
      rfl

-- The builder succeeds on the intents that have a canonical transaction.
theorem rust_build_iff (hl : LowerCase lower) (hi : ∀ s, lower (lower s) = lower s) (hp : IsPool d.pool) :
    Rust.buildTransaction lower intent d wallet = .ok tx ↔ d.chainId = 10143 ∧
      ∃ recipient name ns, Intended d.toTs intent.toTs recipient name ns ∧
        tx = ⟨10143, lower wallet, recipient, callText name ns, 0⟩ := by
  simp only [Rust.buildTransaction, bind_eq_ok, rust_validate_iff hl hp, pure_eq_ok, ok.injEq]
  constructor
  case mp  =>
    rintro ⟨⟨recipient, data⟩, hcall, _, ⟨_, ha⟩, htx⟩
    obtain ⟨recipient', name, ns, hi, _, _⟩ := ha.call
    rw [hi.rust_callFor hp] at hcall
    obtain ⟨rfl, rfl⟩ := Prod.mk.inj (ok.inj hcall)
    exact ⟨(chain_iff _).mp ha.pool_chain, _, _, _, hi, htx.symm⟩
  case mpr =>
    rintro ⟨hd, recipient, name, ns, hin, htx⟩
    refine ⟨_, hin.rust_callFor hp, (), ⟨hi wallet, rfl, (chain_iff _).mpr hd, rfl, _, _, _, hin, ?_,
      lower_callText name ns⟩, htx.symm⟩
    have hr := hin.isPool hp
    exact (hl.eq_pool_iff hr).mpr hr.lower_eq

end Rust

section Cpp

open U256

variable {lower : List Char → List Char} {d : PoolDeployment} {tx : UnsignedCall} {intent : Cpp.Intent}
  {r : Rust.Intent} {wallet : List Char} {u : Unit} {name : FunctionName}

-- The intents of C++ that have one of the four actions.
def Cpp.Intent.toRust (intent : Cpp.Intent) : Option Rust.Intent :=
  if intent.action = "approve" then some (.approve intent.limitAtoms)
  else if intent.action = "redeem" then some (.redeem intent.claim intent.quantityAtoms)
  else if intent.action = "buy" then
    some (.buy intent.claim intent.quantityAtoms intent.limitAtoms intent.deadline)
  else if intent.action = "sell" then
    some (.sell intent.claim intent.quantityAtoms intent.limitAtoms intent.deadline)
  else none

theorem text_inj {f g : FunctionName} : f.text = g.text ↔ f = g := by
  refine ⟨fun h => ?_, congrArg _⟩
  have : ∀ f ∈ FunctionName.selectors, ∀ g ∈ FunctionName.selectors, f.text = g.text → f = g := by decide
  exact this f (FunctionName.mem_selectors f) g (FunctionName.mem_selectors g) h

theorem refuseWhen_congr {p q : Prop} [Decidable p] [Decidable q] {message : String} (h : p ↔ q) :
    refuseWhen p message = refuseWhen q message := if_congr h rfl rfl

theorem refuseWhen_text {f g : FunctionName} {message : String} :
    refuseWhen (f.text ≠ g.text) message = refuseWhen (f ≠ g) message := by
  simp only [refuseWhen, ne_eq, text_inj]

theorem cpp_addressText_eq (hl : LowerCase lower) {data : List Char} {v : U256} {rest : List U256}
    (h : Rust.decodeCall lower data = .ok (.approve, v :: rest)) : Cpp.addressText v = Rust.addressText v := by
  have ⟨hr, _⟩ := (rust_decodeCall_iff hl).mp h
  have hlt : v.toNat < 2 ^ 160 := (List.forall₂_cons.mp hr).left
  rw [(addressText_eq hlt).left, (addressText_eq hlt).right]

theorem cpp_validate_eq (h : intent.toRust = some r) : Cpp.validateTransaction tx intent d wallet =
    Rust.validateTransaction Cpp.lower tx r d wallet := by
  obtain ⟨action, claim, quantityAtoms, limitAtoms, deadline⟩ := intent
  simp only [Cpp.Intent.toRust] at h
  split_ifs at h with ha ha ha ha
  case pos =>
    obtain rfl := Option.some.inj h
    obtain rfl : action = FunctionName.approve.text := ha
    simp only [Cpp.validateTransaction, Rust.validateTransaction, cpp_decodeCall_eq, refuseWhen_text, cpp_gt_eq]
    refine bind_congr fun _ => bind_congr fun _ => bind_congr fun _ => ?_
    cases hd : Rust.decodeCall Cpp.lower tx.data
    case error => rfl
    case ok p  =>
      obtain ⟨name, args⟩ := p
      by_cases hn : name = .approve
      case neg => simp only [ok_bind, refuseWhen, Rust.Intent.action, ne_eq, hn, not_false_eq_true, if_true, error_bind]
      case pos =>
        subst hn
        rw [ok_bind, ok_bind]
        refine bind_congr fun _ => ?_
        rw [if_pos (by rfl)]
        refine bind_congr fun _ => ?_
        match args with
        | spender :: amount :: _ => simp only [cpp_addressText_eq lowerCase_cpp hd]
        | [] | [_]               => rfl
  case pos =>
    obtain rfl := Option.some.inj h
    obtain rfl : action = FunctionName.redeem.text := ‹_›
    simp only [Cpp.validateTransaction, Rust.validateTransaction, cpp_decodeCall_eq, refuseWhen_text, cpp_gt_eq]
    refine bind_congr fun _ => bind_congr fun _ => bind_congr fun _ => bind_congr fun ⟨name, args⟩ => bind_congr fun _ => ?_
    rw [if_neg (by decide)]
    refine bind_congr fun _ => ?_
    match args with
    | scope :: mask :: quantity :: rest =>
      simp only [Rust.validateClaimCall, bind_assoc, pure_bind]
      refine bind_congr fun _ => bind_congr fun _ => bind_congr fun _ => ?_
      exact if_neg (by decide)
    | [] | [_] | [_, _]                 => rfl
  case pos =>
    obtain rfl := Option.some.inj h
    obtain rfl : action = FunctionName.buy.text := ‹_›
    simp only [Cpp.validateTransaction, Rust.validateTransaction, cpp_decodeCall_eq, refuseWhen_text, cpp_gt_eq]
    refine bind_congr fun _ => bind_congr fun _ => bind_congr fun _ => bind_congr fun ⟨name, args⟩ => bind_congr fun _ => ?_
    rw [if_neg (by decide)]
    refine bind_congr fun _ => ?_
    match args with
    | scope :: mask :: quantity :: rest =>
      simp only [Rust.validateClaimCall, bind_assoc, pure_bind]
      refine bind_congr fun _ => bind_congr fun _ => bind_congr fun _ => ?_
      rw [if_pos (by decide)]
      match rest with
      | limit :: time :: _ =>
        refine congrArg (· >>= _) (refuseWhen_congr ?_)
        exact or_congr_right (or_congr_right (and_congr_left' (iff_of_true rfl rfl)))
      | [] | [_]           => rfl
    | [] | [_] | [_, _]                 => rfl
  case pos =>
    obtain rfl := Option.some.inj h
    obtain rfl : action = FunctionName.sell.text := ‹_›
    simp only [Cpp.validateTransaction, Rust.validateTransaction, cpp_decodeCall_eq, refuseWhen_text, cpp_gt_eq]
    refine bind_congr fun _ => bind_congr fun _ => bind_congr fun _ => bind_congr fun ⟨name, args⟩ => bind_congr fun _ => ?_
    rw [if_neg (by decide)]
    refine bind_congr fun _ => ?_
    match args with
    | scope :: mask :: quantity :: rest =>
      simp only [Rust.validateClaimCall, bind_assoc, pure_bind]
      refine bind_congr fun _ => bind_congr fun _ => bind_congr fun _ => ?_
      rw [if_pos (by decide)]
      match rest with
      | limit :: time :: _ =>
        refine congrArg (· >>= _) (refuseWhen_congr ?_)
        exact or_congr_right (or_congr_right (and_congr_left' (iff_of_false (by decide) (by decide))))
      | [] | [_]           => rfl
    | [] | [_] | [_, _]                 => rfl

theorem cpp_callFor_eq (h : intent.toRust = some r) : Cpp.callFor d intent = Rust.callFor d r := by
  have hextend {w : ℕ} (v : BitVec w) (hw : w ≤ 128) : (v.zeroExtend 128).toNat = v.toNat := by
    rw [BitVec.zeroExtend, BitVec.toNat_setWidth]
    exact Nat.mod_eq_of_lt (toNat_lt_u128 v hw)
  have hamount : Cpp.amount = Rust.amount := rfl
  obtain ⟨action, claim, quantityAtoms, limitAtoms, deadline⟩ := intent
  simp only [Cpp.Intent.toRust] at h
  simp only [Cpp.callFor, Cpp.arg, hamount, cpp_encodeCall_eq, hextend claim.scope (by decide),
    hextend claim.mask (by decide), hextend deadline (by decide)]
  split_ifs at h ⊢
  all_goals
    obtain rfl := Option.some.inj h
    rfl

end Cpp

section Languages

variable {lower : List Char → List Char}

-- The recipient of a canonical transaction is lowered alike.
theorem Authorized.lower_iff (hl : LowerCase lower) {tx : Ts.TransactionRequest} {intent : Ts.Intent}
    {d : Ts.Deployment} (hp : IsPool d.pool) : Authorized Cpp.lower tx intent d ↔ Authorized lower tx intent d := by
  refine ⟨fun h => ⟨h.chain_eq, h.pool_chain, h.value_eq, ?_⟩, fun h => ⟨h.chain_eq, h.pool_chain, h.value_eq, ?_⟩⟩
  all_goals
    obtain ⟨recipient, name, ns, hi, hr, hd⟩ := h.call
    refine ⟨recipient, name, ns, hi, ?_, hd⟩
  · exact (hl.eq_pool_iff (hi.isPool hp)).mpr hr
  · exact (hl.eq_pool_iff (hi.isPool hp)).mp hr

theorem cpp_validate_iff (hl : LowerCase lower) {tx : UnsignedCall} {intent : Cpp.Intent} {r : Rust.Intent}
    {d : PoolDeployment} {wallet : List Char} (hp : IsPool d.pool) (h : intent.toRust = some r) :
    Cpp.validateTransaction tx intent d wallet = .ok () ↔
      Cpp.lower tx.sender = Cpp.lower wallet ∧ Authorized lower tx.toTs r.toTs d.toTs := by
  rw [cpp_validate_eq h, rust_validate_iff lowerCase_cpp hp, Authorized.lower_iff (d := d.toTs) hl hp]

theorem cpp_build_eq {intent : Cpp.Intent} {r : Rust.Intent} {d : PoolDeployment} {wallet : List Char}
    (h : intent.toRust = some r) : Cpp.buildTransaction intent d wallet = Rust.buildTransaction Cpp.lower r d wallet := by
  simp only [Cpp.buildTransaction, Rust.buildTransaction, cpp_callFor_eq h, cpp_validate_eq h]

theorem Ts.validate_build (hl : LowerCase lower) (hi : ∀ s, lower (lower s) = lower s) {tx : Ts.TransactionRequest}
    {intent : Ts.Intent} {d : Ts.Deployment} {wallet : List Char} (hp : IsPool d.pool)
    (h : Ts.validateTransaction lower tx intent d wallet = .ok ()) :
    ∃ built, Ts.buildTransaction lower intent d wallet = .ok built ∧ tx.chainId = built.chainId ∧
      tx.value = built.value ∧ lower tx.sender = built.sender ∧ lower tx.recipient = built.recipient ∧
      Cpp.lower tx.data = built.data := by
  obtain ⟨hs, ha⟩ := (ts_validate_iff hl hp).mp h
  obtain ⟨recipient, name, ns, hin, hr, hd⟩ := ha.call
  exact ⟨_, (ts_build_iff hl hi hp).mpr ⟨ha.pool_chain, _, _, _, hin, rfl⟩, ha.chain_eq, ha.value_eq, hs, hr, hd⟩

theorem Ts.exists_build_iff (hl : LowerCase lower) (hi : ∀ s, lower (lower s) = lower s) {intent : Ts.Intent}
    {d : Ts.Deployment} {wallet : List Char} (hp : IsPool d.pool) :
    (∃ tx, Ts.buildTransaction lower intent d wallet = .ok tx) ↔
      ∃ tx, Ts.validateTransaction lower tx intent d wallet = .ok () := by
  constructor
  case mp  =>
    rintro ⟨tx, h⟩
    simp only [Ts.buildTransaction, bind_eq_ok] at h
    obtain ⟨_, _, _, hv, _⟩ := h
    exact ⟨_, hv⟩
  case mpr =>
    rintro ⟨tx, h⟩
    obtain ⟨built, hb, _⟩ := Ts.validate_build hl hi hp h
    exact ⟨built, hb⟩

theorem rust_build_eq_ok (hl : LowerCase lower) (hi : ∀ s, lower (lower s) = lower s) {tx : UnsignedCall}
    {intent : Rust.Intent} {d : PoolDeployment} {wallet : List Char} (hp : IsPool d.pool) :
    Rust.buildTransaction lower intent d wallet = .ok tx ↔
      Ts.buildTransaction lower intent.toTs d.toTs wallet = .ok tx.toTs := by
  rw [rust_build_iff hl hi hp, ts_build_iff (d := d.toTs) hl hi hp]
  refine and_congr (chain_iff _).symm (exists_congr fun recipient => exists_congr fun name => exists_congr fun ns =>
    and_congr_right fun _ => ?_)
  constructor
  case mp  => rintro rfl; rfl
  case mpr =>
    intro h
    obtain ⟨chainId, sender, target, data, value⟩ := tx
    simp only [UnsignedCall.toTs, Ts.TransactionRequest.mk.injEq, Option.some_inj] at h
    obtain ⟨hc, rfl, rfl, rfl, hv⟩ := h
    rw [(chain_iff chainId).mp hc, (value_iff value).mp hv]

theorem accentLower_idem (s : List Char) : accentLower (accentLower s) = accentLower s := by
  rw [accentLower, accentLower, List.map_map]
  refine List.map_congr_left fun c _ => ?_
  by_cases hc : c = 'É'
  case pos => rw [hc]; decide
  case neg =>
    have hne : c.toLower ≠ 'É' := fun h => by
      by_cases hlt : c.toNat < 128
      case neg => exact hc (toLower_eq_self hlt ▸ h)
      case pos =>
        have : ∀ n < 128, (Char.ofNat n).toLower ≠ 'É' := by decide
        have := this c.toNat hlt
        rw [Char.ofNat_toNat] at this
        exact this h
    rw [Function.comp_apply, if_neg hc, if_neg hne, toLower_toLower]

def sampleDeployment : PoolDeployment where
  chainId    := 10143
  pool       := ['0', 'x'] ++ hexText 40 0xb0
  closesAt   := 2000
  eventCount := 3

-- The approval of five atoms for the pool.
def sampleApproval (sender : List Char) : UnsignedCall where
  chainId   := 10143
  sender    := sender
  recipient := collateralText
  data      := callText .approve [0xb0, 5]
  value     := 0

theorem isPool_sample : IsPool sampleDeployment.pool := by
  refine ⟨by rw [sampleDeployment, List.length_append, length_hexText]; rfl, rfl, ?_⟩
  exact lowerHex_hexText 40 0xb0

theorem authorized_sample {lower : List Char → List Char} (hl : LowerCase lower) (sender : List Char) :
    Authorized lower (sampleApproval sender).toTs (Rust.Intent.approve 5).toTs sampleDeployment.toTs := by
  refine ⟨rfl, rfl, rfl, collateralText, .approve, [0xb0, 5], ?_, ?_, lower_callText _ _⟩
  · have hpool : hexValue (sampleDeployment.toTs.pool.drop 2) = 0xb0 := hexValue_hexText (by decide)
    have := @Intended.approve sampleDeployment.toTs 5 5 rfl (by decide) (by decide)
    rwa [hpool] at this
  · exact (hl.eq_pool_iff isPool_collateral).mpr isPool_collateral.lower_eq

-- The purchase of seven atoms of "both of the first two events" for at most five, until a time.
def samplePurchase (sender : List Char) : UnsignedCall where
  chainId   := 10143
  sender    := sender
  recipient := sampleDeployment.pool
  data      := callText .buy [3, 8, 7, 5, 1500]
  value     := 0

def purchaseUntil (deadline : BitVec 64) : Rust.Intent := .buy ⟨3, 8⟩ 7 5 deadline

theorem authorized_purchase {lower : List Char → List Char} (hl : LowerCase lower) (sender : List Char) :
    Authorized lower (samplePurchase sender).toTs (purchaseUntil 1500).toTs sampleDeployment.toTs := by
  have hwithin : Within sampleDeployment.toTs (Selection.toTs ⟨3, 8⟩) 7 3 8 7 :=
    ⟨rfl, rfl, rfl, ⟨3, rfl, by decide⟩, by decide, by decide⟩
  have hterms : Terms sampleDeployment.toTs true 5 (some ((1500 : ℕ) : ℚ)) 5 1500 := by
    refine ⟨rfl, by decide, by decide, rfl, ?_⟩
    change ((1500 : ℕ) : ℚ) < ((2000 : ℕ) : ℚ)
    norm_num
  exact ⟨rfl, rfl, rfl, _, _, _, .buy hwithin hterms (by norm_num),
    (hl.eq_pool_iff isPool_sample).mpr isPool_sample.lower_eq,
    lower_callText _ _⟩

-- A purchase is over when the market closes.
theorem late_purchase {lower : List Char → List Char} {tx : Ts.TransactionRequest} :
    ¬ Authorized lower tx (purchaseUntil 2000).toTs sampleDeployment.toTs := by
  intro h
  obtain ⟨_, _, _, hi, _⟩ := h.call
  cases hi
  case buy hwithin hterms _ =>
    have hlt := hterms.lt
    rw [← Option.some.inj hterms.time_eq] at hlt
    exact absurd hlt (lt_irrefl _)

-- The validators accept the canonical transaction of an intent and nothing else, and the builders build it.
-- The one of C++ lowers a sender and a wallet that are not of ASCII in its own way.
theorem signing_exact (hl : LowerCase lower) (hi : ∀ s, lower (lower s) = lower s) :
    (∀ tx intent (d : Ts.Deployment) wallet, IsPool d.pool →
      (Ts.validateTransaction lower tx intent d wallet = .ok () ↔
        lower tx.sender = lower wallet ∧ Authorized lower tx intent d)) ∧
    (∀ tx intent (d : Ts.Deployment) wallet, IsPool d.pool →
      Ts.validateTransaction lower tx intent d wallet = .ok () →
      ∃ built, Ts.buildTransaction lower intent d wallet = .ok built ∧ tx.chainId = built.chainId ∧
        tx.value = built.value ∧ lower tx.sender = built.sender ∧ lower tx.recipient = built.recipient ∧
        Cpp.lower tx.data = built.data) ∧
    (∀ intent (d : Ts.Deployment) wallet, IsPool d.pool →
      ((∃ tx, Ts.buildTransaction lower intent d wallet = .ok tx) ↔
        ∃ tx, Ts.validateTransaction lower tx intent d wallet = .ok ())) ∧
    (∀ tx intent (d : PoolDeployment) wallet, IsPool d.pool →
      (Rust.validateTransaction lower tx intent d wallet = .ok () ↔
        Ts.validateTransaction lower tx.toTs intent.toTs d.toTs wallet = .ok ()) ∧
      (Rust.buildTransaction lower intent d wallet = .ok tx ↔
        Ts.buildTransaction lower intent.toTs d.toTs wallet = .ok tx.toTs)) ∧
    (∀ tx (intent : Cpp.Intent) r (d : PoolDeployment) wallet, intent.toRust = some r → IsPool d.pool →
      ((Cpp.validateTransaction tx intent d wallet = .ok () ↔
        Ts.validateTransaction lower tx.toTs r.toTs d.toTs wallet = .ok ()) ↔
        ¬ (Authorized lower tx.toTs r.toTs d.toTs ∧
          ¬ (lower tx.sender = lower wallet ↔ Cpp.lower tx.sender = Cpp.lower wallet)))) ∧
    ∀ (intent : Cpp.Intent) r (d : PoolDeployment) wallet, intent.toRust = some r → IsPool d.pool →
      ((∃ tx, Cpp.buildTransaction intent d wallet = .ok tx) ↔
        ∃ tx, Ts.buildTransaction lower r.toTs d.toTs wallet = .ok tx) := by
  refine ⟨fun tx intent d wallet hp => ts_validate_iff hl hp, fun tx intent d wallet hp => Ts.validate_build hl hi hp,
    fun intent d wallet hp => Ts.exists_build_iff hl hi hp,
    fun tx intent d wallet hp => ⟨?_, rust_build_eq_ok hl hi hp⟩, fun tx intent r d wallet hr hp => ?_,
    fun intent r d wallet hr hp => ?_⟩
  case refine_1 =>
    rw [rust_validate_iff hl hp]
    exact (@ts_validate_iff lower d.toTs tx.toTs intent.toTs wallet () hl hp).symm
  case refine_2 =>
    rw [cpp_validate_iff hl hp hr, ts_validate_iff (d := d.toTs) hl hp]
    tauto
  case refine_3 =>
    have hcpp (s : List Char) : Cpp.lower (Cpp.lower s) = Cpp.lower s := by
      rw [Cpp.lower, Cpp.lower, List.map_map]
      exact List.map_congr_left fun c _ => toLower_toLower c
    simp only [cpp_build_eq hr, rust_build_iff lowerCase_cpp hcpp hp, ts_build_iff (d := d.toTs) hl hi hp]
    constructor
    case mp =>
      rintro ⟨_, hd, recipient, name, ns, hin, _⟩
      exact ⟨_, (chain_iff _).mpr hd, recipient, name, ns, hin, rfl⟩
    case mpr =>
      rintro ⟨_, hd, recipient, name, ns, hin, _⟩
      exact ⟨_, (chain_iff _).mp hd, recipient, name, ns, hin, rfl⟩

theorem signing_exact_approval :
    Ts.validateTransaction accentLower (sampleApproval ['a']).toTs (Rust.Intent.approve 5).toTs sampleDeployment.toTs
      ['A'] = .ok () ∧
    Ts.validateTransaction accentLower (samplePurchase ['a']).toTs (purchaseUntil 1500).toTs sampleDeployment.toTs
      ['A'] = .ok () ∧
    Rust.validateTransaction accentLower (samplePurchase ['a']) (purchaseUntil 1500) sampleDeployment ['A'] = .ok () ∧
    Cpp.validateTransaction (samplePurchase ['a']) ⟨"buy", ⟨3, 8⟩, 7, 5, 1500⟩ sampleDeployment ['A'] = .ok () ∧
    (∃ tx, Cpp.buildTransaction ⟨"buy", ⟨3, 8⟩, 7, 5, 1500⟩ sampleDeployment ['A'] = .ok tx) ∧
    Ts.validateTransaction accentLower (samplePurchase ['a']).toTs (purchaseUntil 2000).toTs sampleDeployment.toTs
      ['A'] ≠ .ok () := by
  obtain ⟨haccept, _, hbuild, hrust, hcpp, hcppBuild⟩ := signing_exact lowerCase_accent accentLower_idem
  have hpurchase := authorized_purchase lowerCase_accent ['a']
  have hts := (haccept _ _ _ ['A'] isPool_sample).mpr ⟨by decide, hpurchase⟩
  refine ⟨(haccept _ _ _ _ isPool_sample).mpr ⟨by decide, authorized_sample lowerCase_accent ['a']⟩, hts,
    (hrust _ _ _ _ isPool_sample).1.mpr hts, ?_, ?_, fun h => ?_⟩
  · refine ((hcpp _ ⟨"buy", ⟨3, 8⟩, 7, 5, 1500⟩ (purchaseUntil 1500) _ _ rfl isPool_sample).mpr ?_).mpr hts
    exact fun h => h.2 ⟨fun _ => by decide, fun _ => by decide⟩
  · exact (hcppBuild ⟨"buy", ⟨3, 8⟩, 7, 5, 1500⟩ _ _ _ rfl isPool_sample).mpr
      ((hbuild _ _ _ isPool_sample).mpr ⟨_, hts⟩)
  · exact late_purchase ((haccept _ _ _ _ isPool_sample).mp h).2

-- A sender and a wallet that differ in the case of a letter beyond ASCII.
theorem signing_diverges :
    Ts.validateTransaction accentLower (sampleApproval ['é']).toTs (Rust.Intent.approve 5).toTs sampleDeployment.toTs
      ['É'] = .ok () ∧
    Rust.validateTransaction accentLower (sampleApproval ['é']) (.approve 5) sampleDeployment ['É'] = .ok () ∧
    Cpp.validateTransaction (sampleApproval ['é']) ⟨"approve", ⟨0, 0⟩, 0, 5, 0⟩ sampleDeployment ['É'] =
      .error (refuse "the signer is not the agent wallet") := by
  have ha := authorized_sample lowerCase_accent ['é']
  refine ⟨?_, ?_, ?_⟩
  · exact (ts_validate_iff (d := sampleDeployment.toTs) lowerCase_accent isPool_sample).mpr ⟨by decide, ha⟩
  · exact (rust_validate_iff lowerCase_accent isPool_sample).mpr ⟨by decide, ha⟩
  · rw [Cpp.validateTransaction, refuseWhen, if_neg (by decide), ok_bind, refuseWhen, if_neg (by decide), ok_bind,
      refuseWhen, if_pos (by decide), error_bind]

end Languages

end Sdk
