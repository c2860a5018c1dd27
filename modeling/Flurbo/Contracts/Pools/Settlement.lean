import Flurbo.Contracts.Pools.Trades

-- Resolving a pool and redeeming its claims.

open Evm Except FactoredPositions
open FactoredCost (project)

namespace Pools

variable {D : Dependencies} {ε : Type}

section Burn

variable {events scope mask quantity : ℕ} {f f' : Factor} {factors factors' : List Factor}
  {self book : Book} {owner : Address} {absent : Sol (List Factor)}

theorem burnTable_eq_ok (h : FactoredPool.burnTable mask quantity f = .ok f') :
    f'.scope = f.scope ∧ f'.values.length = f.values.length ∧ ∀ j < f.values.length,
      Moved false (if mask.testBit j then quantity else 0) (f.entry j) (f'.values.getD j 0) := by
  simp only [FactoredPool.burnTable, bind_eq_ok, pure_eq_ok, ok.injEq] at h
  obtain ⟨values, hv, rfl⟩ := h
  obtain ⟨hl, hv⟩ := table_eq_ok.mp hv
  refine ⟨rfl, hl, fun j hj => ?_⟩
  have := hv j hj
  simp only [bind_eq_ok, nth_eq_ok_getD, Nat.one_shiftLeft, Bits.and_two_pow_ne_zero] at this
  obtain ⟨_, ⟨_, rfl⟩, h⟩ := this
  unfold Moved Factor.entry
  split_ifs at h ⊢ <;> (simp_all; try omega)

theorem burnTable_ok (h : ∀ j < f.values.length, mask.testBit j → quantity ≤ f.entry j) :
    ∃ f', FactoredPool.burnTable mask quantity f = .ok f' := by
  have hv : ∃ values, (List.range f.values.length).mapM (fun j => do
      let value ← nth f.values j
      if mask &&& 1 <<< j ≠ 0 then checkedSub value quantity else return value) = .ok values := by
    refine table_ok fun j hj => ?_
    rw [nth_eq_ok_getD.mpr ⟨hj, rfl⟩, ok_bind, Nat.one_shiftLeft]
    simp only [Bits.and_two_pow_ne_zero]
    split
    case isTrue hb => exact ⟨_, checkedSub_eq_ok.mpr ⟨h j hj hb, rfl⟩⟩
    case isFalse   => exact ⟨_, rfl⟩
  have ⟨values, hv⟩ := hv
  exact ⟨{ f with values }, by rw [FactoredPool.burnTable, hv]; rfl⟩

-- A holder's claim can be taken out of the tables.
theorem burn_ok (h : Tally events factors self) (hq : 0 < quantity)
    (hle : quantity ≤ self owner ⟨scope, mask⟩) (he : events ≤ 32) :
    ∃ factors', ∀ absent,
      onTable scope (FactoredPool.burnTable mask quantity) absent factors = .ok factors' := by
  have ⟨hv, hs⟩ := h.stored owner ⟨scope, mask⟩ (by omega)
  have ⟨f, hf, hfs⟩ := List.mem_map.mp hs
  dsimp only at hfs
  have ⟨l, r, hlr, hd⟩ := h.split hf
  have hlt : scope < 2 ^ 32 :=
    hfs ▸ (h.scope_lt f hf).trans_le (Nat.pow_le_pow_right (by decide) he)
  have hentry : ∀ j < f.values.length, mask.testBit j → quantity ≤ f.entry j := by
    intro j hj hb
    rw [h.entry f hf j hj, hfs]
    exact hle.trans <| le_held hv hlt hb
  have ⟨f', hf'⟩ := burnTable_ok hentry
  exact ⟨_, fun _ => hlr ▸ onTable_of_mem (fun g hg => hfs ▸ hd g (by simp [hg])) hfs hf'⟩

theorem burn_tally (h : Tally events factors self)
    (hd : debit self owner scope mask quantity = .ok book)
    (hb : onTable scope (FactoredPool.burnTable mask quantity) absent factors = .ok factors')
    (he : events ≤ 32) : Tally events factors' book := by
  have ⟨hq, hv, hle, _⟩ := debit_eq_ok.mp hd
  obtain ⟨_, hn, _, _⟩ | ⟨l, f, ⟨_, values⟩, r, hfs, ha, hf, rfl⟩ := onTable_eq_ok hb
  · have ⟨f, hf, hfs⟩ := List.mem_map.mp (h.stored owner ⟨scope, mask⟩ (by omega)).right
    exact absurd hfs (hn f hf)
  · obtain ⟨hs, hl, hm⟩ := burnTable_eq_ok ha
    dsimp only at hs hl hm
    rw [hs, hfs]
    have hmem : f ∈ factors := by simp [hf]
    have hd' : trade self owner scope mask quantity false = .ok book := hd
    refine h.replace_at hf hfs hv hl (fun j hj => ?_) (fun j hj => hm j (hl ▸ hj)) hd' he
    have := hm j (hl ▸ hj)
    have := h.entry_lt f hmem j (hl ▸ hj)
    simp only [Moved, Bool.false_eq_true, if_false] at *
    omega

end Burn

section Payout

variable {factors : List Factor} {states : List ℕ} {state width init r : ℕ}

-- The loop that adds up what the tables owe in a terminal state.
theorem payout_eq_ok (hi : init < 2 ^ width) :
    factors.foldlM (fun payout f => do
      checkedAdd width payout (← nth f.values (project f.scope state))) init = .ok r ↔
    (∀ f ∈ factors, project f.scope state < f.values.length) ∧
      init + liability factors state < 2 ^ width ∧ init + liability factors state = r := by
  induction factors generalizing init
  case nil               => simp [liability, hi]
  case cons f factors ih =>
    simp only [List.foldlM_cons, bind_eq_ok, nth_eq_ok_getD, checkedAdd_eq_ok, List.forall_mem_cons,
      liability, List.map_cons, List.sum_cons, ← add_assoc]
    constructor
    case mp =>
      rintro ⟨_, ⟨_, ⟨hp, rfl⟩, hlt, rfl⟩, h⟩
      obtain ⟨h₁, h₂⟩ := (ih hlt).mp h
      exact ⟨⟨hp, h₁⟩, h₂⟩
    case mpr =>
      rintro ⟨⟨hp, h₁⟩, h₂, h₃⟩
      have hlt : init + f.values.getD (project f.scope state) 0 < 2 ^ width :=
        (Nat.le_add_right ..).trans_lt h₂
      exact ⟨_, ⟨_, ⟨hp, rfl⟩, hlt, rfl⟩, (ih hlt).mpr ⟨h₁, h₂, h₃⟩⟩

-- The same over several terminal states.
theorem payouts_eq_ok (hi : init < 2 ^ width) :
    states.foldlM (fun total state => factors.foldlM (fun total f => do
      checkedAdd width total (← nth f.values (project f.scope state))) total) init = .ok r ↔
    (∀ state ∈ states, ∀ f ∈ factors, project f.scope state < f.values.length) ∧
      init + (states.map (liability factors)).sum < 2 ^ width ∧
      init + (states.map (liability factors)).sum = r := by
  induction states generalizing init
  case nil                  => simp [hi]
  case cons state states ih =>
    simp only [List.foldlM_cons, bind_eq_ok, payout_eq_ok hi, List.forall_mem_cons, List.map_cons,
      List.sum_cons, ← add_assoc]
    constructor
    case mp =>
      rintro ⟨_, ⟨hp, hlt, rfl⟩, h⟩
      obtain ⟨h₁, h₂⟩ := (ih hlt).mp h
      exact ⟨⟨hp, h₁⟩, h₂⟩
    case mpr =>
      rintro ⟨⟨hp, h₁⟩, h₂, h₃⟩
      have hlt : init + liability factors state < 2 ^ width := (Nat.le_add_right ..).trans_lt h₂
      exact ⟨_, ⟨hp, hlt, rfl⟩, (ih hlt).mpr ⟨h₁, h₂, h₃⟩⟩

end Payout

section Resolve

variable {cfg : Config} {msg : Msg cfg.self} {w w' : World D ε} {terminalState yesMask invalidMask : ℕ}

-- What a resolution did: it settled the payout and the outcome, and nothing else.
structure Resolved (cfg : Config) (timestamp payout state : ℕ) (ext : ε) (w w' : World D ε) :
    Prop where
  funded     : w.pool.funded
  unresolved : w.pool.resolved = false
  closed     : cfg.closesAt ≤ timestamp
  eq         : w' = { w with pool := { w.pool with
                 remainingPayout := payout, resolvedState := state, resolved := true, ext } }

theorem FactoredPool.resolve_eq_ok (h : resolve cfg msg terminalState w = .ok w') :
    terminalState < 2 ^ cfg.eventCount ∧
      Resolved cfg msg.timestamp (liability w.pool.storedFactors terminalState) terminalState
        w.pool.ext w w' := by
  simp only [resolve, bind_eq_ok, revertIf_eq_ok, payout_eq_ok (Nat.two_pow_pos 128), pure_eq_ok,
    ok.injEq, Nat.shiftRight_eq_div_pow, Nat.div_eq_zero_iff_lt (Nat.two_pow_pos _), not_not, not_lt,
    Nat.zero_add] at h
  obtain ⟨_, _, _, hf, _, hr, _, hc, _, hs, _, ⟨_, _, rfl⟩, rfl⟩ := h
  exact ⟨hs, hf, by simpa using hr, hc, rfl⟩

namespace PilotPool

theorem mem_completions {state : ℕ} :
    state ∈ completions cfg yesMask invalidMask ↔
      state < 2 ^ cfg.eventCount ∧ state &&& ((2 ^ cfg.eventCount - 1) ^^^ invalidMask) = yesMask := by
  simp [completions, Nat.one_shiftLeft]

-- The known outcomes, with the void events set to no, are a completion of themselves.
theorem yesMask_mem (hd : yesMask &&& invalidMask = 0) (hlt : yesMask < 2 ^ cfg.eventCount) :
    yesMask ∈ completions cfg yesMask invalidMask := by
  refine mem_completions.mpr ⟨hlt, Nat.eq_of_testBit_eq fun i => ?_⟩
  have hi := congrArg (Nat.testBit · i) hd
  simp only [Nat.testBit_and, Nat.zero_testBit, Nat.testBit_xor, Nat.testBit_two_pow_sub_one] at hi ⊢
  by_cases he : i < cfg.eventCount
  case pos => simp [he]; grind
  case neg => simp [Bits.testBit_eq_false hlt (not_lt.mp he)]

theorem resolve_eq_ok {w w' : World D Void} (h : resolve cfg msg yesMask invalidMask w = .ok w') :
    let states := completions cfg yesMask invalidMask
    yesMask &&& invalidMask = 0 ∧ yesMask < 2 ^ cfg.eventCount ∧ invalidMask < 2 ^ cfg.eventCount ∧
      Resolved cfg msg.timestamp
        (truncate 128 ((states.map (liability w.pool.storedFactors)).sum ⌈/⌉ states.length))
        yesMask ⟨invalidMask⟩ w w' := by
  simp only [resolve, bind_eq_ok, revertIf_eq_ok, pure_eq_ok, ok.injEq, checkedAdd_eq_ok,
    checkedSub_eq_ok, checkedDiv_eq_ok, not_or, not_not, not_lt, Nat.shiftRight_eq_div_pow,
    Nat.div_eq_zero_iff_lt (Nat.two_pow_pos _)] at h
  obtain ⟨_, _, _, ⟨hf, hr, hc, hd, hlt⟩, total, ht, _, ⟨_, rfl⟩, _, ⟨_, rfl⟩, _, ⟨_, rfl⟩, rfl⟩ := h
  obtain ⟨_, _, rfl⟩ := (payouts_eq_ok (Nat.two_pow_pos 256)).mp ht
  refine ⟨hd, Nat.left_le_or.trans_lt hlt, Nat.right_le_or.trans_lt hlt, hf, by simpa using hr, hc, ?_⟩
  rw [Nat.ceilDiv_eq_add_pred_div, Nat.zero_add]

end PilotPool

end Resolve

section Redeem

variable {V : Virtuals D ε} {cfg : Config} {msg : Msg cfg.self} {w w' : World D ε}
  {scope mask quantity paid terminalState : ℕ}

-- What a redemption did: the claim left both ledgers, and `paid` was taken out of the payout.
structure Redeemed (cfg : Config) (owner : Address) (scope mask quantity paid : ℕ)
    (w w' : World D ε) : Prop where
  resolved : w.pool.resolved
  position : debit w.pool.positions owner scope mask quantity = .ok w'.pool.positions
  burnt    : ∃ absent, onTable scope (FactoredPool.burnTable mask quantity) absent
               w.pool.storedFactors = .ok w'.pool.storedFactors
  payout   : w'.pool.remainingPayout + paid = w.pool.remainingPayout
  balance  : w'.balance cfg.self + paid = w.balance cfg.self
  frame    : w'.pool = { w.pool with positions       := w'.pool.positions,
                                     storedFactors   := w'.pool.storedFactors,
                                     remainingPayout := w'.pool.remainingPayout }

theorem Redeemed.tally {owner : Address} (h : Redeemed cfg owner scope mask quantity paid w w')
    (ht : Tally cfg.eventCount w.pool.storedFactors w.pool.positions) (he : cfg.eventCount ≤ 32) :
    Tally cfg.eventCount w'.pool.storedFactors w'.pool.positions :=
  have ⟨_, hb⟩ := h.burnt
  burn_tally ht h.position hb he

theorem Redeemed.scope_lt {owner : Address} (h : Redeemed cfg owner scope mask quantity paid w w')
    (ht : Tally cfg.eventCount w.pool.storedFactors w.pool.positions) (he : cfg.eventCount ≤ 32) :
    scope < 2 ^ 32 := by
  have ⟨hq, _, hle, _⟩ := debit_eq_ok.mp h.position
  have hc : w.pool.positions owner ⟨scope, mask⟩ ≠ 0 := by omega
  exact (Claim.mem_all.mp (ht.mem_all hc he)).left

theorem FactoredPool.redeem_eq_ok
    (h : redeem V cfg msg scope mask quantity w = .ok (w', paid)) :
    Redeemed cfg msg.sender scope mask quantity paid w w' ∧
      paid = if mask.testBit (project scope w.pool.resolvedState) then quantity else 0 := by
  simp only [redeem, payWinner, burnLiability, bind_eq_ok, revertIf_eq_ok, pure_eq_ok, ok.injEq,
    Prod.mk.injEq, Nat.one_shiftLeft, Bits.and_two_pow_ne_zero, not_not] at h
  obtain ⟨_, hr, _, _, book, hd, factors', hb, ⟨w₁, p⟩, hpay, _, _, rfl, rfl⟩ := h
  split at hpay
  case isTrue hw =>
    simp only [bind_eq_ok, checkedSub_eq_ok, ok.injEq, Prod.mk.injEq] at hpay
    obtain ⟨_, ⟨hle, rfl⟩, token, ht, rfl, rfl⟩ := hpay
    rw [if_pos hw]
    exact ⟨⟨hr, hd, ⟨_, hb⟩, Nat.sub_add_cancel hle, transferExact_out ht, rfl⟩, rfl⟩
  case isFalse hw =>
    simp only [ok.injEq, Prod.mk.injEq] at hpay
    obtain ⟨rfl, rfl⟩ := hpay
    rw [if_neg hw]
    exact ⟨⟨hr, hd, ⟨_, hb⟩, rfl, rfl, rfl⟩, rfl⟩
-- The state of a resolved pool: what is left to be paid is what is owed in the outcome, and the
-- collateral covers it.
structure Settled (cfg : Config) (w : World D ε) : Prop where
  tally    : Tally cfg.eventCount w.pool.storedFactors w.pool.positions
  resolved : w.pool.resolved
  payout   : w.pool.remainingPayout = owed w.pool.positions w.pool.resolvedState
  balance  : w.pool.remainingPayout ≤ w.balance cfg.self

theorem Resolved.settled {timestamp : ℕ} {ext : ε}
    (h : Resolved cfg timestamp (liability w.pool.storedFactors terminalState) terminalState ext w w')
    (ht : Tally cfg.eventCount w.pool.storedFactors w.pool.positions) (he : cfg.eventCount ≤ 32)
    (hb : liability w.pool.storedFactors terminalState ≤ w.balance cfg.self) : Settled cfg w' := by
  rw [h.eq]
  exact ⟨ht, rfl, congrFun (ht.liability_eq_owed he) terminalState, hb⟩

theorem Settled.redeemed {owner : Address} (h : Settled cfg w)
    (hr : Redeemed cfg owner scope mask quantity paid w w')
    (hp : paid = if mask.testBit (project scope w.pool.resolvedState) then quantity else 0)
    (he : cfg.eventCount ≤ 32) : Settled cfg w' := by
  have ht := hr.tally h.tally he
  have hs := hr.scope_lt h.tally he
  have howed : owed w'.pool.positions w.pool.resolvedState + paid =
      owed w.pool.positions w.pool.resolvedState := by
    have := weigh_debit (w := fun c => (c.pays w.pool.resolvedState).toNat) hr.position hs
    rw [owed, owed, ← this, hp, Claim.pays]
    cases mask.testBit (project scope w.pool.resolvedState) <;> simp
  have hpayout := hr.payout
  have hbalance := hr.balance
  have hpaid := h.payout
  have hcovered := h.balance
  have hstate : w'.pool.resolvedState = w.pool.resolvedState := by rw [hr.frame]
  have hresolved : w'.pool.resolved = w.pool.resolved := by rw [hr.frame]
  exact ⟨ht, hresolved ▸ h.resolved, by rw [hstate]; omega, by omega⟩

theorem Settled.passive (h : Settled cfg w) (hp : Passive cfg w w')
    (ht : Tally cfg.eventCount w'.pool.storedFactors w'.pool.positions) : Settled cfg w' := by
  have ⟨positions, baseTokens, hf⟩ := hp.frame
  have htotal := hp.totals fun c => (c.pays w.pool.resolvedState).toNat
  constructor
  case tally    => exact ht
  case resolved => rw [hf]; exact h.resolved
  case payout   =>
    have hstate : w'.pool.resolvedState = w.pool.resolvedState := by rw [hf]
    rw [hstate, owed, htotal, hf]
    exact h.payout
  case balance  =>
    have hpaid : w'.pool.remainingPayout = w.pool.remainingPayout := by rw [hf]
    exact hpaid ▸ h.balance.trans hp.balance

theorem FactoredPool.step_settled {bias : ε → List Factor} {call : Call D}
    (h : step V cfg w (msg, call) = .ok w') (hs : Settled cfg w) (hV : V.Sound cfg bias)
    (he : cfg.eventCount ≤ 32) (hc : cfg.closesAt ≤ msg.timestamp) : Settled cfg w' := by
  cases call
  case action a                   =>
    have ha := act_eq_ok h
    exact hs.passive (ha.passive hc he) (ha.tally hV hs.tally he)
  case resolve terminalState      =>
    have ⟨_, hr⟩ := resolve_eq_ok h
    exact absurd hs.resolved (by simp [hr.unresolved])
  case redeem scope mask quantity =>
    obtain ⟨⟨_, _⟩, hr, rfl⟩ := map_eq_ok.mp h
    have ⟨hr, hp⟩ := redeem_eq_ok hr
    exact hs.redeemed hr hp he

namespace PilotPool

-- How many of the completions a claim pays in, and how many there are.

def numerator (cfg : Config) (s : Storage D Void) (c : Claim) : ℕ :=
  ((completions cfg s.resolvedState s.ext.voidMask).filter (c.pays ·)).length

def denominator (cfg : Config) (s : Storage D Void) : ℕ :=
  (completions cfg s.resolvedState s.ext.voidMask).length

variable {w w' : World D Void} {s : Storage D Void} {n d : ℕ}

theorem numerator_le (c : Claim) : numerator cfg s c ≤ denominator cfg s :=
  List.length_filter_le ..

theorem denominator_le : denominator cfg s ≤ 2 ^ cfg.eventCount := by
  refine (List.length_filter_le ..).trans_eq ?_
  rw [List.length_range, Nat.one_shiftLeft]

theorem payoutFraction_eq_ok :
    payoutFraction cfg scope mask s = .ok (n, d) ↔
      s.resolved ∧ Claim.Valid ⟨scope, mask⟩ ∧ scope < 2 ^ cfg.eventCount ∧
        n = numerator cfg s ⟨scope, mask⟩ ∧ d = denominator cfg s := by
  simp only [payoutFraction, bind_eq_ok, revertIf_eq_ok, key_eq_ok, pure_eq_ok, ok.injEq, Prod.mk.injEq,
    Nat.shiftRight_eq_div_pow, Nat.div_eq_zero_iff_lt (Nat.two_pow_pos _), not_not, Nat.one_shiftLeft,
    Bits.and_two_pow_ne_zero, Bool.decide_eq_true]
  constructor
  case mp  => rintro ⟨_, h₁, _, ⟨h₂, rfl⟩, _, h₃, rfl, rfl⟩; exact ⟨h₁, h₂, h₃, rfl, rfl⟩
  case mpr => rintro ⟨h₁, h₂, h₃, rfl, rfl⟩; exact ⟨(), h₁, _, ⟨h₂, rfl⟩, (), h₃, rfl, rfl⟩

theorem redeem_eq_ok (h : redeem cfg msg scope mask quantity w = .ok (w', paid)) :
    Redeemed cfg msg.sender scope mask quantity paid w w' ∧
      paid = truncate 128 (quantity * numerator cfg w.pool ⟨scope, mask⟩ / denominator cfg w.pool) := by
  simp only [redeem, burnLiability, bind_eq_ok, payoutFraction_eq_ok, checkedMul_eq_ok, checkedDiv_eq_ok,
    checkedSub_eq_ok, pure_eq_ok, ok.injEq, Prod.mk.injEq, Prod.exists] at h
  obtain ⟨_, _, ⟨hr, _, _, rfl, rfl⟩, _, _, book, hd, factors', hb, _, ⟨_, rfl⟩, _, ⟨_, rfl⟩, _,
    ⟨hle, rfl⟩, token, ht, _, _, rfl, rfl⟩ := h
  exact ⟨⟨hr, hd, ⟨_, hb⟩, Nat.sub_add_cancel hle, transferNonzero_out ht, rfl⟩, rfl⟩

end PilotPool

end Redeem

section Step

variable {V : Virtuals D ε} {cfg : Config} {bias : ε → List Factor} {msg : Msg cfg.self}
  {w w' : World D ε} {P : World D ε → Prop}

-- What holds in all reachable states: the ledgers agree, and `P` until the pool is resolved.
structure Live (cfg : Config) (P : World D ε → Prop) (w : World D ε) : Prop where
  tally      : Tally cfg.eventCount w.pool.storedFactors w.pool.positions
  unresolved : w.pool.resolved = false → P w

namespace Live

theorem initial {token : D.collateral.State} {ext : ε} (h : P ⟨token, Storage.initial ext⟩) :
    Live cfg P ⟨token, Storage.initial ext⟩ :=
  ⟨Tally.empty, fun _ => h⟩

theorem acted (h : Live cfg P w) (ha : Acted V cfg msg w w') (hV : V.Sound cfg bias)
    (he : cfg.eventCount ≤ 32) (hP : P w → P w') : Live cfg P w' where
  tally         := ha.tally hV h.tally he
  unresolved hn := hP <| h.unresolved <| (ha.resolved hV h.tally).symm.trans hn

theorem resolved {timestamp payout state : ℕ} {ext : ε} (h : Live cfg P w)
    (hr : Resolved cfg timestamp payout state ext w w') : Live cfg P w' := by
  rw [hr.eq]
  exact ⟨h.tally, fun hn => absurd hn (by simp)⟩

theorem redeemed {owner : Address} {scope mask quantity paid : ℕ} (h : Live cfg P w)
    (hr : Redeemed cfg owner scope mask quantity paid w w') (he : cfg.eventCount ≤ 32) :
    Live cfg P w' where
  tally         := hr.tally h.tally he
  unresolved hn := by
    rw [hr.frame] at hn
    exact absurd hr.resolved (by simpa using hn)

end Live

theorem FactoredPool.step_live {call : Call D} (hs : step V cfg w (msg, call) = .ok w')
    (h : Live cfg P w) (hV : V.Sound cfg bias) (he : cfg.eventCount ≤ 32)
    (hP : ∀ {w w'}, Acted V cfg msg w w' → P w → P w') : Live cfg P w' := by
  cases call
  case action a                   =>
    have ha := act_eq_ok hs
    exact h.acted ha hV he (hP ha)
  case resolve terminalState      =>
    have ⟨_, hr⟩ := resolve_eq_ok hs
    exact h.resolved hr
  case redeem scope mask quantity =>
    obtain ⟨⟨_, _⟩, hr, rfl⟩ := map_eq_ok.mp hs
    exact h.redeemed (redeem_eq_ok hr).left he

theorem PilotPool.step_live {w w' : World D Void} {P : World D Void → Prop} {call : Call D}
    (hs : step cfg w (msg, call) = .ok w') (h : Live cfg P w) (he : cfg.eventCount ≤ 32)
    (hP : ∀ {w w'}, Acted (uniform cfg) cfg msg w w' → P w → P w') : Live cfg P w' := by
  cases call
  case action a                    =>
    have ha := act_eq_ok hs
    exact h.acted ha uniform_sound he (hP ha)
  case resolve yesMask invalidMask =>
    have ⟨_, _, _, hr⟩ := resolve_eq_ok hs
    exact h.resolved hr
  case redeem scope mask quantity  =>
    obtain ⟨⟨_, _⟩, hr, rfl⟩ := map_eq_ok.mp hs
    exact h.redeemed (redeem_eq_ok hr).left he

end Step

end Pools
