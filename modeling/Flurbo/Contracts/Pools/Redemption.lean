import Flurbo.Contracts.Pools.Settlement
import Flurbo.Contracts.Pools.Solvency

-- Redemption from a pool that was resolved with void events. The payout that is set aside is the
-- mean over the completions of the outcome, rounded up, and every redemption is rounded down.

open Evm Except FactoredPositions
open FactoredCost (maximumLiability)

namespace Pools.PilotPool

variable {D : Dependencies} {cfg : Config} {msg : Msg cfg.self} {w w' : World D Void}
  {yesMask invalidMask scope mask quantity paid : ℕ} {owner : Address}

-- What all claims would be paid together, without any rounding, in units of the denominator.
def claimed (cfg : Config) (s : Storage D Void) : ℕ :=
  Holdings.weigh Claim.all (numerator cfg s) s.positions

-- What is set aside covers what all claims would be paid, and the collateral covers it.
structure Paying (cfg : Config) (w : World D Void) : Prop where
  tally    : Tally cfg.eventCount w.pool.storedFactors w.pool.positions
  resolved : w.pool.resolved
  pos      : 0 < denominator cfg w.pool
  payout   : claimed cfg w.pool ≤ w.pool.remainingPayout * denominator cfg w.pool
  balance  : w.pool.remainingPayout ≤ w.balance cfg.self

-- Summed over the completions, the tables owe what all claims would be paid.
theorem sum_liability {events : ℕ} {factors : List Factor} {book : Book} (states : List ℕ)
    (ht : Tally events factors book) (he : events ≤ 32) :
    (states.map (liability factors)).sum =
      Holdings.weigh Claim.all (fun c => (states.filter (c.pays ·)).length) book := by
  have hcount (c : Claim) : (states.filter (c.pays ·)).length =
      (states.map fun x => (c.pays x).toNat).sum := by
    induction states
    case nil            => rfl
    case cons x xs hi => cases h : c.pays x <;> simp [h, hi, add_comm]
  rw [ht.liability_eq_owed he, funext hcount, Holdings.weigh_list_sum]
  rfl

theorem denominator_eq (h : Resolved cfg msg.timestamp paid yesMask ⟨invalidMask⟩ w w') :
    denominator cfg w'.pool = (completions cfg yesMask invalidMask).length := by
  rw [h.eq]
  rfl

-- The mean over some terminal states, rounded up.
def meanPayout (states : List ℕ) (factors : List Factor) : ℕ :=
  (states.map (liability factors)).sum ⌈/⌉ states.length

theorem meanPayout_le {states : List ℕ} {factors : List Factor}
    (h : ∀ x ∈ states, x < 2 ^ cfg.eventCount) (hpos : 0 < states.length) :
    meanPayout states factors ≤ maximumLiability cfg.eventCount factors := by
  rw [meanPayout, Rounding.ceilDiv_le_iff hpos, ← smul_eq_mul, ← List.length_map (f := liability factors)]
  apply List.sum_le_card_nsmul
  intro x hx
  obtain ⟨state, hs, rfl⟩ := List.mem_map.mp hx
  exact FactoredCost.le_maximumLiability (h state hs)

-- The reserve of a resolution is the exact mean, and at most the exact liability before.
theorem resolve_paying (h : Solvent cfg (fun _ => []) w) (he : cfg.eventCount ≤ 32)
    (hr : resolve cfg msg yesMask invalidMask w = .ok w') :
    Paying cfg w' ∧ w'.pool.remainingPayout ≤ w.pool.maximumLiability ∧ w'.pool.remainingPayout =
      meanPayout (completions cfg yesMask invalidMask) w.pool.storedFactors := by
  have ⟨hd, hy, _, hr⟩ := resolve_eq_ok hr
  have hpos : 0 < (completions cfg yesMask invalidMask).length :=
    List.length_pos_of_mem (yesMask_mem hd hy)
  have hle : meanPayout (completions cfg yesMask invalidMask) w.pool.storedFactors ≤
      maximumLiability cfg.eventCount w.pool.storedFactors :=
    meanPayout_le (fun x hx => (mem_completions.mp hx).left) hpos
  rw [← h.maximum_eq] at hle
  have ht : w'.pool.remainingPayout =
      meanPayout (completions cfg yesMask invalidMask) w.pool.storedFactors := by
    rw [hr.eq]
    exact truncate_of_lt (hle.trans_lt h.maximum_lt)
  refine ⟨⟨?_, ?_, ?_, ?_, ?_⟩, ht ▸ hle, ht⟩
  · rw [hr.eq]; exact h.tally
  · rw [hr.eq]
  · rw [denominator_eq hr]; exact hpos
  · have hsum := sum_liability (completions cfg yesMask invalidMask) h.tally he
    rw [ht, denominator_eq hr, mul_comm]
    refine le_trans (le_of_eq ?_) (Rounding.le_mul_ceilDiv hpos)
    rw [hsum, claimed, hr.eq]
    rfl
  · have hb : w'.balance cfg.self = w.balance cfg.self := by rw [hr.eq]; rfl
    rw [ht, hb]
    exact hle.trans (h.maximum_le_balance hr.funded)

namespace Paying

-- A redemption takes at most its share out of the reserve.
theorem redeemed (h : Paying cfg w) (he : cfg.eventCount ≤ 32)
    (hr : Redeemed cfg owner scope mask quantity paid w w')
    (hp : paid * denominator cfg w.pool ≤ quantity * numerator cfg w.pool ⟨scope, mask⟩) :
    Paying cfg w' := by
  have hn : numerator cfg w'.pool = numerator cfg w.pool := by rw [hr.frame]; rfl
  have hd : denominator cfg w'.pool = denominator cfg w.pool := by rw [hr.frame]; rfl
  have hs := hr.scope_lt h.tally he
  have hclaimed := weigh_debit (w := numerator cfg w.pool) hr.position hs
  have hpayout := h.payout
  have hbalance := h.balance
  have hb := hr.balance
  refine ⟨hr.tally h.tally he, by rw [hr.frame]; exact h.resolved, hd ▸ h.pos, ?_, ?_⟩
  · rw [← hr.payout, Nat.add_mul] at hpayout
    unfold claimed at hpayout ⊢
    rw [hn, hd]
    rw [mul_comm quantity] at hp
    omega
  · have := hr.payout
    omega

theorem passive (h : Paying cfg w) (hp : Passive cfg w w')
    (ht : Tally cfg.eventCount w'.pool.storedFactors w'.pool.positions) : Paying cfg w' := by
  have ⟨positions, baseTokens, hf⟩ := hp.frame
  have hn : numerator cfg w'.pool = numerator cfg w.pool := by rw [hf]; rfl
  have hd : denominator cfg w'.pool = denominator cfg w.pool := by rw [hf]; rfl
  have hr : w'.pool.remainingPayout = w.pool.remainingPayout := by rw [hf]
  refine ⟨ht, by rw [hf]; exact h.resolved, hd ▸ h.pos, ?_, hr ▸ h.balance.trans hp.balance⟩
  rw [claimed, hn, hp.totals, hr, hd]
  exact h.payout

-- All outstanding claims could be redeemed at once.
theorem sum_le (h : Paying cfg w) (he : cfg.eventCount ≤ 32) (K : Finset Claim) :
    ∑ owner, ∑ c ∈ K, w.pool.positions owner c * numerator cfg w.pool c / denominator cfg w.pool ≤
      w.pool.remainingPayout := by
  have hall (owner : Address) : ∑ c ∈ K, w.pool.positions owner c * numerator cfg w.pool c /
      denominator cfg w.pool ≤ ∑ c ∈ Claim.all, numerator cfg w.pool c * w.pool.positions owner c /
        denominator cfg w.pool := by
    simp only [mul_comm (w.pool.positions owner _)]
    refine Finset.sum_le_sum_of_ne_zero fun c _ hc => ?_
    have ho : w.pool.positions owner c ≠ 0 := by
      intro hz
      simp [hz] at hc
    exact h.tally.mem_all ho he
  calc ∑ owner, ∑ c ∈ K, w.pool.positions owner c * numerator cfg w.pool c / denominator cfg w.pool
    _ ≤ ∑ owner, ∑ c ∈ Claim.all, numerator cfg w.pool c * w.pool.positions owner c /
          denominator cfg w.pool                := Finset.sum_le_sum fun owner _ => hall owner
    _ ≤ claimed cfg w.pool / denominator cfg w.pool := Holdings.sum_div_le h.pos
    _ ≤ w.pool.remainingPayout                  := Nat.div_le_of_le_mul (by rw [mul_comm]; exact h.payout)

theorem share_le (h : Paying cfg w) (he : cfg.eventCount ≤ 32) (hq : 0 < quantity)
    (hle : quantity ≤ w.pool.positions owner ⟨scope, mask⟩) :
    quantity * numerator cfg w.pool ⟨scope, mask⟩ / denominator cfg w.pool ≤
      w.pool.remainingPayout := by
  refine Nat.div_le_of_le_mul ?_
  have hm := h.tally.mem_all (show w.pool.positions owner ⟨scope, mask⟩ ≠ 0 by omega) he
  calc quantity * numerator cfg w.pool ⟨scope, mask⟩
    _ ≤ w.pool.positions owner ⟨scope, mask⟩ * numerator cfg w.pool ⟨scope, mask⟩ :=
      Nat.mul_le_mul_right _ hle
    _ ≤ claimed cfg w.pool := by
      rw [mul_comm]
      exact Holdings.le_weigh (numerator cfg w.pool) w.pool.positions owner hm
    _ ≤ denominator cfg w.pool * w.pool.remainingPayout := by
      rw [mul_comm]
      exact h.payout

-- What an owner holds can be redeemed, in any part, and pays its share exactly.
theorem redeem_ok (h : Paying cfg w) (he : cfg.eventCount ≤ 32) (hq : 0 < quantity)
    (hle : quantity ≤ w.pool.positions msg.sender ⟨scope, mask⟩) :
    ∃ n d w', payoutFraction cfg scope mask w.pool = .ok (n, d) ∧
      redeem cfg msg scope mask quantity w = .ok (w', quantity * n / d) ∧
      w'.pool.remainingPayout + quantity * n / d = w.pool.remainingPayout := by
  have ho : w.pool.positions msg.sender ⟨scope, mask⟩ ≠ 0 := by omega
  obtain ⟨hv, _⟩ := h.tally.stored msg.sender ⟨scope, mask⟩ ho
  have hcov : requireCovered (uniform cfg) cfg w = .ok () := by
    rw [requireCovered_eq_ok]
    simpa [uniform, requiredCollateral, h.resolved] using h.balance
  have hd := debit_eq_ok.mpr ⟨by omega, hv, hle, rfl⟩
  obtain ⟨factors, hb⟩ := burn_ok h.tally hq hle he
  have hlt : quantity < 2 ^ 128 := hle.trans_lt (h.tally.balance_lt he ..)
  have hn : numerator cfg w.pool ⟨scope, mask⟩ ≤ denominator cfg w.pool := numerator_le ⟨scope, mask⟩
  have hdle : denominator cfg w.pool ≤ 2 ^ 32 := denominator_le.trans (Nat.pow_le_pow_right (by decide) he)
  have hsub := h.share_le he hq hle
  have hf : payoutFraction cfg scope mask w.pool =
      .ok (numerator cfg w.pool ⟨scope, mask⟩, denominator cfg w.pool) :=
    payoutFraction_eq_ok.mpr ⟨h.resolved, hv, h.tally.held_scope_lt ho, rfl, rfl⟩
  have hpos := h.pos
  generalize numerator cfg w.pool ⟨scope, mask⟩ = n at *
  generalize denominator cfg w.pool = d at *
  have hmul : checkedMul 256 quantity n = .ok (quantity * n) :=
    checkedMul_eq_ok.mpr ⟨(Nat.mul_lt_mul'' hlt (by omega : n < 2 ^ 33)).trans (by decide), rfl⟩
  have hdiv : checkedDiv (quantity * n) d = .ok (quantity * n / d) :=
    checkedDiv_eq_ok.mpr ⟨hpos.ne', rfl⟩
  have hpaid : truncate 128 (quantity * n / d) = quantity * n / d := by
    apply truncate_of_lt
    refine lt_of_le_of_lt (Nat.div_le_of_le_mul ?_) hlt
    rw [mul_comm d]
    exact Nat.mul_le_mul_left quantity hn
  obtain ⟨token, ht⟩ := transferNonzero_out_ok msg.ne_target msg.ne_zero (hsub.trans h.balance)
  have hout := transferNonzero_out ht
  let w' : World D Void := ⟨token, { w.pool with
    positions       := Holdings.set w.pool.positions msg.sender ⟨scope, mask⟩
                         (w.pool.positions msg.sender ⟨scope, mask⟩ - quantity)
    storedFactors   := factors
    remainingPayout := w.pool.remainingPayout - quantity * n / d }⟩
  have hcov' : requireCovered (uniform cfg) cfg w' = .ok () := by
    have := h.balance
    rw [requireCovered_eq_ok]
    simp only [w', uniform, requiredCollateral, h.resolved, if_true]
    unfold World.balance at *
    dsimp only
    omega
  refine ⟨n, d, w', hf, ?_, Nat.sub_add_cancel hsub⟩
  simp only [redeem, hf, hcov, hd, burnLiability, hb, hmul, hdiv, hpaid, ht, hcov', ok_bind,
    checkedSub_eq_ok.mpr ⟨hsub, rfl⟩, pure_eq_ok, w']

end Paying

theorem step_paying {call : Call D} (h : Paying cfg w) (he : cfg.eventCount ≤ 32)
    (hc : cfg.closesAt ≤ msg.timestamp) (hs : step cfg w (msg, call) = .ok w') : Paying cfg w' := by
  cases call
  case action a                    =>
    have ha := act_eq_ok hs
    exact h.passive (ha.passive hc he) (ha.tally uniform_sound h.tally he)
  case resolve yesMask invalidMask =>
    have ⟨_, _, _, hr⟩ := resolve_eq_ok hs
    exact absurd h.resolved (by simp [hr.unresolved])
  case redeem scope mask quantity  =>
    obtain ⟨⟨_, paid⟩, hr, rfl⟩ := map_eq_ok.mp hs
    have ⟨hr, hp⟩ := redeem_eq_ok hr
    refine h.redeemed he hr ?_
    calc paid * denominator cfg w.pool
      _ ≤ quantity * numerator cfg w.pool ⟨scope, mask⟩ / denominator cfg w.pool *
            denominator cfg w.pool := Nat.mul_le_mul_right _ (hp ▸ Nat.mod_le ..)
      _ ≤ quantity * numerator cfg w.pool ⟨scope, mask⟩ := Nat.div_mul_le_self ..

-- Every holder can redeem any part of a claim for its exact share, rounded down once, and what is
-- set aside never falls below the shares of all outstanding claims.
structure Redeemable (cfg : Config) (w : World D Void) : Prop where
  redeem : ∀ msg scope mask quantity, 0 < quantity →
             quantity ≤ w.pool.positions msg.sender ⟨scope, mask⟩ →
             ∃ n d w', payoutFraction cfg scope mask w.pool = .ok (n, d) ∧
               redeem cfg msg scope mask quantity w = .ok (w', quantity * n / d) ∧
               w'.pool.remainingPayout + quantity * n / d = w.pool.remainingPayout
  covers : ∀ K : Finset Claim, ∑ owner, ∑ c ∈ K,
             w.pool.positions owner c * numerator cfg w.pool c / denominator cfg w.pool ≤
               w.pool.remainingPayout

-- After any accepted resolution, redemption completes, whatever is redeemed, wrapped or unwrapped
-- in whatever order.
theorem redemption_completes {chain : Chain} {self token resolver : Address}
    {events b closeTime rulesHash : ℕ} {order : List ℕ}
    (h : construct D chain self token events b closeTime order resolver rulesHash = .ok cfg)
    (collateral : D.collateral.State) (calls : List (Msg cfg.self × Call D)) :
    let w := Run.run (step cfg) ⟨collateral, initial⟩ calls
    ∀ msg yesMask invalidMask w', resolve cfg msg yesMask invalidMask w = .ok w' →
      w'.pool.remainingPayout =
        meanPayout (completions cfg yesMask invalidMask) w.pool.storedFactors ∧
      w'.pool.remainingPayout ≤ w.pool.maximumLiability ∧
      ∀ later : List (Msg cfg.self × Call D), (∀ call ∈ later, cfg.closesAt ≤ call.1.timestamp) →
        Redeemable cfg (Run.run (step cfg) w' later) := by
  intro w msg yesMask invalidMask w' hr
  have hc := construct_accepted h
  have he := hc.events_le
  have hlive : Live cfg (Open cfg) w := Run.run_invariant (Live.initial (Open.initial hc))
    fun _ _ _ _ hw hs => step_live hs hw he fun ha h => h.acted hc ha
  have ⟨_, _, _, hres⟩ := resolve_eq_ok hr
  have ⟨hpay, hle, heq⟩ := resolve_paying (hlive.unresolved hres.unresolved).solvent he hr
  refine ⟨heq, hle, fun later hl => ?_⟩
  have hp : Paying cfg (Run.run (step cfg) w' later) := Run.run_invariant hpay
    fun _ _ call hcall hw hs => step_paying hw he (hl call hcall) hs
  exact ⟨fun _ _ _ _ hq hle => hp.redeem_ok he hq hle, hp.sum_le he⟩

open Testnet in
theorem redemption_completes_testnet :
    let calls := trades.map fun (msg, a) => (msg, Call.action a)
    let resolver : Msg config.self := ⟨9, 100, by decide, by decide⟩
    let holder : Msg config.self := ⟨7, 101, by decide, by decide⟩
    ∃ w', resolve config resolver 1 2 (Run.run (step config) ⟨funds, initial⟩ calls) = .ok w' ∧
      Redeemable config (Run.run (step config) w' [(holder, .redeem 3 2 (10 ^ 14))]) := by
  intro calls resolver holder
  have h : construct Dependencies.testnet chain 1 2 2 (10 ^ 18) 100 [0, 1] 9 5 = .ok config := by
    decide +kernel
  have ⟨w', hr⟩ := exists_ok (x := resolve config resolver 1 2
    (Run.run (step config) ⟨funds, initial⟩ calls)) (by decide +kernel)
  have ⟨_, _, hl⟩ := redemption_completes h funds calls resolver 1 2 w' hr
  exact ⟨w', hr, hl _ (List.forall_mem_singleton.mpr (by decide : 100 ≤ 101))⟩

end Pools.PilotPool
