import Flurbo.Contracts.ReferencePool.Coverage

-- The liabilities of a pool are what its claims pay. So after the resolution every holder can redeem
-- every claim, in any order.

open Evm Except

namespace ReferencePool

variable {D : Dependencies} {cfg : Config} {msg : Msg cfg.self} {w w' : World D}
  {holdings holdings' : Address → ℕ → ℕ} {n i mask quantity : ℕ} {isBuy : Bool} {owner owner' : Address}

-- What all claims together are paid in a state.
def owed (n : ℕ) (holdings : Address → ℕ → ℕ) (i : ℕ) : ℕ :=
  Holdings.weigh (Finset.range (2 ^ n)) (fun mask => (mask.testBit i).toNat) holdings

def Valid (n mask : ℕ) : Prop := mask ≠ 0 ∧ mask < 2 ^ n - 1

theorem Valid.lt (h : Valid n mask) : mask < 2 ^ n :=
  h.right.trans_le (Nat.sub_le _ _)

theorem Valid.mem (h : Valid n mask) : mask ∈ Finset.range (2 ^ n) :=
  Finset.mem_range.mpr h.lt

theorem Valid.exists_state (h : Valid n mask) : ∃ i < n, mask.testBit i := by
  obtain ⟨i, hb⟩ := Nat.exists_testBit_of_ne_zero h.left
  refine ⟨i, not_le.mp fun hi => ?_, hb⟩
  rw [Bits.testBit_eq_false h.lt hi] at hb
  cases hb

theorem owed_set (h : Valid n mask) {held : ℕ} (hm : Moved isBuy quantity (holdings owner mask) held) :
    Moved isBuy (if mask.testBit i then quantity else 0) (owed n holdings i)
      (owed n (Holdings.set holdings owner mask held) i) := by
  have hs := Holdings.weigh_set (fun mask => (mask.testBit i).toNat) holdings owner held h.mem
  unfold owed
  cases hb : mask.testBit i
  all_goals
    simp only [hb, Bool.toNat_false, Bool.toNat_true, zero_mul, one_mul, add_zero, if_true,
      Bool.false_eq_true, if_false, Moved.zero_iff] at hs ⊢
  case false => exact hs
  case true  =>
    cases isBuy
    all_goals
      simp only [Moved, if_true, Bool.false_eq_true, if_false] at hm ⊢
      omega

theorem owed_escrowed (h : Valid n mask) (he : Escrowed mask quantity owner owner' holdings holdings') :
    owed n holdings' i = owed n holdings i := by
  set debited := Holdings.set holdings owner mask (holdings owner mask - quantity) with hd
  have ho : Moved false (if mask.testBit i then quantity else 0) (owed n holdings i) (owed n debited i) :=
    owed_set h (Nat.sub_add_cancel he.le)
  have hi : Moved true (if mask.testBit i then quantity else 0) (owed n debited i)
      (owed n (Holdings.set debited owner' mask (debited owner' mask + quantity)) i) :=
    owed_set h rfl
  rw [he.eq]
  change owed n (Holdings.set debited owner' mask (debited owner' mask + quantity)) i = _
  simp only [Moved, if_true, Bool.false_eq_true, if_false] at ho hi
  omega

theorem holdings_le_owed (h : Valid n mask) (hb : mask.testBit i) : holdings owner mask ≤ owed n holdings i := by
  have := Holdings.le_weigh (fun mask => (mask.testBit i).toNat) holdings owner h.mem
  rwa [hb, Bool.toNat_true, one_mul] at this

structure Ledger (cfg : Config) (w : World D) : Prop where
  length : w.pool.stateLiabilities.length = cfg.stateCount
  valid  : ∀ a mask, w.pool.holdings a mask ≠ 0 → Valid cfg.stateCount mask
  owes   : ∀ i < cfg.stateCount, w.pool.stateLiabilities.getD i 0 = owed cfg.stateCount w.pool.holdings i

namespace Ledger

theorem initial {token : D.collateral.State} : Ledger cfg (World.initial cfg token) where
  length       := by simp [World.initial, Storage.initial]
  valid a mask := by simp [World.initial, Storage.initial]
  owes i hi    := by
    have hz : owed cfg.stateCount (World.initial (D := D) cfg token).pool.holdings i = 0 :=
      Holdings.weigh_zero
    rw [hz]
    simp [World.initial, Storage.initial]

theorem keep (h : Ledger cfg w) (hh : w'.pool.holdings = w.pool.holdings)
    (hl : w'.pool.stateLiabilities = w.pool.stateLiabilities) : Ledger cfg w' :=
  ⟨hl ▸ h.length, hh ▸ h.valid, by rw [hh, hl]; exact h.owes⟩

theorem valid_set {held : ℕ} (h : Ledger cfg w) (hm : Valid cfg.stateCount mask) (a : Address) (m : ℕ)
    (hn : Holdings.set w.pool.holdings owner mask held a m ≠ 0) : Valid cfg.stateCount m := by
  rw [Holdings.set_apply] at hn
  split at hn
  case isTrue hc => exact hc.right ▸ hm
  case isFalse   => exact h.valid a m hn

-- The holdings of one owner change with the liabilities.
theorem changed {held : ℕ} (h : Ledger cfg w) (hm : Valid cfg.stateCount mask)
    (hh : Moved isBuy quantity (w.pool.holdings owner mask) held)
    (hs : w'.pool.holdings = Holdings.set w.pool.holdings owner mask held)
    (hl : w'.pool.stateLiabilities.length = w.pool.stateLiabilities.length)
    (hi : ∀ i < w.pool.stateLiabilities.length, Moved isBuy (if mask.testBit i then quantity else 0)
      (w.pool.stateLiabilities.getD i 0) (w'.pool.stateLiabilities.getD i 0)) : Ledger cfg w' where
  length       := hl.trans h.length
  valid a m hn := h.valid_set hm a m (hs ▸ hn)
  owes i hlt   := by
    have hmoved := hi i (h.length ▸ hlt)
    rw [h.owes i hlt] at hmoved
    rw [hs]
    exact hmoved.unique (owed_set hm hh)

theorem mask_valid {quote : LmsrQuote.Quote} {before after : QuoteMath.CostBounds} (h : Ledger cfg w)
    (ht : Traded cfg msg mask quantity isBuy w w' quote before after) : Valid cfg.stateCount mask :=
  ⟨ht.quoted.mask_pos, h.length ▸ ht.quoted.mask_lt⟩

theorem traded {quote : LmsrQuote.Quote} {before after : QuoteMath.CostBounds} (h : Ledger cfg w)
    (ht : Traded cfg msg mask quantity isBuy w w' quote before after) : Ledger cfg w' := by
  obtain ⟨held, hm, hp⟩ := ht.held
  have hq := ht.quoted
  refine h.changed (h.mask_valid ht) hm (by rw [hp]) ?_ ?_
  · rw [hp]
    exact hq.length_eq
  · rw [hp]
    exact hq.moved

theorem escrowed (h : Ledger cfg w) (he : Escrowed mask quantity owner owner' w.pool.holdings holdings')
    {baseTokens : ℕ → Option (BaseToken D)} :
    Ledger cfg { w with pool := { w.pool with holdings := holdings', baseTokens } } := by
  have hv : Valid cfg.stateCount mask :=
    h.valid owner mask (Nat.pos_iff_ne_zero.mp (he.pos.trans_le he.le))
  refine ⟨h.length, fun a m hn => ?_, fun i hi => (h.owes i hi).trans (owed_escrowed hv he).symm⟩
  change holdings' a m ≠ 0 at hn
  rw [he.eq] at hn
  dsimp only at hn
  rw [Holdings.set_apply] at hn
  split at hn
  case isTrue hc => exact hc.right ▸ hv
  case isFalse   => exact h.valid_set hv a m hn

theorem step {a : Action D} (h : Ledger cfg w) (hs : Acted cfg msg w a w') : Ledger cfg w' := by
  cases hs
  case bought ht      => exact h.traded ht
  case sold ht        => exact h.traded ht
  case redeemed hr _  =>
    obtain ⟨hl, hmoved⟩ := burned_eq_ok hr.burned
    have hm : Moved false _ _ _ := Nat.sub_add_cancel hr.le
    refine h.changed ⟨hr.mask_pos, h.length ▸ hr.mask_lt⟩ hm rfl hl fun i hi => ?_
    simpa [Moved] using hmoved i hi
  case wrapped he     => exact h.escrowed he
  case unwrapped he   => exact h.escrowed he
  all_goals exact h.keep rfl rfl

end Ledger

theorem run_ledger {check : World D → Sol Unit} (token : D.collateral.State) (calls : List (Call D cfg)) :
    Ledger cfg (Run.run (step cfg check) (World.initial cfg token) calls) :=
  Run.run_invariant .initial fun _ _ _ _ h hs => h.step (step_eq_ok hs)

section Redeem

theorem Ledger.burned_ok (h : Ledger cfg w) (hq : 0 < quantity) (hle : quantity ≤ w.pool.holdings owner mask) :
    ∃ liabilities, burned w.pool.stateLiabilities mask quantity = .ok liabilities := by
  have hv := h.valid owner mask (Nat.pos_iff_ne_zero.mp (hq.trans_le hle))
  refine table_ok fun i hi => ?_
  rw [nth_eq_ok_getD.mpr ⟨hi, rfl⟩, ok_bind]
  simp only [Nat.one_shiftLeft, Bits.and_two_pow_ne_zero]
  split
  case isFalse   => exact ⟨_, rfl⟩
  case isTrue hb =>
    have hle' := hle.trans (holdings_le_owed (i := i) hv hb)
    rw [← h.owes i (h.length ▸ hi)] at hle'
    exact ⟨_, checkedSub_eq_ok.mpr ⟨hle', rfl⟩⟩

theorem transferExact_out_trader {T : Token} {t t' : T.State} {self trader : Address} {amount : ℕ}
    (h : Pools.transferExact T self trader amount false t = .ok t') :
    T.balanceOf t' trader = T.balanceOf t trader + amount := by
  simp only [Pools.transferExact, Bool.false_eq_true, if_false, bind_eq_ok, revertIf_eq_ok, pure_eq_ok,
    ok.injEq] at h
  obtain ⟨_, _, _, h, rfl⟩ := h
  omega

-- What holders can expect of a pool that is resolved.
structure Redeemable (cfg : Config) (w : World D) : Prop where
  backed : owed cfg.stateCount w.pool.holdings w.pool.resolvedState ≤ w.balance cfg.self
  redeem : ∀ (msg : Msg cfg.self) mask quantity,
             (∃ w', step cfg (requireCovered cfg) w (msg, .redeem mask quantity) = .ok w') ↔
               0 < quantity ∧ quantity ≤ w.pool.holdings msg.sender mask
  paid   : ∀ (msg : Msg cfg.self) mask quantity w',
             step cfg (requireCovered cfg) w (msg, .redeem mask quantity) = .ok w' →
             w'.balance msg.sender = w.balance msg.sender + payout mask quantity w.pool ∧
               w'.balance cfg.self + payout mask quantity w.pool = w.balance cfg.self

theorem paid_sender {check : World D → Sol Unit}
    (h : step cfg check w (msg, .redeem mask quantity) = .ok w') :
    w'.balance msg.sender = w.balance msg.sender + payout mask quantity w.pool := by
  simp only [step, act, redeem, map_eq_ok, bind_eq_ok, Prod.exists, pure_eq_ok, ok.injEq, Prod.mk.injEq,
    Nat.one_shiftLeft, Bits.and_two_pow_ne_zero] at h
  obtain ⟨_, _, ⟨_, _, _, _, _, _, _, _, _, _, _, _, _, _, token, hx, _, _, rfl, rfl⟩, rfl⟩ := h
  unfold payout
  split at hx
  case isTrue hb  => rw [if_pos hb]; exact transferExact_out_trader hx
  case isFalse hb => rw [if_neg hb]; cases hx; rfl

theorem redeem_ok (hc : Covered cfg w) (hl : Ledger cfg w) (hr : w.pool.resolved = true)
    (hq : 0 < quantity) (hle : quantity ≤ w.pool.holdings msg.sender mask) :
    ∃ w', step cfg (fun _ => .ok ()) w (msg, .redeem mask quantity) = .ok w' := by
  have hv := hl.valid msg.sender mask (Nat.pos_iff_ne_zero.mp (hq.trans_le hle))
  obtain ⟨hlt, hbal⟩ := hc.settled hr
  obtain ⟨liabilities, hburn⟩ := hl.burned_ok hq hle
  have htransfer : ∃ token, (if mask &&& 1 <<< w.pool.resolvedState ≠ 0 then
      transferExact cfg msg.sender quantity false w.token else .ok w.token) = .ok token := by
    split
    case isFalse   => exact ⟨_, rfl⟩
    case isTrue hb =>
      rw [Nat.one_shiftLeft, Bits.and_two_pow_ne_zero] at hb
      have hpay := hle.trans (holdings_le_owed hv hb)
      rw [← hl.owes _ hlt] at hpay
      exact Pools.transferExact_out_ok msg.ne_target msg.ne_zero (hpay.trans hbal)
  obtain ⟨token, htransfer⟩ := htransfer
  have hvalid : ¬ (mask = 0 ∨ mask ≥ 1 <<< w.pool.stateLiabilities.length - 1) := by
    rw [Nat.one_shiftLeft, hl.length]
    exact not_or.mpr ⟨hv.left, not_le.mpr hv.right⟩
  simp only [step, act, redeem, hr, hvalid, not_lt.mpr hle, hburn, htransfer, map_eq_ok, bind_eq_ok,
    revertIf_eq_ok, checkedSub_eq_ok, pure_eq_ok, ok.injEq, Prod.exists, Prod.mk.injEq]
  exact ⟨_, _, _, ⟨(), by simp, (), by simp, (), by omega, (), by simp, (), trivial, _, ⟨hle, rfl⟩, _, rfl,
    _, rfl, (), trivial, rfl, rfl⟩, rfl⟩

-- In every state that a pool reaches once it is resolved, all claims are paid for. Whoever holds a
-- claim can redeem it, whatever the others have done, and gets what it is worth.
theorem resolved_redeemable {chain : Chain} {self token resolver : Address} {events b closeTime rulesHash : ℕ}
    (h : construct D chain self token events b closeTime resolver rulesHash = .ok cfg)
    (collateral : D.collateral.State) (calls : List (Call D cfg)) :
    let w := Run.run (step cfg (requireCovered cfg)) (World.initial cfg collateral) calls
    Ledger cfg w ∧ (w.pool.resolved = true → Redeemable cfg w) := by
  intro w
  have ha := construct_accepted h
  have hc : Covered cfg w := run_covered ha collateral calls
  have hl : Ledger cfg w := run_ledger collateral calls
  refine ⟨hl, fun hr => ⟨?_, fun msg mask quantity => ⟨?_, ?_⟩, fun msg mask quantity w' hs => ?_⟩⟩
  · have ⟨hlt, hle⟩ := hc.settled hr
    rwa [hl.owes _ hlt] at hle
  · rintro ⟨w', hs⟩
    have hacted := step_eq_ok hs
    cases hacted
    case redeemed hred _ => exact ⟨hred.pos, hred.le⟩
  · rintro ⟨hq, hle⟩
    rw [hc.step_unchecked ha]
    exact redeem_ok hc hl hr hq hle
  · refine ⟨paid_sender hs, ?_⟩
    have hacted := step_eq_ok hs
    cases hacted
    case redeemed hb => exact hb

theorem resolved_redeemable_testnet :
    let w := Run.run (step Testnet.config (requireCovered Testnet.config))
      (World.initial Testnet.config Testnet.funds) (Testnet.trades ++ [(Testnet.resolver, .resolve 3)])
    w.pool.resolved = true ∧ payout 10 (9 * 10 ^ 14) w.pool = 9 * 10 ^ 14 ∧
      Redeemable Testnet.config w :=
  ⟨by decide +kernel, by decide +kernel,
    (resolved_redeemable Testnet.deployed Testnet.funds (Testnet.trades ++ [(Testnet.resolver, .resolve 3)])).right
      (by decide +kernel)⟩

end Redeem

end ReferencePool
