import Flurbo.Contracts.ReferencePool.Redemption
import Flurbo.Core.ReferenceLedger

-- The pool refines the reference ledger of the core, in which all its traders are one account.

open Evm Except
open QuoteMath (CostBounds wadPerAtom)
open ReferenceLedger (Trade)

namespace Payoff

variable {events mask x : ℕ}

theorem testBit_pays (hm : mask < 2 ^ 8) (hx : x < 8) : pays (BitVec.ofNat 8 mask) x = mask.testBit x := by
  have h : ∀ m : Fin (2 ^ 8), ∀ y : Fin 8, pays (BitVec.ofNat 8 m) y = m.val.testBit y := by decide +kernel
  exact h ⟨mask, hm⟩ ⟨x, hx⟩

theorem states_le (he : 1 ≤ events ∧ events ≤ 3) : 2 ^ events ≤ 8 :=
  Nat.pow_le_pow_right (by decide) he.right

-- The claims that the pool sells are those that the core can trade.
theorem new_tradable (he : 1 ≤ events ∧ events ≤ 3) (h₀ : mask ≠ 0) (hm : mask < 2 ^ 2 ^ events - 1) :
    ∃ c, new events (BitVec.ofNat 8 mask) = .ok c ∧ c.validateTradable = .ok () := by
  have h (m : Fin (2 ^ 8)) (e : Fin 4) (he : 1 ≤ e.val) (h₀ : m.val ≠ 0) (hm : m.val < 2 ^ 2 ^ e.val - 1) :
      BitVec.ofNat 8 m &&& ~~~fullMaskOf e = 0#8 ∧ BitVec.ofNat 8 m ≠ 0#8 ∧
        BitVec.ofNat 8 m ≠ fullMaskOf e := by
    revert m e
    decide +kernel
  have hlt : mask < 2 ^ 8 :=
    hm.trans_le ((Nat.sub_le _ _).trans (Nat.pow_le_pow_right (by decide) (states_le he)))
  have ⟨hr, hz, hf⟩ := h ⟨mask, hlt⟩ ⟨events, by omega⟩ he.left h₀ hm
  refine ⟨⟨events, BitVec.ofNat 8 mask, he, hr⟩, ?_, validateTradable_eq_ok.mpr ⟨hz, hf⟩⟩
  rw [new, dif_pos he, dif_pos hr]

-- The space of a ledger has the claim that never pays.
theorem union_zero {p c : Payoff} (hp : p.mask = 0#8) (he : p.events = c.events) : p.union c = .ok c := by
  have hor : 0#8 ||| c.mask = c.mask := BitVec.zero_or
  have hc : new c.events c.mask = .ok c := by
    rw [new, dif_pos c.count, dif_pos c.inRange]
  rw [union, ensureSameSpace, if_neg (not_not.mpr he), ok_bind, hp, hor, he, hc]

end Payoff

namespace ReferenceLedger

variable {l : ReferenceLedger} {owner : AccountId} {claim : Payoff} {quantity cash o c : ℕ} {side : Side}
  {ls : List ℕ} {ts us : List Trade}

theorem new_ok {events : ℕ} (he : 1 ≤ events ∧ events ≤ 3) (subsidy : ℕ) :
    ∃ l, new events subsidy = .ok l ∧ l.space.mask = 0#8 ∧ l.space.events = events ∧ l.collateral = subsidy ∧
      l.liabilities = List.replicate (2 ^ events) 0 ∧ l.holdings = ∅ := by
  have hr : 0#8 &&& ~~~Payoff.fullMaskOf events = 0#8 := BitVec.zero_and
  have hp : Payoff.new events 0 = .ok ⟨events, 0#8, he, hr⟩ := by
    rw [Payoff.new, dif_pos he]
    exact dif_pos hr
  refine ⟨⟨⟨events, 0#8, he, hr⟩, subsidy, List.replicate (2 ^ events) 0, ∅⟩, ?_, rfl, rfl, rfl, rfl, rfl⟩
  simp only [new, hp, Except.mapError, ok_bind, Payoff.stateCount, Payoff.stateCountOf, Nat.one_shiftLeft]
  rfl

-- A ledger that accepts all trades, one after the other.
def Accepts (l : ReferenceLedger) : List Trade → Prop
  | []      => True
  | t :: ts => l.result t = .ok () ∧ Accepts (l.next t) ts

theorem Accepts.append : Accepts l (ts ++ us) ↔ Accepts l ts ∧ Accepts (run l ts) us := by
  induction ts generalizing l
  case nil          => simp [Accepts, run]
  case cons t ts hi =>
    rw [List.cons_append, Accepts, Accepts, hi, and_assoc]
    rfl

theorem run_append : run l (ts ++ us) = run (run l ts) us := by
  simp [run]

theorem entry_ok (h₀ : l.space.mask = 0#8) (he : l.space.events = claim.events)
    (ht : claim.validateTradable = .ok ()) (hq : quantity ≠ 0)
    (hm : moved (Totals.held l.holdings (owner, claim.mask)) l.collateral quantity cash side = .ok (o, c))
    (hu : updated l.liabilities claim.mask quantity side = .ok ls) (hc : ∀ b ∈ ls, b ≤ c) :
    l.entry owner claim quantity cash side = .ok ⟨o, c, ls⟩ := by
  have hh : l.holdingsOf owner claim = .ok (Totals.held l.holdings (owner, claim.mask)) := by
    rw [holdingsOf, Payoff.union_zero h₀ he]
    rfl
  have hany : ¬ls.any (c < ·) := by simpa using hc
  simp only [entry, bind_eq_ok, mapError_eq_ok, ensure_eq_ok, pure_eq_ok, Prod.exists]
  exact ⟨_, hh, (), ht, (), hq, o, c, hm, ls, hu, (), hany, rfl⟩

theorem recordTrade_ok (h : l.entry owner claim quantity cash side = .ok ⟨o, c, ls⟩) :
    recordTrade owner claim quantity cash side l = (.ok (), l.store owner claim ⟨o, c, ls⟩) := by
  rw [recordTrade_run, h]
  rfl

end ReferenceLedger

namespace ReferencePool

variable {D : Dependencies} {cfg : Config} {msg : Msg cfg.self} {w w' : World D} {l : ReferenceLedger}
  {events mask quantity : ℕ} {isBuy : Bool} {quote : LmsrQuote.Quote} {before after : CostBounds}

theorem construct_states {chain : Chain} {self token resolver : Address} {b closeTime rulesHash : ℕ}
    (h : construct D chain self token events b closeTime resolver rulesHash = .ok cfg) :
    (1 ≤ events ∧ events ≤ 3) ∧ cfg.stateCount = 2 ^ events := by
  simp only [construct, bind_eq_ok, revertIf_eq_ok, pure_eq_ok, ok.injEq, not_or, not_lt,
    Nat.one_shiftLeft] at h
  obtain ⟨_, ⟨_, h₀, h₃, _⟩, _, _, _, _, _, _, rfl⟩ := h
  exact ⟨⟨Nat.pos_of_ne_zero h₀, h₃⟩, rfl⟩

theorem total_le_owed {n i : ℕ} {holdings : Address → ℕ → ℕ} (h : Valid n mask) (hb : mask.testBit i) :
    ∑ a, holdings a mask ≤ owed n holdings i :=
  Holdings.sum_le_weigh holdings h.mem (by rw [hb, Bool.toNat_true])

theorem sum_moved (ht : Traded cfg msg mask quantity isBuy w w' quote before after) :
    Moved isBuy quantity (∑ a, w.pool.holdings a mask) (∑ a, w'.pool.holdings a mask) := by
  obtain ⟨held, hm, hp⟩ := ht.held
  have hs := Holdings.sum_set w.pool.holdings msg.sender mask held
  rw [hp]
  cases isBuy
  all_goals
    simp only [Moved, if_true, Bool.false_eq_true, if_false] at hm ⊢
    omega

-- What is owed in a state that the claim pays in bounds the total of the claim, and a purchase leaves
-- it a word.
theorem total_lt (hl : Ledger cfg w) (ht : Traded cfg msg mask quantity true w w' quote before after) :
    ∑ a, w'.pool.holdings a mask < 2 ^ 128 := by
  have hv := hl.mask_valid ht
  obtain ⟨i, hi, hb⟩ := hv.exists_state
  have howes := (hl.traded ht).owes i hi
  obtain ⟨_, _, hp⟩ := ht.held
  have hliab : w'.pool.stateLiabilities = quote.liabilitiesAfter := by rw [hp]
  calc ∑ a, w'.pool.holdings a mask
      ≤ owed cfg.stateCount w'.pool.holdings i := total_le_owed hv hb
    _ = quote.liabilitiesAfter.getD i 0        := by rw [← howes, hliab]
    _ < 2 ^ 128                                := ht.quoted.lt rfl i (hl.length.symm ▸ hi) hb

def sideOf (isBuy : Bool) : Side := if isBuy then .buy else .sell

theorem changed_ok {before after : ℕ} (h : Moved isBuy quantity before after)
    (hlt : isBuy = true → after < 2 ^ 128) :
    ReferenceLedger.changed before quantity (sideOf isBuy) = .ok after := by
  cases isBuy
  case false =>
    simp only [Moved, Bool.false_eq_true, if_false] at h
    simp only [sideOf, Bool.false_eq_true, if_false, ReferenceLedger.changed, ReferenceLedger.okOr_eq_ok,
      ReferenceLedger.checkedSub_eq_some]
    omega
  case true  =>
    simp only [Moved, if_true] at h
    have := hlt rfl
    simp only [sideOf, if_true, ReferenceLedger.changed, ReferenceLedger.okOr_eq_ok,
      ReferenceLedger.checkedAdd_eq_some]
    omega

theorem moved_ok {owned o collateral c cash : ℕ} (ho : Moved isBuy quantity owned o)
    (hc : Moved isBuy cash collateral c) (hlt : isBuy = true → o < 2 ^ 128 ∧ c < 2 ^ 128) :
    ReferenceLedger.moved owned collateral quantity cash (sideOf isBuy) = .ok (o, c) := by
  cases isBuy
  case false =>
    simp only [Moved, Bool.false_eq_true, if_false] at ho hc
    simp only [sideOf, Bool.false_eq_true, if_false, ReferenceLedger.moved, bind_eq_ok,
      ReferenceLedger.okOr_eq_ok, ReferenceLedger.checkedSub_eq_some, pure_eq_ok, ok.injEq]
    exact ⟨_, ⟨by omega, rfl⟩, _, ⟨by omega, rfl⟩, Prod.ext (by omega) (by dsimp only; omega)⟩
  case true  =>
    simp only [Moved, if_true] at ho hc
    obtain ⟨hlo, hlc⟩ := hlt rfl
    simp only [sideOf, if_true, ReferenceLedger.moved, bind_eq_ok, ReferenceLedger.okOr_eq_ok,
      ReferenceLedger.checkedAdd_eq_some, pure_eq_ok, ok.injEq]
    exact ⟨_, ⟨by omega, rfl⟩, _, ⟨by omega, rfl⟩, Prod.ext (by omega) (by dsimp only; omega)⟩

-- A ledger with one account that has traded what the pool has.
structure Refines (cfg : Config) (events : ℕ) (w : World D) (l : ReferenceLedger) : Prop where
  mask        : l.space.mask = 0#8
  events      : l.space.events = events
  liabilities : l.liabilities = w.pool.stateLiabilities
  held        : ∀ mask, Valid cfg.stateCount mask →
                  Totals.held l.holdings (0, BitVec.ofNat 8 mask) = ∑ a, w.pool.holdings a mask
  collateral  : w.pool.funded = true → l.collateral ≤ w.balance cfg.self
  priced      : ∃ r, cost D cfg w.pool.stateLiabilities = .ok r ∧
                  r.upperWad ≤ l.collateral * wadPerAtom cfg.collateralDecimals

theorem updated_ok {liabilities liabilities' : List ℕ} (hn : liabilities.length ≤ 8) (hm : mask < 2 ^ 8)
    (hl : liabilities'.length = liabilities.length)
    (h : ∀ i < liabilities.length, Moved isBuy (if mask.testBit i then quantity else 0)
      (liabilities.getD i 0) (liabilities'.getD i 0))
    (hlt : isBuy = true → ∀ i < liabilities.length, mask.testBit i → liabilities'.getD i 0 < 2 ^ 128) :
    ReferenceLedger.updated liabilities (BitVec.ofNat 8 mask) quantity (sideOf isBuy) = .ok liabilities' := by
  rw [ReferenceLedger.updated, mapM_eq_ok, List.forall₂_iff_get]
  refine ⟨by simp [hl], fun i hi hi' => ?_⟩
  rw [List.length_zipIdx] at hi
  have h := h i hi
  have hlt := fun hb => hlt hb i hi
  rw [List.getD_eq_getElem _ _ hi, List.getD_eq_getElem _ _ hi'] at h
  rw [List.getD_eq_getElem _ _ hi'] at hlt
  simp only [List.get_eq_getElem, List.getElem_zipIdx, zero_add,
    Payoff.testBit_pays hm (hi.trans_le hn)]
  cases hb : mask.testBit i
  case false =>
    simp only [hb, Bool.false_eq_true, if_false, Moved.zero_iff] at h ⊢
    rw [h]
  case true  =>
    simp only [hb, if_true] at h ⊢
    exact changed_ok h fun hbuy => hlt hbuy hb

namespace Refines

theorem keep (h : Refines cfg events w l) (hf : w'.pool.funded = w.pool.funded)
    (hl : w'.pool.stateLiabilities = w.pool.stateLiabilities)
    (hh : ∀ mask, ∑ a, w'.pool.holdings a mask = ∑ a, w.pool.holdings a mask)
    (hb : w.balance cfg.self ≤ w'.balance cfg.self) : Refines cfg events w' l where
  mask          := h.mask
  events        := h.events
  liabilities   := h.liabilities.trans hl.symm
  held mask hm  := (h.held mask hm).trans (hh mask).symm
  collateral hn := (h.collateral (hf ▸ hn)).trans hb
  priced        := hl ▸ h.priced

-- The ledger's collateral moves by what a trade costs, and stays above the cost.
theorem moved (h : Refines cfg events w l) (ht : Traded cfg msg mask quantity isBuy w w' quote before after) :
    ∃ c, Moved isBuy quote.collateral l.collateral c ∧ c ≤ w'.balance cfg.self ∧
      after.upperWad ≤ c * wadPerAtom cfg.collateralDecimals := by
  obtain ⟨r, hr, hle⟩ := h.priced
  have ⟨hb, _⟩ := ht.costs
  cases hr.symm.trans hb
  have hc := h.collateral ht.funded
  have hpaid := ht.paid
  have hpos : 0 < wadPerAtom cfg.collateralDecimals := QuoteMath.wadPerAtom_pos
  have hlow := ht.lower_le_upper
  have hcharged : FactoredQuote.Charged isBuy (wadPerAtom cfg.collateralDecimals) before after
    quote.collateral := ht.quoted.charged
  cases isBuy
  case true  =>
    have hm : Moved true quote.collateral l.collateral (l.collateral + quote.collateral) := rfl
    have := hcharged.surplus hpos hlow hm
    have hp : w'.balance cfg.self = w.balance cfg.self + quote.collateral := hpaid
    exact ⟨_, hm, by omega, by omega⟩
  case false =>
    obtain ⟨hle', hq⟩ : after.upperWad ≤ before.lowerWad ∧
      quote.collateral = (before.lowerWad - after.upperWad) / wadPerAtom cfg.collateralDecimals :=
        ht.quoted.charged
    have hcash : quote.collateral ≤ l.collateral := by
      rw [hq]
      refine Nat.div_le_of_le_mul ?_
      rw [mul_comm]
      omega
    have hm : Moved false quote.collateral l.collateral (l.collateral - quote.collateral) :=
      Nat.sub_add_cancel hcash
    have := hcharged.surplus hpos hlow hm
    have hp : w'.balance cfg.self + quote.collateral = w.balance cfg.self := hpaid
    exact ⟨_, hm, by omega, by omega⟩

-- The ledger accepts what the pool trades.
theorem traded (h : Refines cfg events w l) (hl : Ledger cfg w) (he : 1 ≤ events ∧ events ≤ 3)
    (hn : cfg.stateCount = 2 ^ events) (hb : w'.balance cfg.self < 2 ^ 128)
    (ht : Traded cfg msg mask quantity isBuy w w' quote before after) :
    ∃ claim, Payoff.new events (BitVec.ofNat 8 mask) = .ok claim ∧ ∃ l',
      ReferenceLedger.recordTrade 0 claim quantity quote.collateral (sideOf isBuy) l = (.ok (), l') ∧
        Refines cfg events w' l' := by
  have hq := ht.quoted
  have hv := hl.mask_valid ht
  have h8 : cfg.stateCount ≤ 8 := hn ▸ Payoff.states_le he
  have hm8 : mask < 2 ^ 8 := hv.lt.trans_le (Nat.pow_le_pow_right (by decide) h8)
  obtain ⟨claim, hclaim, htrade⟩ := Payoff.new_tradable he hv.left (hn ▸ hv.right)
  obtain ⟨hce, hcm⟩ := Payoff.new_eq_ok hclaim
  obtain ⟨c, hmoved, hcb, hcover⟩ := h.moved ht
  obtain ⟨held, _, hpool⟩ := ht.held
  have ⟨_, hcost⟩ := ht.costs
  have hliab : w'.pool.stateLiabilities = quote.liabilitiesAfter := by rw [hpool]
  have hhold : w'.pool.holdings = Holdings.set w.pool.holdings msg.sender mask held := by rw [hpool]
  have hupdated : ReferenceLedger.updated l.liabilities claim.mask quantity (sideOf isBuy) =
      .ok w'.pool.stateLiabilities := by
    rw [h.liabilities, hcm, hliab]
    exact updated_ok (hl.length ▸ h8) hm8 hq.length_eq hq.moved hq.lt
  have hcovered (b : ℕ) (hb : b ∈ w'.pool.stateLiabilities) : b ≤ c :=
    Nat.le_of_mul_le_mul_right ((cost_ge hcost hb).trans hcover) QuoteMath.wadPerAtom_pos
  have hmove : ReferenceLedger.moved (Totals.held l.holdings (0, claim.mask)) l.collateral quantity
      quote.collateral (sideOf isBuy) = .ok (∑ a, w'.pool.holdings a mask, c) := by
    rw [hcm, h.held mask hv]
    refine moved_ok (sum_moved ht) hmoved fun hbuy => ⟨?_, hcb.trans_lt hb⟩
    subst hbuy
    exact total_lt hl ht
  have hentry := ReferenceLedger.entry_ok h.mask (h.events.trans hce.symm) htrade hq.pos.ne' hmove hupdated
    hcovered
  refine ⟨claim, hclaim, _, ReferenceLedger.recordTrade_ok hentry, h.mask, h.events, rfl,
    fun mask' hm' => ?_, fun _ => hcb, after, hcost, hcover⟩
  simp only [ReferenceLedger.store]
  rw [Totals.held_put, hcm, Function.update_apply]
  have hm8' : mask' < 2 ^ 8 := hm'.lt.trans_le (Nat.pow_le_pow_right (by decide) h8)
  by_cases heq : mask' = mask
  case pos => rw [heq, if_pos rfl]
  case neg =>
    have hne : ((0 : ℕ), BitVec.ofNat 8 mask') ≠ (0, BitVec.ofNat 8 mask) := by
      intro hc
      have hval := congrArg BitVec.toNat (Prod.mk.inj hc).right
      rw [BitVec.toNat_ofNat, BitVec.toNat_ofNat, Nat.mod_eq_of_lt hm8', Nat.mod_eq_of_lt hm8] at hval
      exact heq hval
    rw [if_neg hne, h.held mask' hm', hhold, Holdings.sum_set_ne _ _ _ heq]

end Refines

section Runs

-- The trade that a step records in the ledger.
def recorded (cfg : Config) (events : ℕ) (e : World D × Call D cfg × World D) : Option Trade :=
  match e.2.1.2 with
  | .buy mask quantity _ _  =>
    (Payoff.new events (BitVec.ofNat 8 mask)).toOption.map fun claim =>
      .buy 0 claim quantity (e.2.2.balance cfg.self - e.1.balance cfg.self)
  | .sell mask quantity _ _ =>
    (Payoff.new events (BitVec.ofNat 8 mask)).toOption.map fun claim =>
      .sell 0 claim quantity (e.1.balance cfg.self - e.2.2.balance cfg.self)
  | _                       => none

def trades (cfg : Config) (events : ℕ) (es : List (World D × Call D cfg × World D)) : List Trade :=
  es.filterMap (recorded cfg events)

theorem trades_append {es : List (World D × Call D cfg × World D)} {e : World D × Call D cfg × World D} :
    trades cfg events (es ++ [e]) = trades cfg events es ++ (recorded cfg events e).toList := by
  rw [trades, List.filterMap_append]
  cases h : recorded cfg events e <;> simp [trades, List.filterMap, h]

theorem sum_escrowed {holdings holdings' : Address → ℕ → ℕ} {owner owner' : Address}
    (h : Escrowed mask quantity owner owner' holdings holdings') (mask' : ℕ) :
    ∑ a, holdings' a mask' = ∑ a, holdings a mask' := by
  rw [h.eq]
  dsimp only
  set debited := Holdings.set holdings owner mask (holdings owner mask - quantity) with hd
  by_cases hm : mask' = mask
  case pos =>
    subst hm
    have ho := Holdings.sum_set holdings owner mask' (holdings owner mask' - quantity)
    have hi := Holdings.sum_set debited owner' mask' (debited owner' mask' + quantity)
    have := h.le
    rw [← hd] at ho
    omega
  case neg =>
    rw [Holdings.sum_set_ne _ _ _ hm, hd, Holdings.sum_set_ne _ _ _ hm]

-- The ledger has accepted what was traded so far.
structure Followed (cfg : Config) (events : ℕ) (l₀ : ReferenceLedger) (w : World D)
    (es : List (World D × Call D cfg × World D)) : Prop where
  accepts : l₀.Accepts (trades cfg events es)
  refines : Refines cfg events w (l₀.run (trades cfg events es))

namespace Followed

variable {l₀ : ReferenceLedger} {es : List (World D × Call D cfg × World D)} {a : Action D}

theorem keep (h : Followed cfg events l₀ w es) (hr : recorded cfg events (w, (msg, a), w') = none)
    (hw : Refines cfg events w' (l₀.run (trades cfg events es))) :
    Followed cfg events l₀ w' (es ++ [(w, (msg, a), w')]) := by
  have ht : trades cfg events (es ++ [(w, (msg, a), w')]) = trades cfg events es := by
    rw [trades_append, hr, Option.toList_none, List.append_nil]
  exact ⟨ht ▸ h.accepts, ht ▸ hw⟩

theorem add (t : Trade) {l' : ReferenceLedger} (h : Followed cfg events l₀ w es)
    (hr : recorded cfg events (w, (msg, a), w') = some t)
    (ht : ReferenceLedger.record t (l₀.run (trades cfg events es)) = (.ok (), l'))
    (hw : Refines cfg events w' l') : Followed cfg events l₀ w' (es ++ [(w, (msg, a), w')]) := by
  have htrades : trades cfg events (es ++ [(w, (msg, a), w')]) = trades cfg events es ++ [t] := by
    rw [trades_append, hr, Option.toList_some]
  have hnext : ReferenceLedger.next (l₀.run (trades cfg events es)) t = l' := congrArg Prod.snd ht
  have hresult : ReferenceLedger.result (l₀.run (trades cfg events es)) t = .ok () := congrArg Prod.fst ht
  refine ⟨?_, ?_⟩
  · rw [htrades]
    exact ReferenceLedger.Accepts.append.mpr ⟨h.accepts, hresult, trivial⟩
  · rw [htrades, ReferenceLedger.run_append]
    change Refines cfg events w' (ReferenceLedger.next _ t)
    rwa [hnext]

theorem step (h : Followed cfg events l₀ w es) (hl : Ledger cfg w)
    (he : 1 ≤ events ∧ events ≤ 3) (hn : cfg.stateCount = 2 ^ events)
    (hsub : (l₀.run (trades cfg events es)).collateral = cfg.requiredFunding ∨ w.pool.funded = true)
    (hr : w'.pool.resolved = false) (hb : w'.balance cfg.self < 2 ^ 128)
    (hs : Acted cfg msg w a w') : Followed cfg events l₀ w' (es ++ [(w, (msg, a), w')]) := by
  cases hs
  case funded token hf _ htok =>
    have hcol := hsub.resolve_right (by simp [hf])
    have hw := h.refines
    refine h.keep rfl ⟨hw.mask, hw.events, hw.liabilities, hw.held, fun _ => ?_, hw.priced⟩
    change _ ≤ D.collateral.balanceOf token cfg.self
    omega
  case bought mask quantity maxCost deadline quote before after ht =>
    obtain ⟨claim, hclaim, l', hrec, hw⟩ := h.refines.traded hl he hn hb ht
    refine h.add (.buy 0 claim quantity quote.collateral) ?_ hrec hw
    have hp : w'.balance cfg.self = w.balance cfg.self + quote.collateral := ht.paid
    simp [recorded, hclaim, Except.toOption, hp]
  case sold mask quantity minProceeds deadline quote before after ht =>
    obtain ⟨claim, hclaim, l', hrec, hw⟩ := h.refines.traded hl he hn hb ht
    refine h.add (.sell 0 claim quantity quote.collateral) ?_ hrec hw
    have hp : w'.balance cfg.self + quote.collateral = w.balance cfg.self := ht.paid
    simp [recorded, hclaim, Except.toOption, ← hp]
  case resolved          => cases hr
  case redeemed hred _   => exact absurd (hred.resolved.symm.trans hr) (by decide)
  case wrapped hesc      => exact h.keep rfl (h.refines.keep rfl rfl (sum_escrowed hesc) le_rfl)
  case unwrapped hesc    => exact h.keep rfl (h.refines.keep rfl rfl (sum_escrowed hesc) le_rfl)
  case created           => exact h.keep rfl (h.refines.keep rfl rfl (fun _ => rfl) le_rfl)
  case collateral hbal   => exact h.keep rfl (h.refines.keep rfl rfl (fun _ => rfl) hbal)
  case receipts          => exact h.keep rfl (h.refines.keep rfl rfl (fun _ => rfl) le_rfl)

end Followed

theorem Acted.unresolved {a : Action D} (h : Acted cfg msg w a w') (hr : w'.pool.resolved = false) :
    w.pool.resolved = false := by
  cases h
  case bought ht => exact ht.unresolved
  case sold ht   => exact ht.unresolved
  case resolved  => cases hr
  all_goals exact hr

-- Nothing is traded before the pool is funded.
theorem Acted.unfunded {a : Action D} (h : Acted cfg msg w a w') (events : ℕ) (hf : w'.pool.funded = false) :
    w.pool.funded = false ∧ recorded cfg events (w, (msg, a), w') = none := by
  cases h
  case funded    => cases hf
  case bought ht => exact absurd (ht.funded_after.symm.trans hf) (by decide)
  case sold ht   => exact absurd (ht.funded_after.symm.trans hf) (by decide)
  all_goals exact ⟨hf, rfl⟩

theorem Refines.initial {token : D.collateral.State} (ha : Accepted D cfg) (hn : cfg.stateCount = 2 ^ events)
    (hm : l.space.mask = 0#8) (he : l.space.events = events) (hc : l.collateral = cfg.requiredFunding)
    (hl : l.liabilities = List.replicate (2 ^ events) 0) (hh : l.holdings = ∅) :
    Refines cfg events (World.initial cfg token) l where
  mask          := hm
  events        := he
  liabilities   := by rw [hl, ← hn]; rfl
  held mask _   := by
    have hz : ∑ a, (World.initial (D := D) cfg token).pool.holdings a mask = 0 := Finset.sum_const_zero
    rw [hh, hz]
    rfl
  collateral hf := by cases hf
  priced        := hc ▸ ha.funding

-- What a whole run keeps: nothing is traded before the pool is funded, and the ledger has followed as
-- long as the pool is not resolved and its balance has always been a word.
structure Tracked (cfg : Config) (events : ℕ) (l₀ : ReferenceLedger) (w : World D)
    (es : List (World D × Call D cfg × World D)) : Prop where
  ledger   : Ledger cfg w
  idle     : w.pool.funded = false → trades cfg events es = []
  followed : w.pool.resolved = false → (∀ e ∈ es, e.2.2.balance cfg.self < 2 ^ 128) →
               Followed cfg events l₀ w es

theorem Tracked.step {l₀ : ReferenceLedger} {es : List (World D × Call D cfg × World D)} {a : Action D}
    (h : Tracked cfg events l₀ w es) (he : 1 ≤ events ∧ events ≤ 3) (hn : cfg.stateCount = 2 ^ events)
    (hc : l₀.collateral = cfg.requiredFunding) (hs : Acted cfg msg w a w') :
    Tracked cfg events l₀ w' (es ++ [(w, (msg, a), w')]) where
  ledger         := h.ledger.step hs
  idle hf        := by
    obtain ⟨hf, hnone⟩ := hs.unfunded events hf
    rw [trades_append, hnone, h.idle hf]
    rfl
  followed hr hb := by
    have hf := h.followed (hs.unresolved hr) fun e he => hb e (List.mem_append_left _ he)
    have hlast := hb (w, (msg, a), w') (List.mem_append_right _ (List.mem_singleton_self _))
    refine hf.step h.ledger he hn ?_ hr hlast hs
    -- Without a trade the ledger still has its subsidy.
    cases hw : w.pool.funded
    case true  => exact .inr rfl
    case false =>
      rw [h.idle hw]
      exact .inl hc

-- Before its resolution a pool follows the ledger of the core: the ledger accepts all its trades, has
-- its liabilities and holds what its traders hold together, with no more collateral than the pool has.
-- The ledger's amounts are words of 128 bits, so the balance has to fit.
theorem refines_ledger {chain : Chain} {self token resolver : Address} {b closeTime rulesHash : ℕ}
    (h : construct D chain self token events b closeTime resolver rulesHash = .ok cfg)
    (collateral : D.collateral.State) (calls : List (Call D cfg)) :
    let w := Run.run (step cfg (requireCovered cfg)) (World.initial cfg collateral) calls
    let es := Run.history (step cfg (requireCovered cfg)) (World.initial cfg collateral) calls
    w.pool.resolved = false → (∀ e ∈ es, e.2.2.balance cfg.self < 2 ^ 128) →
      ∃ l, ReferenceLedger.new events cfg.requiredFunding = .ok l ∧ l.Accepts (trades cfg events es) ∧
        Refines cfg events w (l.run (trades cfg events es)) := by
  intro w es hr hb
  have ha := construct_accepted h
  obtain ⟨he, hn⟩ := construct_states h
  obtain ⟨l, hl, hm, hev, hcol, hliab, hhold⟩ := ReferenceLedger.new_ok he cfg.requiredFunding
  have htracked : Tracked cfg events l w es := by
    refine Run.history_invariant ⟨Ledger.initial, fun _ => rfl, fun _ _ => ⟨trivial, ?_⟩⟩ ?_
    · exact .initial ha hn hm hev hcol hliab hhold
    · intro w es w' call _ ht hs
      exact ht.step he hn hcol (step_eq_ok hs)
  have hfollowed := htracked.followed hr hb
  exact ⟨l, hl, hfollowed.accepts, hfollowed.refines⟩

theorem refines_ledger_testnet :
    let w := Run.run (step Testnet.config (requireCovered Testnet.config))
      (World.initial Testnet.config Testnet.funds) Testnet.trades
    let es := Run.history (step Testnet.config (requireCovered Testnet.config))
      (World.initial Testnet.config Testnet.funds) Testnet.trades
    (trades Testnet.config 2 es).length = 3 ∧ ∃ l, ReferenceLedger.new 2 Testnet.config.requiredFunding = .ok l ∧
      l.Accepts (trades Testnet.config 2 es) ∧ Refines Testnet.config 2 w (l.run (trades Testnet.config 2 es)) :=
  ⟨by decide +kernel, refines_ledger Testnet.deployed Testnet.funds Testnet.trades (by decide +kernel)
    (by decide +kernel)⟩

end Runs

end ReferencePool
