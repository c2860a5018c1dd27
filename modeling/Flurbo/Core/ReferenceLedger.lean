import Flurbo.Library.Totals
import Flurbo.Core.Payoff

-- Integer reference accounting for a single unresolved cluster. Amounts are words of 128 bits.

inductive AccountingError
  | payoff (error : PayoffError)
  | zeroQuantity | insufficientHoldings | insufficientCollateral | uncoveredLiability
  | arithmeticOverflow | inconsistentLiability
  deriving DecidableEq, Repr

abbrev AccountId := ℕ

inductive Side
  | buy
  | sell
  deriving DecidableEq

structure ReferenceLedger where
  space       : Payoff
  collateral  : ℕ
  liabilities : List ℕ
  holdings    : Finmap fun _ : AccountId × BitVec 8 => ℕ

namespace ReferenceLedger

-- What a call has changed when it fails stays changed.
abbrev Call := ExceptT AccountingError (StateM ReferenceLedger)

def lift {α : Type} (x : Except AccountingError α) : Call α :=
  fun l => (x, l)

def checkedAdd (a b : ℕ) : Option ℕ :=
  if a + b < 2 ^ 128 then some (a + b) else none

def checkedSub (a b : ℕ) : Option ℕ :=
  if b ≤ a then some (a - b) else none

def okOr (a : Option ℕ) (e : AccountingError) : Except AccountingError ℕ :=
  match a with
  | some a => .ok a
  | none   => .error e

def ensure (c : Prop) [Decidable c] (e : AccountingError) : Except AccountingError Unit :=
  if c then .ok () else .error e

def new (events subsidy : ℕ) : Except AccountingError ReferenceLedger := do
  let space ← (Payoff.new events 0).mapError .payoff
  return {
    space       := space
    collateral  := subsidy
    liabilities := List.replicate space.stateCount 0
    holdings    := ∅
  }

def requiredCollateral (l : ReferenceLedger) : ℕ :=
  l.liabilities.max?.getD 0

-- The subtraction panics, or wraps around, if it underflows.
def headroom (l : ReferenceLedger) : Option ℕ :=
  checkedSub l.collateral l.requiredCollateral

def holdingsOf (l : ReferenceLedger) (owner : AccountId) (claim : Payoff) :
    Except AccountingError ℕ := do
  let _ ← (l.space.union claim).mapError .payoff
  return (l.holdings.lookup (owner, claim.mask)).getD 0

-- The owner's quantity and the collateral after a trade.
def moved (owned collateral quantity cash : ℕ) : Side → Except AccountingError (ℕ × ℕ)
  | .buy  => do
    let newOwned ← okOr (checkedAdd owned quantity) .arithmeticOverflow
    let newCollateral ← okOr (checkedAdd collateral cash) .arithmeticOverflow
    return (newOwned, newCollateral)
  | .sell => do
    let newOwned ← okOr (checkedSub owned quantity) .insufficientHoldings
    let newCollateral ← okOr (checkedSub collateral cash) .insufficientCollateral
    return (newOwned, newCollateral)

def changed (liability quantity : ℕ) : Side → Except AccountingError ℕ
  | .buy  => okOr (checkedAdd liability quantity) .arithmeticOverflow
  | .sell => okOr (checkedSub liability quantity) .inconsistentLiability

def updated (liabilities : List ℕ) (mask : BitVec 8) (quantity : ℕ) (side : Side) :
    Except AccountingError (List ℕ) :=
  liabilities.zipIdx.mapM fun (liability, state) =>
    if Payoff.pays mask state then changed liability quantity side else .ok liability

def recordTrade (owner : AccountId) (claim : Payoff) (quantity cash : ℕ) (side : Side) :
    Call Unit := do
  let ledger ← get
  let owned ← lift <| ledger.holdingsOf owner claim
  lift <| claim.validateTradable.mapError .payoff
  lift <| ensure (quantity ≠ 0) .zeroQuantity
  let (newOwned, newCollateral) ← lift <| moved owned ledger.collateral quantity cash side
  let liabilities ← lift <| updated ledger.liabilities claim.mask quantity side
  lift <| ensure (¬liabilities.any (newCollateral < ·)) .uncoveredLiability
  if newOwned = 0 then
    modify fun l => { l with holdings := l.holdings.erase (owner, claim.mask) }
  else
    modify fun l => { l with holdings := l.holdings.insert (owner, claim.mask) newOwned }
  modify fun l => { l with liabilities := liabilities }
  modify fun l => { l with collateral := newCollateral }

def recordBuy (owner : AccountId) (claim : Payoff) (quantity collateralReceived : ℕ) : Call Unit :=
  recordTrade owner claim quantity collateralReceived .buy

def recordSell (owner : AccountId) (claim : Payoff) (quantity collateralPaid : ℕ) : Call Unit :=
  recordTrade owner claim quantity collateralPaid .sell

inductive Trade
  | buy  (owner : AccountId) (claim : Payoff) (quantity collateralReceived : ℕ)
  | sell (owner : AccountId) (claim : Payoff) (quantity collateralPaid : ℕ)

def record : Trade → Call Unit
  | .buy owner claim quantity received => recordBuy owner claim quantity received
  | .sell owner claim quantity paid    => recordSell owner claim quantity paid

def result (l : ReferenceLedger) (t : Trade) : Except AccountingError Unit :=
  ((record t).run l).1

def next (l : ReferenceLedger) (t : Trade) : ReferenceLedger :=
  ((record t).run l).2

def run (l : ReferenceLedger) (ts : List Trade) : ReferenceLedger :=
  ts.foldl next l

-- What all holdings together are paid in a state.
def liability (l : ReferenceLedger) (x : ℕ) : ℕ :=
  Totals.total (fun (_, mask) => if Payoff.pays mask x then 1 else 0) l.holdings

structure Solvent (l : ReferenceLedger) : Prop where
  states    : l.liabilities.length = l.space.stateCount
  owes      : ∀ x (h : x < l.liabilities.length), l.liabilities[x] = l.liability x
  covered   : ∀ x (h : x < l.liabilities.length), l.liabilities[x] ≤ l.collateral
  holds     : ∀ k q, l.holdings.lookup k = some q → 0 < q
  tradables : ∀ k q, l.holdings.lookup k = some q →
    ∃ claim : Payoff, claim.events = l.space.events ∧ claim.mask = k.2 ∧ claim.validateTradable = .ok ()

-- The checks of a trade, and what it stores if they pass.
structure Entry where
  owned       : ℕ
  collateral  : ℕ
  liabilities : List ℕ

def entry (l : ReferenceLedger) (owner : AccountId) (claim : Payoff) (quantity cash : ℕ)
    (side : Side) : Except AccountingError Entry := do
  let owned ← l.holdingsOf owner claim
  claim.validateTradable.mapError .payoff
  ensure (quantity ≠ 0) .zeroQuantity
  let (newOwned, newCollateral) ← moved owned l.collateral quantity cash side
  let liabilities ← updated l.liabilities claim.mask quantity side
  ensure (¬liabilities.any (newCollateral < ·)) .uncoveredLiability
  return ⟨newOwned, newCollateral, liabilities⟩

def store (l : ReferenceLedger) (owner : AccountId) (claim : Payoff) (e : Entry) : ReferenceLedger where
  space       := l.space
  collateral  := e.collateral
  liabilities := e.liabilities
  holdings    := Totals.put l.holdings (owner, claim.mask) e.owned

variable {l : ReferenceLedger} {owner : AccountId} {claim : Payoff} {quantity cash : ℕ} {side : Side}

-- A call that fails leaves the ledger as it was.
def commit (l : ReferenceLedger) (f : Entry → ReferenceLedger) :
    Except AccountingError Entry → Except AccountingError Unit × ReferenceLedger
  | .ok e    => (.ok (), f e)
  | .error e => (.error e, l)

theorem lift_bind {α : Type} {x : Except AccountingError α} {f : α → Call Unit}
    {g : α → Except AccountingError Entry} {k : Entry → ReferenceLedger}
    (h : ∀ a, f a l = commit l k (g a)) : (lift x >>= f) l = commit l k (x >>= g) := by
  cases x
  case error => rfl
  case ok a  => exact h a

-- A trade checks everything before it stores anything.
theorem recordTrade_run : recordTrade owner claim quantity cash side l =
    commit l (l.store owner claim) (l.entry owner claim quantity cash side) := by
  have hg {α : Type} (f : ReferenceLedger → Call α) : (get >>= f) l = f l l := rfl
  rw [recordTrade, entry, hg]
  refine lift_bind fun owned => ?_
  refine lift_bind fun _ => ?_
  refine lift_bind fun _ => ?_
  refine lift_bind fun ⟨newOwned, newCollateral⟩ => ?_
  refine lift_bind fun liabilities => ?_
  refine lift_bind fun _ => ?_
  unfold commit store Totals.put
  by_cases h : newOwned = 0
  all_goals
    simp only [Except.pure_eq_ok, h, ↓reduceIte]
    rfl

section Entries

variable {liabilities liabilities' : List ℕ} {mask : BitVec 8} {a b c : ℕ} {e : AccountingError}

@[simp]
theorem okOr_eq_ok {o : Option ℕ} : okOr o e = .ok a ↔ o = some a := by
  cases o <;> simp [okOr]

@[simp]
theorem okOr_eq_error {o : Option ℕ} {e' : AccountingError} :
    okOr o e = .error e' ↔ o = none ∧ e = e' := by
  cases o <;> simp [okOr]

@[simp]
theorem checkedAdd_eq_some : checkedAdd a b = some c ↔ a + b < 2 ^ 128 ∧ a + b = c := by
  simp [checkedAdd]

@[simp]
theorem checkedSub_eq_some : checkedSub a b = some c ↔ b ≤ a ∧ a - b = c := by
  simp [checkedSub]

@[simp]
theorem checkedSub_eq_none : checkedSub a b = none ↔ a < b := by
  simp [checkedSub]

@[simp]
theorem ensure_eq_ok {c : Prop} [Decidable c] {u : Unit} : ensure c e = .ok u ↔ c := by
  unfold ensure; split <;> simp_all

@[simp]
theorem ensure_eq_error {c : Prop} [Decidable c] {e' : AccountingError} :
    ensure c e = .error e' ↔ ¬c ∧ e = e' := by
  unfold ensure; split <;> simp_all

-- A table of liabilities changes state by state.
theorem updated_eq_ok (h : updated liabilities mask quantity side = .ok liabilities') :
    liabilities'.length = liabilities.length ∧ ∀ x (hx : x < liabilities.length) (hx' : x < liabilities'.length),
      if Payoff.pays mask x then changed liabilities[x] quantity side = .ok liabilities'[x]
      else liabilities'[x] = liabilities[x] := by
  rw [updated, Except.mapM_eq_ok, List.forall₂_iff_get] at h
  obtain ⟨hl, h⟩ := h
  rw [List.length_zipIdx] at hl
  refine ⟨hl.symm, fun x hx hx' => ?_⟩
  have := h x (by simpa using hx) hx'
  simp only [List.get_eq_getElem, List.getElem_zipIdx, zero_add] at this
  split at this
  case isTrue hp  => rwa [if_pos hp]
  case isFalse hp => rw [if_neg hp]; exact (Except.ok.inj this).symm

-- Only a liability below the quantity that is sold is inconsistent.
theorem updated_eq_inconsistent (h : updated liabilities mask quantity side = .error .inconsistentLiability) :
    side = .sell ∧ ∃ x, ∃ hx : x < liabilities.length, Payoff.pays mask x ∧ liabilities[x] < quantity := by
  have ⟨(liability, x), hm, h⟩ := Except.mapM_eq_error h
  obtain ⟨hx, rfl⟩ := List.mk_mem_zipIdx_iff_getElem?.mp hm |> List.getElem?_eq_some_iff.mp
  dsimp only at h
  split at h
  case isFalse    => cases h
  case isTrue hp  =>
    cases side
    case buy  => simp [changed] at h
    case sell => exact ⟨rfl, x, hx, hp, by simpa [changed] using h⟩

theorem holdingsOf_eq_ok (h : l.holdingsOf owner claim = .ok a) :
    l.space.events = claim.events ∧ a = Totals.held l.holdings (owner, claim.mask) := by
  simp only [holdingsOf, Except.bind_eq_ok, Except.mapError_eq_ok] at h
  obtain ⟨_, hu, hh⟩ := h
  cases hh
  exact ⟨Payoff.union_eq_ok hu, rfl⟩

theorem entry_eq_ok {e : Entry} (h : l.entry owner claim quantity cash side = .ok e) :
    l.space.events = claim.events ∧ claim.validateTradable = .ok () ∧
      moved (Totals.held l.holdings (owner, claim.mask)) l.collateral quantity cash side = .ok (e.owned, e.collateral) ∧
      updated l.liabilities claim.mask quantity side = .ok e.liabilities ∧
      ∀ b ∈ e.liabilities, b ≤ e.collateral := by
  simp only [entry, Except.bind_eq_ok, Except.mapError_eq_ok, Except.pure_eq_ok, ensure_eq_ok] at h
  obtain ⟨_, hh, _, ht, _, _, ⟨newOwned, newCollateral⟩, hm, _, hl, _, hc, he⟩ := h
  obtain ⟨hs, rfl⟩ := holdingsOf_eq_ok hh
  cases he
  exact ⟨hs, ht, hm, hl, by simpa using hc⟩

-- Nothing before the liabilities can find them inconsistent.
theorem entry_eq_inconsistent (h : l.entry owner claim quantity cash side = .error .inconsistentLiability) :
    ∃ moves, moved (Totals.held l.holdings (owner, claim.mask)) l.collateral quantity cash side = .ok moves ∧
      updated l.liabilities claim.mask quantity side = .error .inconsistentLiability := by
  simp only [entry, Except.bind_eq_error, Except.mapError_eq_error, ensure_eq_error, reduceCtorEq,
    and_false, exists_false, false_or] at h
  obtain h | ⟨_, hh, _, _, _, _, h | ⟨moves, hm, h | ⟨_, _, h⟩⟩⟩ := h
  · simp [holdingsOf, Except.bind_eq_error] at h
  · cases side <;> simp [moved, Except.bind_eq_error] at h
  · obtain ⟨_, rfl⟩ := holdingsOf_eq_ok hh
    exact ⟨moves, hm, h⟩
  · simp at h

end Entries

theorem new_events {events subsidy : ℕ} (h : new events subsidy = .ok l) : l.space.events = events := by
  simp only [new, Except.bind_eq_ok, Except.mapError_eq_ok, Except.pure_eq_ok] at h
  obtain ⟨space, hs, h⟩ := h
  cases h
  exact (Payoff.new_eq_ok hs).left

namespace Solvent

variable {e : Entry}

-- The liabilities move with the holdings of the claim that is traded.
theorem owes_store (hs : l.Solvent) (h : l.entry owner claim quantity cash side = .ok e) {x : ℕ}
    (hx : x < e.liabilities.length) : e.liabilities[x] = (l.store owner claim e).liability x := by
  have ⟨_, _, hm, hu, _⟩ := entry_eq_ok h
  have ⟨hl, hc⟩ := updated_eq_ok hu
  have ht : (l.store owner claim e).liability x + _ = l.liability x + _ := Totals.total_put
  replace hc := hc x (hl ▸ hx) hx
  have ho := hs.owes x (hl ▸ hx)
  by_cases hp : Payoff.pays claim.mask x
  case neg =>
    simp only [hp, Bool.false_eq_true, ↓reduceIte, zero_mul, add_zero] at ht hc
    rw [hc, ho, ht]
  case pos =>
    simp only [hp, ↓reduceIte, one_mul] at ht hc
    cases side
    all_goals
      simp [moved, changed] at hm hc
      omega

theorem store (hs : l.Solvent) (h : l.entry owner claim quantity cash side = .ok e) :
    (l.store owner claim e).Solvent := by
  have ⟨he, ht, _, hu, hc⟩ := entry_eq_ok h
  have hl := (updated_eq_ok hu).left
  exact {
    states    := hl.trans hs.states
    owes      := fun _ hx => hs.owes_store h hx
    covered   := fun _ hx => hc _ (List.getElem_mem hx)
    holds     := Totals.lookup_put_forall hs.holds Nat.pos_of_ne_zero
    tradables := Totals.lookup_put_forall hs.tradables fun _ => ⟨claim, he.symm, rfl, ht⟩
  }

-- An owner who holds enough is owed at least that much wherever the claim pays.
theorem held_le (hs : l.Solvent) {mask : BitVec 8} {x : ℕ} (hx : x < l.liabilities.length)
    (hp : Payoff.pays mask x) : Totals.held l.holdings (owner, mask) ≤ l.liabilities[x] := by
  have h : _ ≤ l.liability x := Totals.weight_mul_held_le_total (k := (owner, mask))
  rw [hs.owes x hx]
  simpa [hp] using h

theorem entry_ne_inconsistent (hs : l.Solvent) :
    l.entry owner claim quantity cash side ≠ .error .inconsistentLiability := by
  intro h
  have ⟨_, hm, hu⟩ := entry_eq_inconsistent h
  obtain ⟨rfl, x, hx, hp, hq⟩ := updated_eq_inconsistent hu
  have hh : Totals.held l.holdings (owner, claim.mask) ≤ l.liabilities[x] := hs.held_le hx hp
  simp only [moved, Except.bind_eq_ok, okOr_eq_ok, checkedSub_eq_some] at hm
  obtain ⟨_, ⟨hle, _⟩, _⟩ := hm
  exact absurd (hle.trans hh) (not_le.mpr hq)

theorem new {events subsidy : ℕ} (h : new events subsidy = .ok l) : l.Solvent := by
  simp only [ReferenceLedger.new, Except.bind_eq_ok, Except.mapError_eq_ok, Except.pure_eq_ok] at h
  obtain ⟨space, _, h⟩ := h
  cases h
  exact {
    states    := by simp
    owes      := by simp [liability]
    covered   := by simp
    holds     := by simp
    tradables := by simp
  }

-- The surplus never underflows.
theorem headroom (hs : l.Solvent) : ∃ surplus, l.headroom = some surplus := by
  refine ⟨_, checkedSub_eq_some.mpr ⟨?_, rfl⟩⟩
  unfold requiredCollateral
  cases hm : l.liabilities.max?
  case none   => exact Nat.zero_le _
  case some b =>
    obtain ⟨x, hx, rfl⟩ := List.getElem_of_mem (List.max?_mem hm)
    exact hs.covered x hx

-- What a call returns and leaves behind.
structure Follows (l : ReferenceLedger) (r : Except AccountingError Unit × ReferenceLedger) : Prop where
  space      : r.2.space = l.space
  solvent    : r.2.Solvent
  consistent : r.1 ≠ .error .inconsistentLiability
  atomic     : ∀ e, r.1 = .error e → r.2 = l

theorem recordTrade (hs : l.Solvent) : Follows l (recordTrade owner claim quantity cash side l) := by
  rw [recordTrade_run]
  cases h : l.entry owner claim quantity cash side
  case ok e    => exact ⟨rfl, hs.store h, by simp [commit], by simp [commit]⟩
  case error e =>
    refine ⟨rfl, hs, fun he => ?_, fun _ _ => rfl⟩
    cases he
    exact hs.entry_ne_inconsistent h

theorem record (hs : l.Solvent) : ∀ t, Follows l (record t l)
  | .buy _ _ _ _  => hs.recordTrade
  | .sell _ _ _ _ => hs.recordTrade

theorem run (hs : l.Solvent) (ts : List Trade) : (run l ts).Solvent ∧ (run l ts).space = l.space := by
  induction ts generalizing l
  case nil          => exact ⟨hs, rfl⟩
  case cons t ts hi =>
    have hf := hs.record t
    have ⟨hs', he⟩ := hi hf.solvent
    exact ⟨hs', he.trans hf.space⟩

end Solvent

-- Whatever is recorded, every terminal state stays covered, the liabilities are those of the
-- holdings, and a call that fails changes nothing.
theorem solvency {events subsidy : ℕ} (h : new events subsidy = .ok l) (ts : List Trade) :
    (run l ts).Solvent ∧ (run l ts).space.events = events ∧
      (∃ surplus, (run l ts).headroom = some surplus) ∧
      ∀ t, result (run l ts) t ≠ .error .inconsistentLiability ∧
        ∀ e, result (run l ts) t = .error e → next (run l ts) t = run l ts := by
  have ⟨hs, hx⟩ := (Solvent.new h).run ts
  refine ⟨hs, hx ▸ new_events h, hs.headroom, fun t => ?_⟩
  have hf := hs.record t
  exact ⟨hf.consistent, hf.atomic⟩

-- Two owners of one claim: the second cannot sell what only the first holds, a claim on three events
-- is refused, and neither is a quantity that overflows.
def sampleTrades : List Trade := [
  .buy 1 ⟨2, 8#8, by decide, by decide⟩ 5 3,
  .buy 2 ⟨2, 10#8, by decide, by decide⟩ 2 1,
  .sell 2 ⟨2, 8#8, by decide, by decide⟩ 1 0,
  .buy 1 ⟨3, 8#8, by decide, by decide⟩ 1 1,
  .buy 1 ⟨2, 8#8, by decide, by decide⟩ (2 ^ 128 - 1) 0,
  .sell 1 ⟨2, 8#8, by decide, by decide⟩ 5 4
]

theorem solvency_sample : ∃ l, new 2 10 = .ok l ∧ (run l sampleTrades).Solvent ∧
    (run l sampleTrades).liabilities = [0, 2, 0, 2] ∧ (run l sampleTrades).collateral = 10 := by
  obtain ⟨l, hl⟩ : ∃ l, new 2 10 = .ok l := ⟨_, rfl⟩
  refine ⟨l, hl, (solvency hl sampleTrades).left, ?_, ?_⟩
  all_goals
    cases hl
    decide +kernel

end ReferenceLedger
