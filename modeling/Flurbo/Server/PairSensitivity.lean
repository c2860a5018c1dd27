import Mathlib.Data.List.Fold
import Flurbo.Contracts.LmsrQuote
import Flurbo.Library.Digits
import Flurbo.Server.CombinationFits
import Flurbo.Server.PairExact

-- A read-only reflection of `FactoredQuote.updatedFactors` on snapshots, never execution authority. Each
-- scenario starts from the original snapshot, not from the preceding scenario.

open Evm Except
open FactoredCost (popcount project scopesAfter validateWidth)
open FactoredQuote (Market Updated updatedFactors)
open PairMath (RawFactor RawSnapshot Snapshot atom eventPair eliminationOrder ones validatePairSnapshot)
open Semantics (isNatural natural)

namespace PairSensitivity

inductive Failure
  | snapshot (e : PairMath.Failure)
  | answer
  | quantityLimit

structure Purchase where
  scope    : ℕ
  mask     : ℕ
  quantity : ℕ
  after    : Snapshot

-- The text of a `BigInt`.
def text (n : ℕ) : String := String.ofList (Nat.toDigits 10 n)

-- `BigInt(value)` of a value that has been read as an atom.
def amount (value : Option String) : ℕ := natural (value.getD "").toList

def share : ℕ := 1000000

def pairScope (a b : ℕ) : ℕ := 1 <<< a ||| 1 <<< b

def winningState (a b : ℕ) (answer : String) : ℕ :=
  let bBit := if b < a then 0 else 1
  if answer = "yes" then 3 else 1 <<< bBit

def merge (fs : List RawFactor) (scope : ℕ) : List ℕ × List RawFactor :=
  fs.foldl (fun (values, factors) f =>
    if f.scope = some (scope : ℤ) then
      (List.zipWith (fun sum value => sum + amount value) values (f.values.getD []), factors)
    else
      (values, factors ++ [f])) ([0, 0, 0, 0], [])

def tableOf (scope : ℕ) (values : List ℕ) : RawFactor :=
  ⟨some (scope : ℤ), some (values.map fun v => some (text v))⟩

def simulatePairPurchase (state : RawSnapshot) (answer : String) : Except Failure Purchase := do
  let s ← (validatePairSnapshot state).mapError .snapshot
  if answer ∉ ["yes", "no"] then
    .error .answer
  else if share > s.liquidity then
    .error .quantityLimit
  else
    let scope := pairScope s.a s.b
    let winningState := winningState s.a s.b answer
    let (values, factors) := merge (state.factors.getD []) scope
    let values := values.modify winningState (· + share)
    let after ← (validatePairSnapshot { state with factors := some (factors ++ [tableOf scope values]) }).mapError
      .snapshot
    return ⟨scope, 1 <<< winningState, share, after⟩

-- What the analytics read from a pool for a pair of its events.
def stateOf (market : Market) (a b : ℕ) : RawSnapshot where
  events    := some market.events
  a         := some a
  b         := some b
  liquidity := some (text market.liquidity)
  order     := some (market.order.map fun (v : ℕ) => some (v : ℤ))
  factors   := some (market.factors.map fun f => tableOf f.scope f.values)

def table (f : PairMath.Factor) : Factor := ⟨f.scope, f.values⟩

variable {n a b x scope mask w : ℕ} {raw : RawSnapshot} {s s' : Snapshot} {value : Option String}
  {f : RawFactor} {g : PairMath.Factor} {fs : List RawFactor} {gs : List PairMath.Factor} {market : Market}
  {answer : String} {after : List Factor}

section Texts

open Digits

theorem natural_eq_value (cs : List Char) : natural cs = Digits.value cs := rfl

@[simp]
theorem natural_text (n : ℕ) : natural (text n).toList = n := by
  rw [natural_eq_value, text, String.toList_ofList, Digits.value, Nat.ofDigitChars_ten_toDigits]

theorem toDigits_ne_nil (n : ℕ) : Nat.toDigits 10 n ≠ [] := by
  have := Nat.length_toDigits_pos (b := 10) (n := n)
  exact List.ne_nil_of_length_pos this

-- The text of an amount is read as that amount.
theorem atom_text (h : n < 2 ^ 128) : atom (some (text n)) = .ok n := by
  have hnil := toDigits_ne_nil n
  have hall := allDigits_toDigits n
  have hval : Digits.value (Nat.toDigits 10 n) = n := Nat.ofDigitChars_ten_toDigits
  have hlen : (Nat.toDigits 10 n).length ≤ 39 :=
    (length_le_iff hall hnil (noLeadingZero_toDigits n) (by decide)).mpr (by rw [hval]; omega)
  have hform : (text n).toList = ['0'] ∨ isNatural 39 (text n).toList := by
    rw [text, String.toList_ofList]
    by_cases hone : 1 < (Nat.toDigits 10 n).length
    · refine .inr ?_
      have hhead := noLeadingZero_toDigits n hone
      simpa [isNatural, hnil, hlen, hhead, AllDigits] using hall
    · obtain ⟨c, hc⟩ := List.length_eq_one_iff.mp
        (le_antisymm (not_lt.mp hone) (List.length_pos_iff.mpr hnil))
      by_cases hz : c = '0'
      · exact .inl (by rw [hc, hz])
      · refine .inr ?_
        rw [hc] at hall ⊢
        simpa [isNatural, hz, AllDigits] using hall
  have hle : natural (text n).toList ≤ 2 ^ 128 - 1 := by
    rw [natural_text]
    omega
  rw [atom, if_pos ⟨hform, hle⟩, natural_text]

theorem atom_eq_ok (h : atom value = .ok n) : amount value = n ∧ n < 2 ^ 128 := by
  unfold atom at h
  split at h
  case h_1   => contradiction
  case h_2 v =>
    split at h
    case isFalse   => contradiction
    case isTrue hv =>
      have := hv.2
      rw [← ok.inj h]
      exact ⟨rfl, by omega⟩

end Texts

section Tables

-- What the validation reads of a table.
theorem factor_eq_ok {events : ℕ} : PairMath.factor events f = .ok g ↔
    f.scope = some (g.scope : ℤ) ∧ 0 < g.scope ∧ g.scope < 2 ^ events ∧ ones g.scope ≤ 3 ∧
      ∃ values, f.values = some values ∧ values.mapM atom = .ok g.values := by
  constructor
  · intro h
    unfold PairMath.factor at h
    split at h
    case h_1            => contradiction
    case h_2 scope hf =>
      split at h
      case isTrue     => contradiction
      case isFalse hr =>
        split at h
        case h_1           => contradiction
        case h_2 values hv =>
          split at h
          case isTrue     => contradiction
          case isFalse ht =>
            split at h
            case h_1          => contradiction
            case h_2 atoms ha =>
              cases h
              rw [not_or] at hr ht
              have hcast : ((scope.toNat : ℕ) : ℤ) = scope := Int.toNat_of_nonneg (by omega)
              refine ⟨by rw [hf, hcast], by dsimp only; omega, ?_, not_lt.mp ht.1, values, hv, ha⟩
              have hlt : ((scope.toNat : ℕ) : ℤ) < 2 ^ events := by
                rw [hcast]
                exact not_le.mp hr.2
              exact_mod_cast hlt
  · rintro ⟨hs, hp, hlt, hones, values, hv, ha⟩
    have hlen : values.length = 2 ^ ones g.scope := by
      rw [(mapM_eq_ok.mp ha).length_eq, g.length_values]
    have hr : ¬ ((g.scope : ℤ) < 1 ∨ (g.scope : ℤ) ≥ 2 ^ events) := by
      have : (g.scope : ℤ) < 2 ^ events := by exact_mod_cast hlt
      omega
    have ht : ¬ (ones (g.scope : ℤ).toNat > 3 ∨ values.length ≠ 2 ^ ones (g.scope : ℤ).toNat) := by
      rw [Int.toNat_natCast]
      omega
    unfold PairMath.factor
    rw [hs]
    simp only [if_neg hr, hv, dif_neg ht]
    split
    case h_1 e he     => rw [ha] at he; contradiction
    case h_2 atoms he =>
      obtain rfl := ok.inj (ha.symm.trans he)
      congr

theorem atoms_text {values : List ℕ} (h : ∀ v ∈ values, v < 2 ^ 128) :
    (values.map fun v => some (text v)).mapM atom = .ok values := by
  refine mapM_eq_ok.mpr (List.forall₂_map_left_iff.mpr (List.forall₂_same.mpr fun v hv => atom_text (h v hv)))

theorem atoms_amount {values : List (Option String)} {ns : List ℕ} (h : values.mapM atom = .ok ns) :
    values.map amount = ns := by
  refine (mapM_eq_map h fun v n hv => ?_).symm
  exact (atom_eq_ok hv).1.symm

theorem scope_eq_iff {events : ℕ} (h : PairMath.factor events f = .ok g) :
    f.scope = some (scope : ℤ) ↔ g.scope = scope := by
  rw [(factor_eq_ok.mp h).1, Option.some_inj, Nat.cast_inj]

theorem getD_zipWith {vs : List ℕ} {values : List (Option String)} (hl : vs.length = values.length) (j : ℕ) :
    (List.zipWith (fun sum value => sum + amount value) vs values).getD j 0 =
      vs.getD j 0 + (values.map amount).getD j 0 := by
  induction vs generalizing values j
  case nil          => cases values <;> simp_all
  case cons v vs hi =>
    cases values
    case nil         => simp at hl
    case cons u us   =>
      cases j
      case zero   => simp
      case succ j => simpa using hi (by simpa using hl) j

-- The tables of other scopes are kept, and those of the scope are added up.
theorem merge_spec {events : ℕ} (h : fs.mapM (PairMath.factor events) = .ok gs) (hs : ones scope = 2) :
    ∃ values, merge fs scope = (values, fs.filter fun f => f.scope ≠ some (scope : ℤ)) ∧ values.length = 4 ∧
      ∀ j, values.getD j 0 = FactoredQuote.entryOf (gs.map table) scope j := by
  -- The accumulator holds what the tables read so far contribute.
  suffices hm : ∀ vs os, vs.length = 4 → ∃ values, fs.foldl (fun (values, factors) f =>
      if f.scope = some (scope : ℤ) then
        (List.zipWith (fun sum value => sum + amount value) values (f.values.getD []), factors)
      else
        (values, factors ++ [f])) (vs, os) = (values, os ++ fs.filter fun f => f.scope ≠ some (scope : ℤ)) ∧
      values.length = 4 ∧
      ∀ j, values.getD j 0 = vs.getD j 0 + FactoredQuote.entryOf (gs.map table) scope j by
    obtain ⟨values, hm, hl, he⟩ := hm [0, 0, 0, 0] [] rfl
    refine ⟨values, hm, hl, fun j => ?_⟩
    have hz : [0, 0, 0, 0].getD j 0 = 0 := by
      match j with
      | 0 | 1 | 2 | 3 => rfl
      | _ + 4         => simp
    rw [he, hz, Nat.zero_add]
  replace h := mapM_eq_ok.mp h
  induction h
  case nil                      => exact fun vs os hl => ⟨vs, by simp, hl, by simp [FactoredQuote.entryOf]⟩
  case cons f g fs gs hf hfs hi =>
    intro vs os hl
    have hscope := @scope_eq_iff scope _ _ _ hf
    obtain ⟨_, _, _, _, values, hv, ha⟩ := factor_eq_ok.mp hf
    by_cases h : g.scope = scope
    · have hlen : values.length = 4 := by
        rw [(mapM_eq_ok.mp ha).length_eq, g.length_values, h, hs]
        rfl
      have hkept : (f :: fs).filter (fun f => f.scope ≠ some (scope : ℤ)) =
          fs.filter fun f => f.scope ≠ some (scope : ℤ) := by
        rw [List.filter_cons_of_neg (by simpa using hscope.mpr h)]
      simp only [List.foldl_cons, if_pos (hscope.mpr h), hkept, hv, Option.getD_some]
      obtain ⟨r, hr, hl', he⟩ := hi (List.zipWith (fun sum value => sum + amount value) vs values) os (by simp [hl, hlen])
      refine ⟨r, hr, hl', fun j => ?_⟩
      have hentry : FactoredQuote.entryOf ((g :: gs).map table) scope j =
          g.values.getD j 0 + FactoredQuote.entryOf (gs.map table) scope j := by
        simp [FactoredQuote.entryOf, table, h, Factor.entry]
      rw [he, getD_zipWith (hl.trans hlen.symm), atoms_amount ha, hentry, Nat.add_assoc]
    · have hkept : (f :: fs).filter (fun f => f.scope ≠ some (scope : ℤ)) =
          f :: fs.filter fun f => f.scope ≠ some (scope : ℤ) := by
        rw [List.filter_cons_of_pos (by simpa using mt hscope.mp h)]
      simp only [List.foldl_cons, if_neg (mt hscope.mp h), hkept]
      obtain ⟨r, hr, hl', he⟩ := hi vs (os ++ [f]) hl
      refine ⟨r, by rw [hr, List.append_assoc, List.singleton_append], hl', fun j => ?_⟩
      have hentry : FactoredQuote.entryOf ((g :: gs).map table) scope j =
          FactoredQuote.entryOf (gs.map table) scope j := by
        simp [FactoredQuote.entryOf, table, h]
      rw [he, hentry]

theorem others_eq_ok {events : ℕ} (h : fs.mapM (PairMath.factor events) = .ok gs) :
    (fs.filter fun f => f.scope ≠ some (scope : ℤ)).mapM (PairMath.factor events) =
      .ok (gs.filter fun g => g.scope ≠ scope) := by
  refine mapM_eq_ok.mpr (List.rel_filter (fun f g hfg => ?_) (mapM_eq_ok.mp h))
  simp [scope_eq_iff hfg]

end Tables

section Orders

theorem mapM_id_map_some {α : Type*} (l : List α) : (l.map some).mapM id = some l := by
  induction l
  case nil          => rfl
  case cons a l hi  => rw [List.map_cons, List.mapM_cons, hi]; rfl

theorem insertionSort_eq_range {l : List ℤ} {events : ℕ} :
    l.insertionSort (· ≤ ·) = (List.range events).map Nat.cast ↔ l.Perm ((List.range events).map Nat.cast) := by
  have hsorted : ((List.range events).map (Nat.cast : ℕ → ℤ)).Pairwise (· ≤ ·) :=
    List.pairwise_map.mpr (List.pairwise_le_range.imp fun h => Nat.cast_le.mpr h)
  constructor
  · exact fun h => h ▸ (List.perm_insertionSort (· ≤ ·) l).symm
  · intro h
    exact ((List.perm_insertionSort (· ≤ ·) l).trans h).eq_of_pairwise (fun _ _ _ _ => le_antisymm)
      (List.pairwise_insertionSort _ l) hsorted

theorem map_cast_toNat {l : List ℤ} {events : ℕ} (h : l.Perm ((List.range events).map Nat.cast)) :
    (l.map Int.toNat).map (Nat.cast : ℕ → ℤ) = l := by
  rw [List.map_map]
  refine (List.map_congr_left fun v hv => ?_).trans (List.map_id l)
  obtain ⟨n, _, rfl⟩ := List.mem_map.mp (h.mem_iff.mp hv)
  rfl

theorem eliminationOrder_perm {events : ℕ} {raw : Option (List (Option ℤ))} {order : List ℕ}
    (h : eliminationOrder events raw = .ok order) : order.Perm (List.range events) := by
  unfold eliminationOrder at h
  split at h
  case h_1      => contradiction
  case h_2 l hl =>
    split at h
    case isTrue     => contradiction
    case isFalse hc =>
      rw [not_or, not_not, not_not] at hc
      have hp := insertionSort_eq_range.mp hc.2
      rw [← ok.inj h, ← List.map_perm_map_iff Nat.cast_injective (β := ℤ), map_cast_toNat hp]
      exact hp

theorem eliminationOrder_ok {events : ℕ} {order : List ℕ} (h : order.Perm (List.range events)) :
    eliminationOrder events (some (order.map fun (v : ℕ) => some (v : ℤ))) = .ok order := by
  have hmap : order.map (fun (v : ℕ) => some (v : ℤ)) = (order.map (Nat.cast : ℕ → ℤ)).map some := by
    rw [List.map_map]
    rfl
  have hlen : (order.map (Nat.cast : ℕ → ℤ)).length = events := by
    rw [List.length_map, h.length_eq, List.length_range]
  have hsort := insertionSort_eq_range.mpr (h.map (Nat.cast : ℕ → ℤ))
  unfold eliminationOrder
  rw [Option.bind_some, hmap, mapM_id_map_some]
  simp only [hlen, hsort, ne_eq, not_true_eq_false, or_self, if_false, ok.injEq, List.map_map]
  exact (List.map_congr_left fun v _ => Int.toNat_natCast v).trans (List.map_id order)

theorem eventPair_eq_ok {raw : RawSnapshot} {events a b : ℕ} : eventPair raw = .ok (events, a, b) ↔
    raw.events = some (events : ℤ) ∧ raw.a = some (a : ℤ) ∧ raw.b = some (b : ℤ) ∧
      events ∈ [2, 3, 4] ∧ a ≠ b ∧ a < events ∧ b < events := by
  constructor
  · intro h
    unfold eventPair at h
    split at h
    case h_2 => contradiction
    case h_1 e a' b' he ha hb =>
      split at h
      case isTrue     => contradiction
      case isFalse hc =>
        simp only [not_or, List.mem_cons, List.not_mem_nil, or_false, ok.injEq, Prod.mk.injEq] at hc h
        have hpos : 0 ≤ e ∧ 0 ≤ a' ∧ 0 ≤ b' := by omega
        rw [he, ha, hb, ← h.1, ← h.2.1, ← h.2.2, Int.toNat_of_nonneg hpos.1, Int.toNat_of_nonneg hpos.2.1,
          Int.toNat_of_nonneg hpos.2.2]
        refine ⟨rfl, rfl, rfl, ?_, by omega, by omega, by omega⟩
        simp only [List.mem_cons, List.not_mem_nil, or_false]
        omega
  · rintro ⟨he, ha, hb, hm, hne, hae, hbe⟩
    unfold eventPair
    rw [he, ha, hb]
    simp only [List.mem_cons, List.not_mem_nil, or_false] at hm ⊢
    rw [if_neg (by omega)]
    rfl

end Orders

section Graphs

-- What the checks before that of the graph have read from a snapshot.
structure Reads (raw : RawSnapshot) (s : Snapshot) : Prop where
  pair      : eventPair raw = .ok (s.events, s.a, s.b)
  liquidity : atom raw.liquidity = .ok s.liquidity
  order     : eliminationOrder s.events raw.order = .ok s.order
  factors   : ∃ fs, raw.factors = some fs ∧ fs.length ≤ 64 ∧ fs.mapM (PairMath.factor s.events) = .ok s.factors

theorem validate_iff_reads : validatePairSnapshot raw = .ok s ↔
    Reads raw s ∧ ∃ scopes, s.order.foldlM PairMath.eliminate (s.factors.map (·.scope)) = .ok scopes := by
  rw [PairMath.validatePairSnapshot_eq_ok]
  constructor
  · rintro ⟨hp, hl, ho, fs, hf, hn, hfs, hg⟩
    exact ⟨⟨hp, hl, ho, fs, hf, hn, hfs⟩, hg⟩
  · rintro ⟨⟨hp, hl, ho, fs, hf, hn, hfs⟩, hg⟩
    exact ⟨hp, hl, ho, fs, hf, hn, hfs, hg⟩

namespace Reads

variable (h : Reads raw s)
include h

theorem events_le : s.events ≤ 4 := by
  have := (eventPair_eq_ok.mp h.pair).2.2.2.1
  simp only [List.mem_cons, List.not_mem_nil, or_false] at this
  omega

theorem order_perm : s.order.Perm (List.range s.events) := eliminationOrder_perm h.order

theorem scope_lt : ∀ g ∈ s.factors, 0 < g.scope ∧ g.scope < 2 ^ s.events ∧ ones g.scope ≤ 3 := by
  intro g hg
  obtain ⟨fs, _, _, hfs⟩ := h.factors
  obtain ⟨hl, hget⟩ := List.forall₂_iff_get.mp (mapM_eq_ok.mp hfs)
  obtain ⟨i, hi, rfl⟩ := List.mem_iff_getElem.mp hg
  have hf := hget i (hl ▸ hi) hi
  have ⟨_, hp, hlt, hones, _⟩ := factor_eq_ok.mp hf
  exact ⟨hp, hlt, hones⟩

end Reads

theorem scope_lt_word (he : s.events ≤ 4) (hs : ∀ g ∈ s.factors, g.scope < 2 ^ s.events) :
    ∀ scope ∈ s.factors.map (·.scope), scope < 2 ^ 31 := by
  refine List.forall_mem_map.mpr fun g hg => (hs g hg).trans_le ?_
  exact Nat.pow_le_pow_right (by decide) (by omega)

-- A snapshot that is read is accepted if and only if the contract accepts the width of its graph.
theorem Reads.accepted_iff (h : Reads raw s) : validatePairSnapshot raw = .ok s ↔
    ∃ width, validateWidth s.order (s.factors.map (·.scope)) 0 = .ok width := by
  have hlt := scope_lt_word h.events_le fun g hg => (h.scope_lt g hg).2.1
  have ho : ∀ v ∈ s.order, v < 31 := fun v hv => by
    have := List.mem_range.mp (h.order_perm.mem_iff.mp hv)
    have := h.events_le
    omega
  have hw : FactoredCost.Within (s.factors.map (·.scope)) (s.factors.map (·.scope)) :=
    .of_subset fun _ => id
  rw [validate_iff_reads, and_iff_right h]
  exact FactoredCost.eliminate_iff hw hw hlt hlt ho

end Graphs

section Claims

variable (ha : a < 4) (hb : b < 4) (hne : a ≠ b)
include ha hb hne

theorem bitIndices_pairScope : (pairScope a b).bitIndices = [min a b, max a b] := by
  have : ∀ a < 4, ∀ b < 4, a ≠ b → (pairScope a b).bitIndices = [min a b, max a b] := by decide +kernel
  exact this a ha b hb hne

theorem ones_pairScope : ones (pairScope a b) = 2 := by
  rw [ones, bitIndices_pairScope ha hb hne]
  rfl

omit hne in
theorem pairScope_lt : pairScope a b < 2 ^ 4 := by
  rw [pairScope, Nat.one_shiftLeft, Nat.one_shiftLeft]
  exact Nat.or_lt_two_pow (Nat.pow_lt_pow_right (by decide) ha) (Nat.pow_lt_pow_right (by decide) hb)

theorem popcount_pairScope : popcount (pairScope a b) = 2 := by
  have hlt := pairScope_lt ha hb
  rw [FactoredCost.popcount_eq_ones (hlt.trans (by decide)), ones_pairScope ha hb hne]

-- The lower of the two events has the lower bit of the local state.
theorem project_pairScope (x : ℕ) :
    project (pairScope a b) x = (x.testBit (min a b)).toNat + 2 * (x.testBit (max a b)).toNat := by
  have hlt := pairScope_lt ha hb
  rw [FactoredCost.project_eq (hlt.trans (by decide)), bitIndices_pairScope ha hb hne]
  simp only [Bits.gather, Nat.bit_val]
  omega

-- The claim is the second event, together with the answer to the first.
theorem claim_spec (hans : answer ∈ ["yes", "no"]) (x : ℕ) :
    (1 <<< winningState a b answer).testBit (project (pairScope a b) x) ↔
      x.testBit b ∧ (x.testBit a ↔ answer = "yes") := by
  rw [project_pairScope ha hb hne, Nat.one_shiftLeft, Nat.testBit_two_pow, decide_eq_true_iff, winningState]
  have hno : answer ≠ "yes" → answer = "no" := by simpa [or_iff_not_imp_left] using hans
  by_cases hy : answer = "yes"
  · rcases lt_or_gt_of_ne hne with h | h
    · simp only [hy, min_eq_left h.le, max_eq_right h.le]
      cases x.testBit a <;> cases x.testBit b <;> simp
    · simp only [hy, min_eq_right h.le, max_eq_left h.le]
      cases x.testBit a <;> cases x.testBit b <;> simp
  · rcases lt_or_gt_of_ne hne with h | h
    · simp only [hy, min_eq_left h.le, max_eq_right h.le, if_neg h.not_gt]
      cases x.testBit a <;> cases x.testBit b <;> simp
    · simp only [hy, min_eq_right h.le, max_eq_left h.le, if_pos h]
      cases x.testBit a <;> cases x.testBit b <;> simp

omit ha hb hne in
theorem winningState_mem : winningState a b answer ∈ [1, 2, 3] := by
  unfold winningState
  split_ifs <;> simp

theorem claim_valid : Claim.Valid ⟨pairScope a b, 1 <<< winningState a b answer⟩ := by
  have hp := popcount_pairScope ha hb hne
  have hm : winningState a b answer ∈ [1, 2, 3] := winningState_mem
  simp only [List.mem_cons, List.not_mem_nil, or_false] at hm
  refine ⟨by dsimp only; omega, by dsimp only; omega, ?_, ?_⟩
  · dsimp only
    rcases hm with hm | hm | hm <;> rw [hm] <;> decide
  · dsimp only
    rw [hp]
    rcases hm with hm | hm | hm <;> rw [hm] <;> decide

end Claims

section Mirrors

-- A snapshot of a market.
structure Mirrors (s : Snapshot) (market : Market) : Prop where
  events    : s.events = market.events
  liquidity : s.liquidity = market.liquidity
  order     : s.order = market.order
  factors   : s.factors.map table = market.factors

theorem maximum_table (g : PairMath.Factor) : (table g).maximum = g.maximum :=
  List.foldl_eq_foldr.symm

theorem sum_maxima_table : ((gs.map table).map (·.maximum)).sum = (gs.map (·.maximum)).sum := by
  rw [List.map_map]
  exact congrArg List.sum (List.map_congr_left fun g _ => maximum_table g)

theorem scopes_table : (gs.map table).map (·.scope) = gs.map (·.scope) := by
  rw [List.map_map]
  rfl

theorem tableOf_eq_ok {events : ℕ} {values : List ℕ} (hp : 0 < scope) (hs : scope < 2 ^ events)
    (ho : ones scope ≤ 3) (hl : values.length = 2 ^ ones scope) (hv : ∀ v ∈ values, v < 2 ^ 128) :
    PairMath.factor events (tableOf scope values) = .ok ⟨scope, values, hl⟩ :=
  factor_eq_ok.mpr ⟨rfl, hp, hs, ho, _, rfl, atoms_text hv⟩

-- The texts of tables are read as these tables.
theorem tables_eq_ok {events : ℕ} {ts : List Factor} (h : ∀ f ∈ ts, 0 < f.scope ∧ f.scope < 2 ^ events ∧
      ones f.scope ≤ 3 ∧ f.values.length = 2 ^ ones f.scope ∧ ∀ v ∈ f.values, v < 2 ^ 128) :
    ∃ gs, (ts.map fun f => tableOf f.scope f.values).mapM (PairMath.factor events) = .ok gs ∧
      gs.map table = ts := by
  induction ts
  case nil          => exact ⟨[], rfl, rfl⟩
  case cons f ts hi =>
    have ⟨⟨hp, hs, ho, hl, hv⟩, h⟩ := List.forall_mem_cons.mp h
    have ⟨gs, hg, ht⟩ := hi h
    refine ⟨⟨f.scope, f.values, hl⟩ :: gs, ?_, by rw [List.map_cons, ht]; rfl⟩
    rw [List.map_cons, List.mapM_cons, tableOf_eq_ok hp hs ho hl hv, ok_bind, hg]
    rfl

end Mirrors

section Pools

variable (h : FactoredQuote.validate market = .ok w)
include h

theorem factor_bounds : ∀ f ∈ market.factors, f.scope < 2 ^ market.events ∧ ones f.scope ≤ 3 ∧
    f.values.length = 2 ^ ones f.scope ∧ ∀ v ∈ f.values, v < 2 ^ 128 := by
  have hb := FactoredQuote.validate_bounded h
  intro f hf
  have hw := hb.wellFormed f hf
  have hlt := hw.scope_lt_word hb.events_le
  have hcount := FactoredCost.popcount_eq_ones (hlt.trans (by decide))
  refine ⟨hw.scope_lt, hcount ▸ hw.size_le, hcount ▸ hw.length_eq, fun v hv => ?_⟩
  have := hw.values_le v hv
  have := hb.liquidity
  omega

theorem order_perm : market.order.Perm (List.range market.events) := (FactoredQuote.validate_valid h).order_perm

-- The snapshot of a pool is accepted if and only if it has no constant table, of which it never stores any.
theorem stateOf_accepted (he : market.events ∈ [2, 3, 4]) (ha : a < market.events) (hb : b < market.events)
    (hne : a ≠ b) :
    (∃ s, validatePairSnapshot (stateOf market a b) = .ok s ∧ Mirrors s market ∧ s.a = a ∧ s.b = b) ↔
      ∀ f ∈ market.factors, 0 < f.scope := by
  have hbound := FactoredQuote.validate_bounded h
  constructor
  · rintro ⟨s, hs, hm, _⟩ f hf
    have hr := (validate_iff_reads.mp hs).1
    rw [← hm.factors] at hf
    obtain ⟨g, hg, rfl⟩ := List.mem_map.mp hf
    exact (hr.scope_lt g hg).1
  · intro hp
    have hfb := factor_bounds h
    obtain ⟨gs, hgs, ht⟩ := tables_eq_ok fun f hf => ⟨hp f hf, hfb f hf⟩
    have hpos : 0 < market.liquidity := by
      have := (FactoredQuote.validate_valid h).liquidity.1
      by_contra hz
      rw [Nat.eq_zero_of_not_pos hz, Nat.zero_mul] at this
      omega
    have hmax : (gs.map (·.maximum)).sum ≤ 100 * market.liquidity := by
      rw [← sum_maxima_table, ht]
      exact hbound.sum_maxima
    let s : Snapshot := ⟨market.events, a, b, market.liquidity, market.order, gs, hpos, hmax⟩
    have hr : Reads (stateOf market a b) s := {
      pair      := eventPair_eq_ok.mpr ⟨rfl, rfl, rfl, he, hne, ha, hb⟩
      liquidity := atom_text (hbound.liquidity.trans_lt (by decide))
      order     := eliminationOrder_ok (order_perm h)
      factors   := ⟨_, rfl, by simpa using hbound.length_le, hgs⟩
    }
    refine ⟨s, hr.accepted_iff.mpr ⟨w, ?_⟩, ⟨rfl, rfl, rfl, ht⟩, rfl, rfl⟩
    have hw : validateWidth market.order (market.factors.map (·.scope)) 0 = .ok w := by
      simp only [FactoredQuote.validate, bind_eq_ok] at h
      obtain ⟨_, _, _, _, _, hwad, hw⟩ := h
      have := (FactoredCost.validate_eq_ok.mp hw).2
      rw [FactoredQuote.toWad_eq_ok hwad, List.map_map] at this
      exact this
    rw [← ht, scopes_table] at hw
    exact hw

end Pools

section Purchases

-- The tables of a snapshot after a purchase.
theorem purchase_tables {events : ℕ} {values : List ℕ} (h : fs.mapM (PairMath.factor events) = .ok gs)
    (hp : 0 < scope) (hs : scope < 2 ^ events) (ho : ones scope ≤ 3) (hl : values.length = 2 ^ ones scope)
    (hv : ∀ v ∈ values, v < 2 ^ 128) :
    ((fs.filter fun f => f.scope ≠ some (scope : ℤ)) ++ [tableOf scope values]).mapM (PairMath.factor events) =
      .ok ((gs.filter fun g => g.scope ≠ scope) ++ [⟨scope, values, hl⟩]) := by
  rw [List.mapM_append, others_eq_ok h, ok_bind, List.mapM_cons,
    tableOf_eq_ok hp hs ho hl hv]
  rfl

theorem map_filter_table : (gs.filter fun g => g.scope ≠ scope).map table =
    (gs.map table).filter fun f => f.scope ≠ scope := by
  rw [List.filter_map]
  rfl

-- The entry of the state that wins moves, and the others stay.
theorem modify_eq {values values' : List ℕ} {j q : ℕ} (hl : values.length = values'.length)
    (h : ∀ i < values'.length, values'.getD i 0 = values.getD i 0 + if (1 <<< j).testBit i then q else 0) :
    values.modify j (· + q) = values' := by
  refine List.ext_getElem (by rw [List.length_modify, hl]) fun i hi hi' => ?_
  have hg := h i hi'
  rw [List.length_modify] at hi
  rw [List.getD_eq_getElem _ _ hi', List.getD_eq_getElem _ _ hi, Nat.one_shiftLeft, Nat.testBit_two_pow] at hg
  rw [List.getElem_modify, hg]
  by_cases hij : j = i <;> simp [hij]

-- The snapshot whose tables of a scope are replaced by one.
def purchased (raw : RawSnapshot) (scope : ℕ) (values : List ℕ) : RawSnapshot :=
  { raw with factors := some (((raw.factors.getD []).filter fun f => f.scope ≠ some (scope : ℤ)) ++ [tableOf scope values]) }

section Replaced

variable {mask quantity : ℕ} {isBuy : Bool} {values : List ℕ} (h : FactoredQuote.validate market = .ok w)
  (hlen : market.factors.length < 64) (hr : Reads raw s) (hm : Mirrors s market)
  (hu : Updated market scope mask quantity isBuy after values)
include hu

theorem scope_pos : 0 < scope := by
  by_contra hz
  have : 0 < popcount scope := hu.claim.size_pos
  rw [Nat.eq_zero_of_not_pos hz] at this
  exact absurd this (by decide)

include h

theorem ones_scope : ones scope = popcount scope := by
  have hb := FactoredQuote.validate_bounded h
  have hlt : scope < 2 ^ 32 := hu.scope_lt.trans_le (Nat.pow_le_pow_right (by decide) hb.events_le)
  exact (FactoredCost.popcount_eq_ones (hlt.trans (by decide))).symm

theorem after_shape : ∀ f ∈ after, f.scope < 2 ^ market.events ∧ popcount f.scope ≤ 3 ∧
    f.values.length = 2 ^ popcount f.scope := by
  have hb := FactoredQuote.validate_bounded h
  rw [hu.after_eq]
  refine List.forall_mem_append.mpr ⟨fun f hf => ?_, List.forall_mem_singleton.mpr ?_⟩
  · have hw := hb.wellFormed f (List.mem_of_mem_filter hf)
    exact ⟨hw.scope_lt, hw.size_le, hw.length_eq⟩
  · exact ⟨hu.scope_lt, hu.claim.size_le, hu.length_eq⟩

include hr hm

-- The tables that are read from it are those that the update leads to.
theorem purchased_tables : ∃ fs gs, (purchased raw scope values).factors = some fs ∧
    fs.length ≤ s.factors.length + 1 ∧ fs.mapM (PairMath.factor s.events) = .ok gs ∧ gs.map table = after := by
  obtain ⟨fs, hfs, _, hgs⟩ := hr.factors
  have hones := ones_scope h hu
  have hl : values.length = 2 ^ ones scope := by rw [hones, hu.length_eq]
  have hv : ∀ v ∈ values, v < 2 ^ 128 := by
    intro v hv
    obtain ⟨i, hi, rfl⟩ := List.mem_iff_getElem.mp hv
    have := hu.entry_lt i hi
    rwa [List.getD_eq_getElem _ _ hi] at this
  have hs : scope < 2 ^ s.events := hm.events ▸ hu.scope_lt
  have hle : ones scope ≤ 3 := hones ▸ hu.claim.size_le
  refine ⟨_, _, by rw [purchased, hfs]; rfl, ?_,
    purchase_tables hgs (scope_pos hu) hs hle hl hv, ?_⟩
  · have h₁ := List.length_filter_le (fun f : RawFactor => f.scope ≠ some (scope : ℤ)) fs
    have h₂ : fs.length = s.factors.length := (mapM_eq_ok.mp hgs).length_eq
    rw [List.length_append, List.length_singleton]
    exact Nat.succ_le_succ (h₂ ▸ h₁)
  · rw [hu.after_eq, ← hm.factors, ← map_filter_table, List.map_append]
    rfl

theorem reads_purchased (hr' : Reads (purchased raw scope values) s') :
    Mirrors s' { market with factors := after } := by
  obtain ⟨fs, gs, hfs, _, hgs, ht⟩ := purchased_tables h hr hm hu
  have hpair : (s'.events, s'.a, s'.b) = (s.events, s.a, s.b) := ok.inj (hr'.pair.symm.trans hr.pair)
  have hev : s'.events = s.events := congrArg Prod.fst hpair
  obtain ⟨fs', hfs', _, hgs'⟩ := hr'.factors
  have ho := hr'.order
  rw [hev] at hgs' ho
  rw [← Option.some.inj (hfs.symm.trans hfs'), hgs] at hgs'
  refine ⟨hev.trans hm.events, ?_, ?_, by rw [← ok.inj hgs', ht]⟩
  · exact (ok.inj (hr'.liquidity.symm.trans hr.liquidity)).trans hm.liquidity
  · exact (ok.inj (ho.symm.trans hr.order)).trans hm.order

include hlen

-- It is accepted if and only if the contract accepts these tables.
theorem purchased_accepted : (∃ s', validatePairSnapshot (purchased raw scope values) = .ok s') ↔
    ∃ w, FactoredQuote.validate { market with factors := after } = .ok w := by
  rw [FactoredQuote.validate_iff h hu.length_le (after_shape h hu)]
  constructor
  · rintro ⟨s', hs'⟩
    have ⟨hr', _⟩ := validate_iff_reads.mp hs'
    have hm' := reads_purchased h hr hm hu hr'
    obtain ⟨width, hwidth⟩ := hr'.accepted_iff.mp hs'
    have hmax := s'.maxima_le
    rw [← sum_maxima_table, hm'.factors, hm'.liquidity] at hmax
    rw [← scopes_table, hm'.factors, hm'.order] at hwidth
    exact ⟨hmax, width, hwidth⟩
  · rintro ⟨hmax, width, hwidth⟩
    obtain ⟨fs, gs, hfs, hfl, hgs, ht⟩ := purchased_tables h hr hm hu
    rw [← ht, sum_maxima_table, ← hm.liquidity] at hmax
    rw [← ht, scopes_table, ← hm.order] at hwidth
    have hle : fs.length ≤ 64 := by
      have : s.factors.length = market.factors.length := by rw [← hm.factors, List.length_map]
      omega
    let s' : Snapshot := ⟨s.events, s.a, s.b, s.liquidity, s.order, gs, s.liquidity_pos, hmax⟩
    have hr' : Reads (purchased raw scope values) s' := ⟨hr.pair, hr.liquidity, hr.order, fs, hfs, hle, hgs⟩
    exact ⟨s', hr'.accepted_iff.mpr ⟨width, hwidth⟩⟩

end Replaced

variable (h : FactoredQuote.validate market = .ok w) (hs : validatePairSnapshot raw = .ok s) (hm : Mirrors s market)
  (hans : answer ∈ ["yes", "no"])

section Simulation

include hs hm hans

theorem simulate_refused (hq : market.liquidity < share) :
    simulatePairPurchase raw answer = .error .quantityLimit := by
  rw [simulatePairPurchase, hs]
  simp only [Except.mapError, ok_bind, if_neg (not_not.mpr hans), if_pos (hm.liquidity ▸ hq : share > s.liquidity)]

-- The simulation validates the tables that the update of the contract leads to.
theorem simulate_eq {values : List ℕ} (hq : share ≤ market.liquidity)
    (hu : Updated market (pairScope s.a s.b) (1 <<< winningState s.a s.b answer) share true after values) :
    simulatePairPurchase raw answer = (do
      let after ← (validatePairSnapshot (purchased raw (pairScope s.a s.b) values)).mapError .snapshot
      return ⟨pairScope s.a s.b, 1 <<< winningState s.a s.b answer, share, after⟩) := by
  have ⟨hr, _⟩ := validate_iff_reads.mp hs
  have ⟨_, _, _, _, hne, ha, hb⟩ := eventPair_eq_ok.mp hr.pair
  have he := hr.events_le
  have ha₄ : s.a < 4 := by omega
  have hb₄ : s.b < 4 := by omega
  obtain ⟨fs, hfs, _, hgs⟩ := hr.factors
  obtain ⟨sums, hmerge, hsl, hse⟩ := merge_spec hgs (ones_pairScope ha₄ hb₄ hne)
  rw [hm.factors] at hse
  have hmod : sums.modify (winningState s.a s.b answer) (· + share) = values := by
    refine modify_eq (by rw [hsl, hu.length_eq, popcount_pairScope ha₄ hb₄ hne]; rfl) fun i hi => ?_
    rw [hse]
    exact hu.entry i hi
  have hq' : ¬ share > s.liquidity := not_lt.mpr (hm.liquidity ▸ hq)
  rw [simulatePairPurchase, hs, purchased, hfs]
  simp only [Except.mapError, ok_bind, if_neg (not_not.mpr hans), if_neg hq', Option.getD_some, hmerge, hmod]

end Simulation

include h hs hm hans

-- A purchase of a share is simulated if and only if the contract accepts the tables that its own update leads
-- to, and then leads to the same tables.
theorem simulate_spec (hlen : market.factors.length < 64) (hq : share ≤ market.liquidity) :
    ∃ after, updatedFactors market (pairScope s.a s.b) (1 <<< winningState s.a s.b answer) share true = .ok after ∧
      (∀ p, simulatePairPurchase raw answer = .ok p →
        p.scope = pairScope s.a s.b ∧ p.mask = 1 <<< winningState s.a s.b answer ∧ p.quantity = share ∧
          Mirrors p.after { market with factors := after }) ∧
      ((∃ p, simulatePairPurchase raw answer = .ok p) ↔
        ∃ w, FactoredQuote.validate { market with factors := after } = .ok w) := by
  have ⟨hr, _⟩ := validate_iff_reads.mp hs
  have ⟨_, _, _, _, hne, ha, hb⟩ := eventPair_eq_ok.mp hr.pair
  have he := hr.events_le
  have hslt : pairScope s.a s.b < 2 ^ s.events := by
    rw [pairScope, Nat.one_shiftLeft, Nat.one_shiftLeft]
    exact Nat.or_lt_two_pow (Nat.pow_lt_pow_right (by decide) ha) (Nat.pow_lt_pow_right (by decide) hb)
  have hacc : FactoredQuote.Accepted market (pairScope s.a s.b) (1 <<< winningState s.a s.b answer) share :=
    ⟨by decide, hq, hm.events ▸ hslt, claim_valid (by omega) (by omega) hne⟩
  obtain ⟨after, hafter⟩ := FactoredQuote.buy_accepted (FactoredQuote.validate_bounded h) hacc hlen
  obtain ⟨values, hu⟩ := FactoredQuote.updatedFactors_eq_ok hafter
  have hsim := simulate_eq hs hm hans hq hu
  refine ⟨after, hafter, fun p hp => ?_, ?_⟩
  · rw [hsim] at hp
    obtain ⟨s', hs', hp⟩ := bind_eq_ok.mp hp
    have ⟨hr', _⟩ := validate_iff_reads.mp (mapError_eq_ok.mp hs')
    rw [← ok.inj hp]
    exact ⟨rfl, rfl, rfl, reads_purchased h hr hm hu hr'⟩
  · rw [← purchased_accepted h hlen hr hm hu, hsim]
    constructor
    · rintro ⟨p, hp⟩
      obtain ⟨s', hs', _⟩ := bind_eq_ok.mp hp
      exact ⟨s', mapError_eq_ok.mp hs'⟩
    · rintro ⟨s', hs'⟩
      rw [hs']
      exact ⟨_, rfl⟩

end Purchases

theorem updatedFactors_refused {quantity : ℕ} {isBuy : Bool} (hq : market.liquidity < quantity) :
    updatedFactors market scope mask quantity isBuy = .error .invalidQuantity := by
  rw [updatedFactors, revertIf, if_pos (.inr hq)]
  rfl

theorem scopes_after {quantity : ℕ} {isBuy : Bool} (h : updatedFactors market scope mask quantity isBuy = .ok after) :
    after.map (·.scope) = scopesAfter market.factors scope := by
  obtain ⟨values, hu⟩ := FactoredQuote.updatedFactors_eq_ok h
  rw [hu.after_eq, scopesAfter, List.map_append, List.filter_map]
  rfl

-- A trade adds no constant table.
theorem scopes_pos_kept {quantity : ℕ} {isBuy : Bool} (h : updatedFactors market scope mask quantity isBuy = .ok after)
    (hp : ∀ f ∈ market.factors, 0 < f.scope) : ∀ f ∈ after, 0 < f.scope := by
  obtain ⟨values, hu⟩ := FactoredQuote.updatedFactors_eq_ok h
  rw [hu.after_eq]
  refine List.forall_mem_append.mpr ⟨fun f hf => hp f (List.mem_of_mem_filter hf), ?_⟩
  exact List.forall_mem_singleton.mpr (scope_pos hu)

-- The checks and the updates outside of the contract agree with it on every pool that it accepts.
theorem mirrors_agree (h : FactoredQuote.validate market = .ok w) (he : market.events ≤ 31)
    (hlen : market.factors.length < 64) :
    (∀ scope : ℕ, 0 < scope → scope < 2 ^ market.events →
      (Pilot.combinationFits market.events market.order ((market.factors.map (·.scope)).map ((↑) : ℕ → ℤ)) scope = true ↔
        popcount scope ≤ 3 ∧ ∃ width, validateWidth market.order (scopesAfter market.factors scope) 0 = .ok width)) ∧
    (∀ raw s, Reads raw s →
      (validatePairSnapshot raw = .ok s ↔
        ∃ width, validateWidth s.order (s.factors.map (·.scope)) 0 = .ok width)) ∧
    (∀ a b, market.events ∈ [2, 3, 4] → a < market.events → b < market.events → a ≠ b →
      ((∃ s, validatePairSnapshot (stateOf market a b) = .ok s ∧ Mirrors s market ∧ s.a = a ∧ s.b = b) ↔
        ∀ f ∈ market.factors, 0 < f.scope)) ∧
    (∀ scope mask quantity isBuy after, updatedFactors market scope mask quantity isBuy = .ok after →
      after.map (·.scope) = scopesAfter market.factors scope ∧
        ((∀ f ∈ market.factors, 0 < f.scope) → ∀ f ∈ after, 0 < f.scope)) ∧
    ∀ raw s, validatePairSnapshot raw = .ok s → Mirrors s market → ∀ answer ∈ ["yes", "no"],
      (∀ x, (1 <<< winningState s.a s.b answer).testBit (project (pairScope s.a s.b) x) ↔
        x.testBit s.b ∧ (x.testBit s.a ↔ answer = "yes")) ∧
      (share ≤ market.liquidity → ∃ after,
        updatedFactors market (pairScope s.a s.b) (1 <<< winningState s.a s.b answer) share true = .ok after ∧
        (∀ p, simulatePairPurchase raw answer = .ok p →
          p.scope = pairScope s.a s.b ∧ p.mask = 1 <<< winningState s.a s.b answer ∧ p.quantity = share ∧
            Mirrors p.after { market with factors := after }) ∧
        ((∃ p, simulatePairPurchase raw answer = .ok p) ↔
          ∃ w, FactoredQuote.validate { market with factors := after } = .ok w)) ∧
      (market.liquidity < share →
        simulatePairPurchase raw answer = .error .quantityLimit ∧
          updatedFactors market (pairScope s.a s.b) (1 <<< winningState s.a s.b answer) share true =
            .error .invalidQuantity) := by
  refine ⟨fun scope hp hs => ?_, fun _ _ hr => hr.accepted_iff, fun a b hev ha hb hne => stateOf_accepted h hev ha hb hne,
    fun _ _ _ _ _ hu => ⟨scopes_after hu, scopes_pos_kept hu⟩, fun raw s hs hm answer hans => ⟨?_, ?_, ?_⟩⟩
  · obtain ⟨b, factors, hv, hscopes⟩ : ∃ b factors, FactoredCost.validate market.events b factors market.order = .ok w ∧
        factors.map (·.scope) = market.factors.map (·.scope) := by
      simp only [FactoredQuote.validate, bind_eq_ok] at h
      obtain ⟨_, _, b, _, wads, hw, hv⟩ := h
      refine ⟨b, wads, hv, ?_⟩
      rw [FactoredQuote.toWad_eq_ok hw, List.map_map]
      rfl
    have := FactoredCost.combinationFits_iff hv he hp hs
    rwa [scopesAfter, hscopes] at this
  · obtain ⟨hr, _⟩ := validate_iff_reads.mp hs
    obtain ⟨_, _, _, _, hne, ha, hb⟩ := eventPair_eq_ok.mp hr.pair
    have := hr.events_le
    exact claim_spec (by omega) (by omega) hne hans
  · exact simulate_spec h hs hm hans hlen
  · exact fun hq => ⟨simulate_refused hs hm hans hq, updatedFactors_refused hq⟩

-- Three events in a chain of two tables, of which each pair is bought.
def chain : Market where
  events    := 3
  liquidity := 5000000
  decimals  := 6
  factors   := [⟨3, [0, 2000000, 0, 0]⟩, ⟨6, [0, 0, 1000000, 0]⟩]
  order     := [0, 1, 2]

theorem mirrors_agree_chain :
    Pilot.combinationFits 3 [0, 1, 2] [3, 6] 5 = true ∧
      ∃ after, updatedFactors chain 5 8 share true = .ok after ∧
        ((∃ p, simulatePairPurchase (stateOf chain 0 2) "yes" = .ok p) ↔
          ∃ w, FactoredQuote.validate { chain with factors := after } = .ok w) := by
  have hv : FactoredQuote.validate chain = .ok 1 := by decide +kernel
  have ⟨hfits, _, hstate, _, hsim⟩ := mirrors_agree hv (by decide) (by decide)
  obtain ⟨s, hs, hm, ha, hb⟩ := (hstate 0 2 (by decide) (by decide) (by decide) (by decide)).mpr (by decide)
  have ⟨_, hbuy, _⟩ := hsim _ s hs hm "yes" (by decide)
  rw [ha, hb] at hbuy
  obtain ⟨after, hafter, _, hiff⟩ := hbuy (by decide)
  refine ⟨?_, after, hafter, hiff⟩
  refine (hfits 5 (by decide) (by decide)).mpr ⟨by decide +kernel, 2, by decide +kernel⟩

end PairSensitivity
