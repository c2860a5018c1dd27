import Flurbo.Contracts.FactoredCost.Factors
import Flurbo.Contracts.FactoredQuote.Update

-- The two ledgers of a pool: the positions of the owners, and the liability tables by scope.

open Evm Except FactoredPositions
open FactoredCost (popcount project)
open FactoredQuote (entryOf Updated)

namespace FactoredPositions

-- What all owners hold of the claims of a scope that pay in its local state `j`.
def held (book : Book) (scope j : ℕ) : ℕ :=
  Holdings.weigh Claim.all (fun c => (c.paysAt scope j).toNat) book

-- What is owed to all owners in a terminal state.
def owed (book : Book) (state : ℕ) : ℕ :=
  Holdings.weigh Claim.all (fun c => (c.pays state).toNat) book

-- The positions after a buy or a sell.
def trade (self : Book) (owner : Address) (scope mask quantity : ℕ) (isBuy : Bool) : Sol Book :=
  if isBuy then credit self owner scope mask quantity else debit self owner scope mask quantity

variable {self book : Book} {owner : Address} {scope mask quantity s j x : ℕ} {isBuy : Bool}
  {c : Claim} {w : Claim → ℕ}

theorem weigh_trade (h : trade self owner scope mask quantity isBuy = .ok book)
    (hs : scope < 2 ^ 32) :
    Moved isBuy (w ⟨scope, mask⟩ * quantity) (Holdings.weigh Claim.all w self)
      (Holdings.weigh Claim.all w book) := by
  cases isBuy
  case false => exact weigh_debit h hs
  case true  => exact weigh_credit h hs

theorem le_held (hv : c.Valid) (hs : c.scope < 2 ^ 32) (hj : c.mask.testBit j) :
    book owner c ≤ held book c.scope j := by
  have := Holdings.le_weigh (fun d => (d.paysAt c.scope j).toNat) book owner
    (Claim.mem_all.mpr ⟨hs, hv.mask_lt_word⟩)
  simpa [held, Claim.paysAt, hj] using this

-- Only the position of one owner and claim differs after a trade.
theorem trade_apply (h : trade self owner scope mask quantity isBuy = .ok book) (o : Address)
    (hc : c ≠ ⟨scope, mask⟩) : book o c = self o c := by
  cases isBuy
  case false =>
    have ⟨_, _, _, hb⟩ := debit_eq_ok.mp h
    rw [hb, Holdings.set_apply, if_neg (by simp [hc])]
  case true  =>
    have ⟨_, _, _, hb⟩ := credit_eq_ok.mp h
    rw [hb, Holdings.set_apply, if_neg (by simp [hc])]

theorem held_trade (h : trade self owner scope mask quantity isBuy = .ok book) (hs : scope < 2 ^ 32) :
    Moved isBuy (if scope = s ∧ mask.testBit j then quantity else 0) (held self s j)
      (held book s j) := by
  have := weigh_trade (w := fun c => (c.paysAt s j).toNat) h hs
  simpa [held, Claim.paysAt, Bool.toNat, Bool.cond_eq_ite, ite_mul] using this

-- Moving a claim from one owner to another leaves every total.
theorem weigh_escrow {mid : Book} {owner' : Address}
    (hd : debit self owner scope mask quantity = .ok mid)
    (hc : credit mid owner' scope mask quantity = .ok book) (hs : scope < 2 ^ 32) :
    Holdings.weigh Claim.all w book = Holdings.weigh Claim.all w self := by
  have h₁ := weigh_debit (w := w) hd hs
  have h₂ := weigh_credit (w := w) hc hs
  omega

end FactoredPositions

-- The tables of a pool and its positions tally: there is one table for each scope that anyone holds
-- a claim of, and its entries are the quantities held of the claims that pay there.
structure Tally (events : ℕ) (factors : List Factor) (book : Book) : Prop where
  nodup     : (factors.map (·.scope)).Nodup
  scope_lt  : ∀ f ∈ factors, f.scope < 2 ^ events
  size      : ∀ f ∈ factors, 0 < popcount f.scope ∧ popcount f.scope ≤ 3
  length_eq : ∀ f ∈ factors, f.values.length = 2 ^ popcount f.scope
  length_le : factors.length ≤ 64
  entry     : ∀ f ∈ factors, ∀ j < f.values.length, f.entry j = held book f.scope j
  entry_lt  : ∀ f ∈ factors, ∀ j < f.values.length, f.entry j < 2 ^ 128
  stored    : ∀ owner c, book owner c ≠ 0 → c.Valid ∧ c.scope ∈ factors.map (·.scope)

namespace Tally

variable {events scope mask quantity j x : ℕ} {factors factors' after : List Factor} {self book : Book}
  {owner : Address} {isBuy : Bool} {f : Factor} {c : Claim} {values : List ℕ}
  {market : FactoredQuote.Market}

theorem empty : Tally events [] fun _ _ => 0 where
  nodup     := List.nodup_nil
  scope_lt  := by simp
  size      := by simp
  length_eq := by simp
  length_le := by simp
  entry     := by simp
  entry_lt  := by simp
  stored    := by simp

theorem perm (h : Tally events factors book) (hp : factors.Perm factors') :
    Tally events factors' book where
  nodup           := (hp.map _).nodup_iff.mp h.nodup
  scope_lt f hf   := h.scope_lt f (hp.mem_iff.mpr hf)
  size f hf       := h.size f (hp.mem_iff.mpr hf)
  length_eq f hf  := h.length_eq f (hp.mem_iff.mpr hf)
  length_le       := hp.length_eq ▸ h.length_le
  entry f hf      := h.entry f (hp.mem_iff.mpr hf)
  entry_lt f hf   := h.entry_lt f (hp.mem_iff.mpr hf)
  stored o c ho   := (h.stored o c ho).imp_right fun hc => (hp.map _).mem_iff.mp hc

-- The other tables are of other scopes.
theorem split_of_eq {l r : List Factor} (h : Tally events factors book) (hf : factors = l ++ f :: r) :
    ∀ g ∈ l ++ r, g.scope ≠ f.scope := by
  intro g hg he
  have hn := hf ▸ h.nodup
  rw [(List.perm_middle.map _).nodup_iff, List.map_cons, List.nodup_cons] at hn
  exact hn.left <| he ▸ List.mem_map_of_mem hg

theorem split (h : Tally events factors book) (hf : f ∈ factors) :
    ∃ l r, factors = l ++ f :: r ∧ ∀ g ∈ l ++ r, g.scope ≠ f.scope :=
  have ⟨l, r, hlr⟩ := List.append_of_mem hf
  ⟨l, r, hlr, h.split_of_eq hlr⟩

-- Only claims within the events of the pool are held.
theorem held_scope_lt (h : Tally events factors book) (hc : book owner c ≠ 0) :
    c.scope < 2 ^ events := by
  have ⟨_, hs⟩ := h.stored owner c hc
  have ⟨f, hf, hfs⟩ := List.mem_map.mp hs
  exact hfs ▸ h.scope_lt f hf

theorem mem_all (h : Tally events factors book) (hc : book owner c ≠ 0) (he : events ≤ 32) :
    c ∈ Claim.all :=
  Claim.mem_all.mpr ⟨(h.held_scope_lt hc).trans_le (Nat.pow_le_pow_right (by decide) he),
    (h.stored owner c hc).left.mask_lt_word⟩

-- Some local state in which a held claim pays bounds what is held of it.
theorem held_lt (h : Tally events factors book) (hc : book owner c ≠ 0) :
    ∃ j, c.mask.testBit j ∧ held book c.scope j < 2 ^ 128 := by
  have ⟨hv, hs⟩ := h.stored owner c hc
  have ⟨f, hf, hfs⟩ := List.mem_map.mp hs
  have ⟨j, hj⟩ := Nat.exists_testBit_of_ne_zero hv.mask_pos.ne'
  have hlt : j < f.values.length := by
    rw [h.length_eq f hf, hfs]
    refine not_le.mp fun hle => ?_
    have := Bits.testBit_eq_false (hv.mask_lt.trans_le (Nat.sub_le _ _)) hle
    exact Bool.false_ne_true (this.symm.trans hj)
  refine ⟨j, hj, ?_⟩
  rw [← hfs, ← h.entry f hf j hlt]
  exact h.entry_lt f hf j hlt

theorem balance_lt (h : Tally events factors book) (he : events ≤ 32) (owner : Address) (c : Claim) :
    book owner c < 2 ^ 128 := by
  by_cases hc : book owner c = 0
  case pos => rw [hc]; decide
  case neg =>
    have ⟨j, hj, hlt⟩ := h.held_lt hc
    have hv := (h.stored owner c hc).left
    exact (le_held hv (Claim.mem_all.mp (h.mem_all hc he)).left hj).trans_lt hlt

theorem held_eq_zero (h : Tally events factors book) (hs : scope ∉ factors.map (·.scope)) :
    held book scope j = 0 := by
  apply Holdings.weigh_eq_zero
  intro owner c _ hc
  have : c.scope ≠ scope := by
    rintro rfl
    exact hs (h.stored owner c hc).right
  simp [Claim.paysAt, this]

theorem entryOf_eq (h : Tally events factors book) (hj : j < 2 ^ popcount scope) :
    entryOf factors scope j = held book scope j := by
  by_cases hs : scope ∈ factors.map (·.scope)
  case pos =>
    have ⟨f, hf, hfs⟩ := List.mem_map.mp hs
    have ⟨l, r, hlr, hd⟩ := h.split hf
    have hl : l.filter (·.scope = scope) = [] := by
      simpa using fun g hg => hfs ▸ hd g (by simp [hg])
    have hr : r.filter (·.scope = scope) = [] := by
      simpa using fun g hg => hfs ▸ hd g (by simp [hg])
    have he : entryOf factors scope j = f.entry j := by
      simp [entryOf, hlr, List.filter_append, hl, hr, hfs]
    rw [he, h.entry f hf j (by rw [h.length_eq f hf, hfs]; exact hj), hfs]
  case neg =>
    have hf : factors.filter (·.scope = scope) = [] := by
      simpa using fun f hf hfs => hs <| List.mem_map.mpr ⟨f, hf, hfs⟩
    rw [h.held_eq_zero hs]
    simp [entryOf, hf]

-- Summing over the tables counts every holding once.
theorem liability_eq_owed (h : Tally events factors book) (he : events ≤ 32) :
    liability factors = owed book := by
  funext x
  have hentry : ∀ f ∈ factors, f.valueAt x = held book f.scope (project f.scope x) := by
    intro f hf
    have hs := (h.scope_lt f hf).trans_le (Nat.pow_le_pow_right (by decide) he)
    exact h.entry f hf _ (h.length_eq f hf ▸ FactoredCost.project_lt hs x)
  rw [liability, List.map_congr_left hentry]
  refine (Holdings.weigh_list_sum _ _).symm.trans <| Holdings.weigh_congr ?_
  intro owner c _ hc
  have ⟨f, hf, hfs⟩ := List.mem_map.mp (h.stored owner c hc).right
  have ⟨l, r, hlr, hd⟩ := h.split hf
  have hz : ∀ g ∈ l ++ r, (c.paysAt g.scope (project g.scope x)).toNat = 0 := by
    intro g hg
    have := hfs ▸ (hd g hg).symm
    simp [Claim.paysAt, this]
  rw [hlr, (List.perm_middle.map _).sum_eq, List.map_cons, List.sum_cons, List.map_congr_left hz]
  simp [Claim.paysAt, Claim.pays, hfs]

-- The table of a scope moves like the positions in a claim of that scope.
theorem replace (h : Tally events factors self) (hc : Claim.Valid ⟨scope, mask⟩)
    (hlt : scope < 2 ^ events) (hl : values.length = 2 ^ popcount scope)
    (hlen : (factors.filter fun f => f.scope ≠ scope).length < 64)
    (hvlt : ∀ j < values.length, values.getD j 0 < 2 ^ 128)
    (hv : ∀ j < values.length, Moved isBuy (if mask.testBit j then quantity else 0)
      (entryOf factors scope j) (values.getD j 0))
    (ht : trade self owner scope mask quantity isBuy = .ok book) (he : events ≤ 32) :
    Tally events (factors.filter (·.scope ≠ scope) ++ [⟨scope, values⟩]) book := by
  have hs : scope < 2 ^ 32 := hlt.trans_le (Nat.pow_le_pow_right (by decide) he)
  have hmem {f : Factor} : f ∈ factors.filter (·.scope ≠ scope) ++ [⟨scope, values⟩] ↔
      (f ∈ factors ∧ f.scope ≠ scope) ∨ f = ⟨scope, values⟩ := by simp
  constructor
  case nodup =>
    rw [List.map_append, List.nodup_append]
    refine ⟨h.nodup.sublist (List.filter_sublist.map _), List.nodup_singleton _, ?_⟩
    intro a ha b hb
    have ⟨f, hf, hfa⟩ := List.mem_map.mp ha
    have := (List.mem_filter.mp hf).right
    simp_all
  case scope_lt =>
    intro f hf
    obtain ⟨hf, -⟩ | rfl := hmem.mp hf
    · exact h.scope_lt f hf
    · exact hlt
  case size =>
    intro f hf
    obtain ⟨hf, -⟩ | rfl := hmem.mp hf
    · exact h.size f hf
    · exact ⟨hc.size_pos, hc.size_le⟩
  case length_eq =>
    intro f hf
    obtain ⟨hf, -⟩ | rfl := hmem.mp hf
    · exact h.length_eq f hf
    · exact hl
  case length_le => simpa using hlen
  case entry_lt =>
    intro f hf j hj
    obtain ⟨hf, -⟩ | rfl := hmem.mp hf
    · exact h.entry_lt f hf j hj
    · exact hvlt j hj
  case entry =>
    intro f hf j hj
    obtain ⟨hf, hfs⟩ | rfl := hmem.mp hf
    · have hm := held_trade (s := f.scope) (j := j) ht hs
      rw [if_neg fun hc => hfs hc.left.symm, Moved.zero_iff] at hm
      rw [h.entry f hf j hj, hm]
    · have hm := held_trade (s := scope) (j := j) ht hs
      simp only [true_and] at hm
      have hj' := hv j hj
      rw [h.entryOf_eq (hl ▸ hj)] at hj'
      exact hj'.unique hm
  case stored =>
    intro o c ho
    by_cases hco : c = ⟨scope, mask⟩
    case pos => exact hco ▸ ⟨hc, by simp⟩
    case neg =>
      have ⟨hv, hcs⟩ := h.stored o c (trade_apply ht o hco ▸ ho)
      have ⟨f, hf, hfs⟩ := List.mem_map.mp hcs
      refine ⟨hv, List.mem_map.mpr ?_⟩
      by_cases hs : c.scope = scope
      case pos => exact ⟨_, hmem.mpr (.inr rfl), hs.symm⟩
      case neg => exact ⟨f, hmem.mpr (.inl ⟨hf, hfs ▸ hs⟩), hfs⟩

-- An accepted trade moves the tables and the positions alike.
theorem update (h : Tally market.events market.factors self)
    (hu : Updated market scope mask quantity isBuy after values)
    (ht : trade self owner scope mask quantity isBuy = .ok book) (he : market.events ≤ 32) :
    Tally market.events after book := by
  have hlen : (market.factors.filter fun f => f.scope ≠ scope).length < 64 := by
    simpa [hu.after_eq] using hu.length_le
  exact hu.after_eq ▸ h.replace hu.claim hu.scope_lt hu.length_eq hlen hu.entry_lt hu.entry ht he

-- The same change, made in place.
theorem replace_at {l r : List Factor} (h : Tally events factors self) (hf : factors = l ++ f :: r)
    (hfs : f.scope = scope) (hc : Claim.Valid ⟨scope, mask⟩) (hl : values.length = f.values.length)
    (hvlt : ∀ j < values.length, values.getD j 0 < 2 ^ 128)
    (hv : ∀ j < values.length, Moved isBuy (if mask.testBit j then quantity else 0) (f.entry j)
      (values.getD j 0))
    (ht : trade self owner scope mask quantity isBuy = .ok book) (he : events ≤ 32) :
    Tally events (l ++ ⟨scope, values⟩ :: r) book := by
  have hmem : f ∈ factors := by simp [hf]
  have hd := h.split_of_eq hf
  have hfilter : factors.filter (·.scope ≠ scope) = l ++ r := by
    rw [hf, List.filter_append, List.filter_cons_of_neg (by simp [hfs]), ← List.filter_append,
      List.filter_eq_self]
    simpa [← hfs] using hd
  have hperm : (l ++ r ++ [(⟨scope, values⟩ : Factor)]).Perm (l ++ ⟨scope, values⟩ :: r) :=
    (List.perm_append_singleton ..).trans List.perm_middle.symm
  have hlen : values.length = 2 ^ popcount scope := by rw [hl, h.length_eq f hmem, hfs]
  refine (hfilter ▸ h.replace hc (hfs ▸ h.scope_lt f hmem) hlen ?_ hvlt ?_ ht he).perm hperm
  · have := h.length_le
    rw [hf, List.length_append, List.length_cons] at this
    rw [hfilter, List.length_append]
    omega
  · intro j hj
    have : entryOf factors scope j = held self scope j := h.entryOf_eq (hlen ▸ hj)
    rw [this, ← hfs, ← h.entry f hmem j (hl ▸ hj)]
    exact hv j hj

theorem escrow {mid : Book} {owner' : Address} (h : Tally events factors self)
    (hd : debit self owner scope mask quantity = .ok mid)
    (hc : credit mid owner' scope mask quantity = .ok book) (hs : scope < 2 ^ 32) :
    Tally events factors book := by
  have hd' : trade self owner scope mask quantity false = .ok mid := hd
  have hc' : trade mid owner' scope mask quantity true = .ok book := hc
  have hheld (s j : ℕ) : held book s j = held self s j := weigh_escrow hd hc hs
  refine { h with entry := fun f hf j hj => ?_, stored := fun o c ho => ?_ }
  · rw [h.entry f hf j hj, hheld]
  · by_cases hco : c = ⟨scope, mask⟩
    case pos =>
      obtain ⟨hq, _, hle, _⟩ := debit_eq_ok.mp hd
      exact hco ▸ h.stored owner ⟨scope, mask⟩ (by omega)
    case neg =>
      rw [trade_apply hc' o hco, trade_apply hd' o hco] at ho
      exact h.stored o c ho

-- What an owner holds can be moved to anyone without an overflow.
theorem escrow_ok {owner' : Address} (h : Tally events factors self) (he : events ≤ 32)
    (hq : 0 < quantity) (hle : quantity ≤ self owner c) :
    ∃ mid book, debit self owner c.scope c.mask quantity = .ok mid ∧
      credit mid owner' c.scope c.mask quantity = .ok book := by
  have ho : self owner c ≠ 0 := by omega
  have hv := (h.stored owner c ho).left
  have hs := (Claim.mem_all.mp (h.mem_all ho he)).left
  have ⟨j, hj, hlt⟩ := h.held_lt ho
  let mid := Holdings.set self owner c (self owner c - quantity)
  have hd : debit self owner c.scope c.mask quantity = .ok mid := debit_eq_ok.mpr ⟨hq.ne', hv, hle, rfl⟩
  have hd' : trade self owner c.scope c.mask quantity false = .ok mid := hd
  have hheld := held_trade (s := c.scope) (j := j) hd' hs
  rw [if_pos ⟨rfl, hj⟩] at hheld
  have hmid : mid owner' c ≤ held mid c.scope j := le_held hv hs hj
  have hfit : mid owner' c + quantity < 2 ^ 128 := by
    have : held mid c.scope j + quantity = held self c.scope j := hheld
    omega
  exact ⟨mid, _, hd, credit_eq_ok.mpr ⟨hq.ne', hv, hfit, rfl⟩⟩

end Tally
