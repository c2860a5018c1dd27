import Flurbo.Contracts.Pools.BiasUpdate
import Flurbo.Contracts.Pools.Solvency

-- The two ledgers of a pool agree in every reachable state, before and after resolution.

open Evm Except FactoredPositions
open FactoredCost (popcount)
open FactoredQuote (merge shift)

namespace FactoredPositions

-- All masks with bit `j` set.
@[irreducible]
def masksWith (j : ℕ) : Finset ℕ := (Finset.range (2 ^ 256)).filter (·.testBit j)

theorem mem_masksWith {mask j : ℕ} : mask ∈ masksWith j ↔ mask < 2 ^ 256 ∧ mask.testBit j := by
  unfold masksWith
  rw [Finset.mem_filter, Finset.mem_range]

-- What is held in a local state of a scope, as a sum over all owners and all masks.
theorem held_eq {book : Book} {scope : ℕ} (hs : scope < 2 ^ 32) (j : ℕ) :
    held book scope j = ∑ owner, ∑ mask ∈ masksWith j, book owner ⟨scope, mask⟩ := by
  rw [held, Holdings.weigh]
  refine Finset.sum_congr rfl fun owner _ => ?_
  have hterm (c : Claim) : (c.paysAt scope j).toNat * book owner c =
      if c.scope = scope ∧ c.mask.testBit j then book owner c else 0 := by
    by_cases h : c.scope = scope <;> cases hj : c.mask.testBit j <;> simp [Claim.paysAt, h, hj]
  rw [Finset.sum_congr rfl fun c _ => hterm c, ← Finset.sum_filter]
  symm
  refine Finset.sum_bij (fun mask _ => ⟨scope, mask⟩) ?_ ?_ ?_ fun _ _ => rfl
  · intro mask hm
    obtain ⟨hm, hj⟩ := mem_masksWith.mp hm
    exact Finset.mem_filter.mpr ⟨Claim.mem_all.mpr ⟨hs, hm⟩, rfl, hj⟩
  · intro mask _ mask' _ h
    exact congrArg Claim.mask h
  · rintro ⟨_, mask⟩ hc
    obtain ⟨hc, hcs, hj⟩ := Finset.mem_filter.mp hc
    obtain ⟨_, hm⟩ := Claim.mem_all.mp hc
    cases hcs
    exact ⟨mask, mem_masksWith.mpr ⟨hm, hj⟩, rfl⟩

end FactoredPositions

section Sell

variable {events scope mask quantity : ℕ} {factors l r : List Factor} {f : Factor} {book : Book}
  {owner : Address}

theorem FactoredQuote.merge_of_split (h : ∀ g ∈ l ++ r, g.scope ≠ f.scope)
    (hlt : ∀ j < f.values.length, f.entry j < 2 ^ 128) :
    merge (l ++ f :: r) f.scope f.values.length = .ok f.values := by
  have hskip (gs : List Factor) (hg : ∀ g ∈ gs, g.scope ≠ f.scope) (values : List ℕ) :
      gs.foldlM (fun values g =>
        if g.scope = f.scope then
          (List.range f.values.length).mapM fun j => do
            checkedAdd 128 (← nth values j) (← nth g.values j)
        else
          return values) values = .ok values := by
    induction gs
    case nil          => rfl
    case cons g gs hi =>
      have ⟨hg, hgs⟩ := List.forall_mem_cons.mp hg
      rw [List.foldlM_cons, if_neg hg]
      exact hi hgs
  have hf : (List.range f.values.length).mapM (fun j => do
      checkedAdd 128 (← nth (List.replicate f.values.length 0) j) (← nth f.values j)) =
      .ok f.values := by
    refine table_eq_ok.mpr ⟨rfl, fun j hj => ?_⟩
    have hz := List.getD_replicate (x := 0) (y := 0) hj
    rw [nth_eq_ok_getD.mpr ⟨by simpa using hj, hz⟩, ok_bind, nth_eq_ok_getD.mpr ⟨hj, rfl⟩, ok_bind,
      checkedAdd_eq_ok, Nat.zero_add]
    exact ⟨hlt j hj, rfl⟩
  rw [merge, List.foldlM_append, hskip l (fun g hg => h g (by simp [hg])), ok_bind, List.foldlM_cons,
    if_pos rfl, hf, ok_bind]
  exact hskip r (fun g hg => h g (by simp [hg])) _

-- A holder's claim can be sold back as far as the tables are concerned.
theorem Tally.update_ok (h : Tally events factors book) (hq : 0 < quantity)
    (hle : quantity ≤ book owner ⟨scope, mask⟩) (he : events ≤ 32) :
    ∃ after, FactoredQuote.update factors scope mask quantity (2 ^ popcount scope) false = .ok after := by
  obtain ⟨hv, hs⟩ := h.stored owner ⟨scope, mask⟩ (by omega)
  obtain ⟨f, hf, hfs⟩ := List.mem_map.mp hs
  obtain rfl : f.scope = scope := hfs
  obtain ⟨l, r, hlr, hd⟩ := h.split hf
  have hlt : f.scope < 2 ^ 32 := (h.scope_lt f hf).trans_le (Nat.pow_le_pow_right (by decide) he)
  have hlen := h.length_eq f hf
  have hm : merge factors f.scope (2 ^ popcount f.scope) = .ok f.values := by
    rw [hlr, ← hlen]
    exact FactoredQuote.merge_of_split hd (h.entry_lt f hf)
  have hshift : ∃ values, (List.range (2 ^ popcount f.scope)).mapM (fun j => do
      shift mask quantity false (← nth f.values j) j) = .ok values := by
    refine table_ok fun j hj => ?_
    rw [← hlen] at hj
    rw [nth_eq_ok_getD.mpr ⟨hj, rfl⟩, ok_bind, shift, Nat.one_shiftLeft]
    simp only [Bits.and_two_pow_ne_zero]
    split
    case isFalse   => exact ⟨_, rfl⟩
    case isTrue hb =>
      have hq : quantity ≤ f.values.getD j 0 :=
        (hle.trans (le_held hv hlt hb)).trans_eq (h.entry f hf j hj).symm
      refine ⟨f.values.getD j 0 - quantity, ?_⟩
      rw [if_neg Bool.false_ne_true, revertIf_ok (not_lt.mpr hq), ok_bind]
      exact checkedSub_eq_ok.mpr ⟨hq, rfl⟩
  obtain ⟨values, hshift⟩ := hshift
  have hcount : 1 ≤ (factors.filter (·.scope = f.scope)).length :=
    List.length_pos_of_mem (List.mem_filter.mpr ⟨hf, by simp⟩)
  have hle := List.length_filter_le (·.scope = f.scope) factors
  have := h.length_le
  refine ⟨factors.filter (·.scope ≠ f.scope) ++ [⟨f.scope, values⟩], ?_⟩
  rw [FactoredQuote.update, checkedSub_eq_ok.mpr ⟨by omega, rfl⟩, ok_bind, revertIf_ok (by omega),
    ok_bind, hm, ok_bind, hshift]
  rfl

end Sell

namespace Pools

variable {D : Dependencies} {ε : Type}

-- The tables of a pool add up what its owners hold. So a claim that an owner holds is never missing
-- from the tables when it is redeemed or sold.
structure LedgersAgree (s : Storage D ε) : Prop where
  nodup     : (s.storedFactors.map (·.scope)).Nodup
  length_eq : ∀ f ∈ s.storedFactors, f.values.length = 2 ^ popcount f.scope
  entry     : ∀ f ∈ s.storedFactors, ∀ j < f.values.length, f.values[j]? =
                some (∑ owner, ∑ mask ∈ masksWith j, s.positions owner ⟨f.scope, mask⟩)
  stored    : ∀ owner c, s.positions owner c ≠ 0 → ∃ f ∈ s.storedFactors, f.scope = c.scope
  redeem    : ∀ owner scope mask quantity, 0 < quantity → quantity ≤ s.positions owner ⟨scope, mask⟩ →
                ∃ factors, FactoredPool.burnLiability scope mask quantity s.storedFactors = .ok factors ∧
                  PilotPool.burnLiability scope mask quantity s.storedFactors = .ok factors
  sell      : ∀ owner scope mask quantity, 0 < quantity → quantity ≤ s.positions owner ⟨scope, mask⟩ →
                ∃ factors, FactoredQuote.update s.storedFactors scope mask quantity
                  (2 ^ popcount scope) false = .ok factors

theorem LedgersAgree.of_tally {events : ℕ} {s : Storage D ε}
    (h : Tally events s.storedFactors s.positions) (he : events ≤ 32) : LedgersAgree s where
  nodup     := h.nodup
  length_eq := h.length_eq
  entry     := by
    intro f hf j hj
    have hs := (h.scope_lt f hf).trans_le (Nat.pow_le_pow_right (by decide) he)
    rw [← held_eq hs, ← h.entry f hf j hj, Factor.entry, List.getD_eq_getElem _ _ hj,
      List.getElem?_eq_getElem hj]
  stored owner c ho             := List.mem_map.mp (h.stored owner c ho).right
  redeem _ _ _ _ hq hle         :=
    have ⟨factors, hb⟩ := burn_ok h hq hle he
    ⟨factors, hb _, hb _⟩
  sell _ _ _ _ hq hle           := h.update_ok hq hle he

-- The ledgers agree in every run of the three pools.
theorem ledgers_agree {chain : Chain} {self token resolver : Address}
    {events b closeTime rulesHash : ℕ} {order : List ℕ} :
    (∀ cfg, FactoredPool.construct D chain self token events b closeTime order resolver rulesHash =
        .ok cfg → ∀ collateral (calls : List (Msg cfg.self × FactoredPool.Call D)),
      LedgersAgree (Run.run (FactoredPool.step (uniform cfg) cfg)
        ⟨collateral, Storage.initial ()⟩ calls).pool) ∧
    (∀ cfg, PilotPool.construct D chain self token events b closeTime order resolver rulesHash =
        .ok cfg → ∀ collateral (calls : List (Msg cfg.self × PilotPool.Call D)),
      LedgersAgree (Run.run (PilotPool.step cfg) ⟨collateral, PilotPool.initial⟩ calls).pool) ∧
    (∀ cfg policy, FundedFactoredPool.construct D chain self token events b closeTime order resolver
        rulesHash policy = .ok cfg →
      ∀ collateral (calls : List (Msg cfg.self × FundedFactoredPool.Call D)),
      LedgersAgree (Run.run (FundedFactoredPool.step cfg)
        ⟨collateral, FundedFactoredPool.initial cfg⟩ calls).pool) := by
  refine ⟨fun cfg h collateral calls => ?_, fun cfg h collateral calls => ?_,
    fun cfg policy h collateral calls => ?_⟩
  · have he := (FactoredPool.construct_accepted h).events_le
    refine .of_tally (Run.run_invariant (I := Live cfg fun _ => True) (Live.initial trivial) ?_).tally he
    exact fun _ _ _ _ hw hs => FactoredPool.step_live hs hw uniform_sound he fun _ _ => trivial
  · have he := (PilotPool.construct_accepted h).events_le
    refine .of_tally (Run.run_invariant (I := Live cfg fun _ => True) (Live.initial trivial) ?_).tally he
    exact fun _ _ _ _ hw hs => PilotPool.step_live hs hw he fun _ _ => trivial
  · have he := (FundedFactoredPool.construct_accepted h).events_le
    refine .of_tally (Run.run_invariant (I := Live cfg.toConfig fun _ => True)
      (Live.initial trivial) ?_).tally he
    exact fun _ _ _ _ hw hs => FundedFactoredPool.step_live hs hw he (fun _ _ => trivial)
      fun _ _ => trivial

open Testnet in
theorem ledgers_agree_testnet :
    let resolve : Msg config.self := ⟨9, 100, by decide, by decide⟩
    let calls := trades.map (fun (msg, a) => (msg, .action a)) ++
      [(resolve, .resolve 1 2), (trader, .redeem 3 2 (10 ^ 14))]
    let w := Run.run (PilotPool.step config) ⟨funds, PilotPool.initial⟩ calls
    w.pool.resolved = true ∧ w.pool.storedFactors = [⟨3, [0, 8 * 10 ^ 14, 0, 0]⟩, ⟨1, [0, 10 ^ 15]⟩] ∧
      LedgersAgree w.pool :=
  have h : PilotPool.construct Dependencies.testnet chain 1 2 2 (10 ^ 18) 100 [0, 1] 9 5 =
      .ok config := by decide +kernel
  ⟨by decide +kernel, by decide +kernel, ledgers_agree.right.left config h funds _⟩

end Pools
