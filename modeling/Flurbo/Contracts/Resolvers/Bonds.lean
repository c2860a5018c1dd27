import Flurbo.Contracts.Pools.Solvency
import Flurbo.Contracts.Pools.Settlement
import Flurbo.Contracts.Resolvers.Steps

-- The bonds of a resolver: what it holds, what it owes, and what every case has paid to whom.

open Evm Except

namespace Pools

variable {D : Dependencies} {T : Token} {t t' : T.State} {self trader account : Address} {amount : ℕ}
  {incoming : Bool}

-- The pool moves collateral only between itself and the caller.

theorem transferExact_confined (hT : T.Confined)
    (h : transferExact T self trader amount incoming t = .ok t') (hs : account ≠ self)
    (ht : account ≠ trader) : T.balanceOf t' account = T.balanceOf t account := by
  cases incoming
  case false =>
    simp only [transferExact, Bool.false_eq_true, if_false, bind_eq_ok, pure_eq_ok, ok.injEq] at h
    obtain ⟨_, h, _, _, rfl⟩ := h
    exact hT.transfer h hs ht
  case true =>
    simp only [transferExact, if_true, bind_eq_ok, pure_eq_ok, ok.injEq] at h
    obtain ⟨_, h, _, _, rfl⟩ := h
    exact hT.transferFrom h ht hs

variable {cfg : Config} {msg : Msg cfg.self} {w w' : World D PilotPool.Void} {call : PilotPool.Call D}

theorem PilotPool.step_confined (hT : D.collateral.Confined) (hd : Resolvers.isDonation call = false)
    (h : step cfg w (msg, call) = .ok w') (hs : account ≠ cfg.self) (hm : account ≠ msg.sender) :
    w'.balance account = w.balance account := by
  have htrade {quote reserve scope isBuy} {w₁ : World D Void} {traded : World D Void × ℕ}
      (h : settleTrade (uniform cfg) cfg msg quote reserve scope isBuy w₁ = .ok traded) :
      traded.1.balance account = w₁.balance account := by
    simp only [settleTrade, bind_eq_ok, pure_eq_ok, ok.injEq] at h
    obtain ⟨_, _, _, _, token, ht, rfl⟩ := h
    exact transferExact_confined hT ht hs hm
  cases call
  case resolve =>
    have ⟨_, _, _, hr⟩ := resolve_eq_ok h
    rw [hr.eq]
    rfl
  case redeem =>
    simp only [step, redeem, map_eq_ok, bind_eq_ok, pure_eq_ok, ok.injEq, Prod.exists] at h
    obtain ⟨_, _, ⟨_, _, _, _, _, _, _, _, _, _, _, _, _, _, _, token, ht, _, _, rfl, _⟩, rfl⟩ := h
    split at ht
    case isTrue  => exact transferExact_confined hT ht hs hm
    case isFalse => cases ht; rfl
  case action a =>
    cases a
    case fund =>
      simp only [step, act, fund, fundUnchecked, bind_eq_ok, pure_eq_ok, ok.injEq] at h
      obtain ⟨_, ⟨_, _, _, _, token, ht, rfl⟩, _, _, rfl⟩ := h
      exact transferExact_confined hT ht hs hm
    case buy =>
      simp only [step, act, buy, buyUnchecked, map_eq_ok, bind_eq_ok, pure_eq_ok, ok.injEq] at h
      obtain ⟨_, ⟨_, ⟨_, _, _, _, _, _, ht⟩, _, _, rfl⟩, rfl⟩ := h
      have := htrade ht
      exact this
    case sell =>
      simp only [step, act, sell, sellUnchecked, map_eq_ok, bind_eq_ok, pure_eq_ok, ok.injEq] at h
      obtain ⟨_, ⟨_, ⟨_, _, _, _, _, _, ht⟩, _, _, rfl⟩, rfl⟩ := h
      have := htrade ht
      exact this
    case createBaseToken =>
      simp only [step, act, map_eq_ok] at h
      obtain ⟨⟨_, _⟩, h, rfl⟩ := h
      obtain ⟨_, rfl⟩ := createBaseToken_eq_ok h
      rfl
    case wrapBase =>
      obtain ⟨_, _, _, _, _, _, _, rfl, _⟩ := wrapBase_eq_ok h
      rfl
    case unwrapBase =>
      obtain ⟨_, _, _, _, _, _, _, rfl, _⟩ := unwrapBase_eq_ok h
      rfl
    case collateral => cases hd
    case receipts =>
      simp only [step, act, moveReceipts, bind_eq_ok, revertIf_eq_ok, pure_eq_ok, ok.injEq] at h
      obtain ⟨_, _, _, _, rfl⟩ := h
      rfl

end Pools

namespace Resolvers

variable {D : Dependencies} {ε ρ : Type}

section Ledger

variable {V : Variant D ε ρ} {site : Site} {w w' : World D ε} {a : Action D site ρ}

def staked (r : Resolver) (cases : List Case) : ℕ :=
  (cases.map fun c => stake r c.phase).sum

-- The counters are what they say, and the contract has what it owes.
structure Ledger (site : Site) (w : World D ε) : Prop where
  locked : w.resolver.lockedBonds = staked site.resolver w.resolver.cases
  total  : w.resolver.totalCredits = ∑ a, w.resolver.credits a
  funds  : w.resolver.lockedBonds + w.resolver.totalCredits ≤ w.balance site.resolver.self

theorem Ledger.initial {token : D.collateral.State} {ext : ε} :
    Ledger site (World.initial site token ext) where
  locked := by simp [World.initial, Storage.initial, staked, Case.initial, stake]
  total  := Finset.sum_const_zero.symm
  funds  := Nat.zero_le _

theorem Ledger.credits_le (h : Ledger site w) (a : Address) :
    w.resolver.credits a ≤ w.resolver.totalCredits :=
  h.total ▸ Finset.single_le_sum (f := w.resolver.credits) (by simp) (Finset.mem_univ a)

theorem staked_set {r : Resolver} {cases : List Case} {c : Case} {i : ℕ} (h : cases[i]? = some c)
    (c' : Case) :
    staked r (cases.set i c') + stake r c.phase = staked r cases + stake r c'.phase :=
  List.sum_map_set (f := fun c : Case => stake r c.phase) h

-- A bond comes in with the case that it is for.
theorem Ledger.lock {token : D.collateral.State} {ext : ε} {c c' : Case} {i now : ℕ} (h : Ledger site w)
    (ht : Taken site w.token token) (hc : w.resolver.cases[i]? = some c)
    (hs : stake site.resolver c'.phase = stake site.resolver c.phase + site.resolver.bond) :
    Ledger site { w with
      now, token, resolver := { w.resolver with ext }.lock site.resolver.bond i c' } := by
  have := staked_set (r := site.resolver) hc c'
  have := ht.resolver
  have := h.locked
  have := h.funds
  refine ⟨?_, h.total, ?_⟩
  · change w.resolver.lockedBonds + _ = staked _ _
    simp only [Storage.lock]
    omega
  · change w.resolver.lockedBonds + _ + w.resolver.totalCredits ≤ D.collateral.balanceOf token _
    unfold World.balance at *
    omega

theorem Ledger.finished {c : Case} {i now : ℕ} {outcome : Outcome} {timedOut : Bool} {s s' : Storage ε}
    (h : Ledger site { w with resolver := s }) (hc : s.cases[i]? = some c)
    (hf : Finished site.resolver i c outcome timedOut s s') :
    Ledger site { w with now, resolver := s' } := by
  have hset := staked_set (r := site.resolver) hc
    { c with phase := .finalized, result := outcome }
  have hle := hf.stake_le
  have hl := h.locked
  have ht := h.total
  have hb := h.funds
  have hsum : Shares.total (shares site.resolver c outcome timedOut) = stake site.resolver c.phase :=
    total_shares
  rw [hf.eq]
  refine ⟨?_, ?_, ?_⟩
  · have hz : stake site.resolver .finalized = 0 := rfl
    dsimp only at *
    omega
  · dsimp only at *
    rw [Shares.sum_add, hsum, ht]
  · change _ ≤ w.balance site.resolver.self
    change s.lockedBonds + s.totalCredits ≤ w.balance site.resolver.self at hb
    dsimp only
    omega

theorem Ledger.step (hT : D.collateral.Confined) (h : Ledger site w) (hs : Stepped V site w a w') :
    Ledger site w' := by
  have hset {i : ℕ} {c : Case} (c' : Case) (hc : w.resolver.cases[i]? = some c) (hp : c'.phase = c.phase) :
      staked site.resolver (w.resolver.cases.set i c') = staked site.resolver w.resolver.cases := by
    have := staked_set (r := site.resolver) hc c'
    rw [hp] at this
    omega
  cases hs
  case bound                                => exact ⟨h.locked, h.total, h.funds⟩
  case asserted tx i outcome hash uri c e token ha ht =>
    exact h.lock ht ha.case_eq (by simp [Case.assert, stake, ha.phase])
  case disputed tx d permit c token ext hd hx ht =>
    exact h.lock ht hd.case_eq (by simp [Case.dispute, stake, hd.phase, Nat.mul_two])
  case voted tx i outcome hash uri c hv hq =>
    exact ⟨h.locked.trans (hset (c.count outcome) hv.case_eq rfl).symm, h.total, h.funds⟩
  case decided tx i outcome hash uri c s hv hq hf =>
    have hi : i < w.resolver.cases.length := (List.getElem?_eq_some_iff.mp hv.case_eq).1
    have hm : Ledger site { w with resolver := w.resolver.mark i tx.sender (c.count outcome) } :=
      ⟨h.locked.trans (hset (c.count outcome) hv.case_eq rfl).symm, h.total, h.funds⟩
    exact hm.finished (w := w) (by simp [Storage.mark, hi]) hf
  case finalized tx i c e outcome timedOut s hact hc he hd hf =>
    exact Ledger.finished (w := w) ⟨h.locked, h.total, h.funds⟩ hc hf
  case delivered                            => exact ⟨h.locked, h.total, h.funds⟩
  case withdrawn tx token hz hle hr =>
    have hsum := Holdings.sum_update_add w.resolver.credits tx.sender 0
    have hrep := hr.resolver
    have ht := h.total
    have hf := h.funds
    refine ⟨h.locked, ?_, ?_⟩
    · dsimp only
      omega
    · change w.resolver.lockedBonds + _ ≤ D.collateral.balanceOf token _
      unfold World.balance at hf
      dsimp only
      omega
  case pool tx call w₁ hd hstep =>
    have hb := Pools.PilotPool.step_confined hT hd hstep site.ne tx.ne_resolver.symm
    exact ⟨h.locked, h.total, h.funds.trans hb.ge⟩
  case collateral token hr hp =>
    exact ⟨h.locked, h.total, h.funds.trans hr⟩

end Ledger

section Accounts

variable {V : Variant D ε ρ} {site : Site} {w w' : World D ε}

-- A successful action, between the states around it.
abbrev Entry (D : Dependencies) (ε ρ : Type) (site : Site) :=
  World D ε × Action D site ρ × World D ε

variable {es : List (Entry D ε ρ site)} {e : Entry D ε ρ site}

-- The bond that an account posted for a case.
def postedBy (i : ℕ) (account : Address) (e : Entry D ε ρ site) : ℕ :=
  match e.2.1 with
  | .call tx (.assertOutcome j _ _ _) => if j = i ∧ tx.sender = account then site.resolver.bond else 0
  | .call tx (.dispute d _)           =>
    if d.eventIndex = i ∧ tx.sender = account then site.resolver.bond else 0
  | _                                 => 0

-- What a case credited to an account.
def paidTo (i : ℕ) (account : Address) (e : Entry D ε ρ site) : ℕ :=
  match e.2.1 with
  | .call _ (.vote j _ _ _) =>
    if j = i then e.2.2.resolver.credits account - e.1.resolver.credits account else 0
  | .call _ (.finalize j)   =>
    if j = i then e.2.2.resolver.credits account - e.1.resolver.credits account else 0
  | _                       => 0

def withdrawnBy (account : Address) (e : Entry D ε ρ site) : ℕ :=
  match e.2.1 with
  | .call tx .withdrawBond => if tx.sender = account then e.1.resolver.credits account else 0
  | _                      => 0

def summed (f : Entry D ε ρ site → ℕ) (es : List (Entry D ε ρ site)) : ℕ :=
  (es.map f).sum

theorem summed_append {f : Entry D ε ρ site → ℕ} : summed f (es ++ [e]) = summed f es + f e := by
  simp [summed]

-- The bonds that were posted for a case, by the outcomes that it has.
def deposits (r : Resolver) (c : Case) : List (Address × ℕ) :=
  (if c.proposal ≠ .unset then [(c.asserter, r.bond)] else []) ++
    (if c.counter ≠ .unset then [(c.disputer, r.bond)] else [])

-- The outcomes that a case has in its phase.
structure Case.Shaped (c : Case) : Prop where
  proposal : c.proposal = .unset → c.counter = .unset ∧ (c.phase = .pending ∨ c.phase = .finalized)
  counter  : c.counter ≠ .unset → c.phase = .disputed ∨ c.phase = .finalized
  pending  : c.phase = .pending → c.proposal = .unset
  disputed : c.phase = .disputed → c.counter ≠ .unset

theorem total_deposits {r : Resolver} {c : Case} (h : c.Shaped) (hp : c.phase ≠ .finalized) :
    Shares.total (deposits r c) = stake r c.phase := by
  unfold deposits stake
  have h₁ := h.proposal
  have h₂ := h.counter
  have h₃ := h.pending
  have h₄ := h.disputed
  cases hc : c.phase
  case pending   => simp [h₃ hc, (h₁ (h₃ hc)).left]
  case asserted  =>
    have hp : c.proposal ≠ .unset := fun hu => by simpa [hc] using (h₁ hu).right
    have hq : c.counter = .unset := by
      by_contra hu
      simpa [hc] using h₂ hu
    simp [hp, hq]
  case disputed  =>
    have hp : c.proposal ≠ .unset := fun hu => by simpa [hc] using (h₁ hu).right
    simp [hp, h₄ hc, Nat.mul_two]
  case finalized => exact absurd hc hp

-- What has become of the bonds of a case.
structure Accounted (i : ℕ) (c : Case) (es : List (Entry D ε ρ site)) : Prop where
  shaped  : c.Shaped
  posted  : ∀ a, summed (postedBy i a) es = Shares.of (deposits site.resolver c) a
  unpaid  : c.phase ≠ .finalized → ∀ a, summed (paidTo i a) es = 0
  settled : c.phase = .finalized →
              ∑ a, summed (paidTo i a) es = Shares.total (deposits site.resolver c) ∧
                ∀ a, summed (paidTo i a) es ≠ 0 → summed (postedBy i a) es ≠ 0

namespace Accounted

variable {c c' : Case} {i : ℕ} {outcome : Outcome} {timedOut : Bool} {s s' : Storage ε} {sender : Address}

theorem initial {i : ℕ} : Accounted i Case.initial ([] : List (Entry D ε ρ site)) where
  shaped    := ⟨fun _ => ⟨rfl, .inl rfl⟩, fun h => absurd rfl h, fun _ => rfl, fun h => (by cases h)⟩
  posted _  := by simp [summed, deposits, Case.initial, Shares.of]
  unpaid _ _ := rfl
  settled h := by cases h

-- The action does not concern the bonds of the case.
theorem same (h : Accounted i c es) (hp : ∀ a, postedBy i a e = 0) (hq : ∀ a, paidTo i a e = 0)
    (hs : c'.Shaped) (hd : deposits site.resolver c' = deposits site.resolver c)
    (hc : c'.phase = c.phase) : Accounted i c' (es ++ [e]) where
  shaped     := hs
  posted a   := by rw [summed_append, hp, hd, Nat.add_zero, h.posted]
  unpaid hn a := by rw [summed_append, hq, Nat.add_zero, h.unpaid (hc ▸ hn)]
  settled hf := by
    simp only [summed_append, hp, hq, Nat.add_zero, hd]
    exact h.settled (hc ▸ hf)

theorem counted (h : Accounted i c es) (outcome : Outcome) : Accounted i (c.count outcome) es :=
  ⟨⟨h.shaped.proposal, h.shaped.counter, h.shaped.pending, h.shaped.disputed⟩, h.posted, h.unpaid,
    h.settled⟩

-- The action posts a bond.
theorem lock (sender : Address) (h : Accounted i c es) (hn : c.phase ≠ .finalized)
    (hp : ∀ a, postedBy i a e = if sender = a then site.resolver.bond else 0)
    (hq : ∀ a, paidTo i a e = 0) (hs : c'.Shaped)
    (hd : deposits site.resolver c' = deposits site.resolver c ++ [(sender, site.resolver.bond)])
    (hn' : c'.phase ≠ .finalized) : Accounted i c' (es ++ [e]) where
  shaped      := hs
  posted a    := by rw [summed_append, hp, hd, Shares.of_append, Shares.of_singleton, h.posted]
  unpaid _ a  := by rw [summed_append, hq, Nat.add_zero, h.unpaid hn]
  settled hf  := absurd hf hn'

theorem shaped_finish (h : c.Shaped) : Case.Shaped { c with phase := .finalized, result := outcome } where
  proposal hp := ⟨(h.proposal hp).left, .inr rfl⟩
  counter _   := .inr rfl
  pending hp  := by cases hp
  disputed hp := by cases hp

-- Only those take a share that have made a deposit.
theorem share_deposit {r : Resolver} {x : Address × ℕ} (h : c.Shaped) (hb : 0 < r.bond)
    (hx : x ∈ shares r c outcome timedOut) : 0 < Shares.of (deposits r c) x.1 := by
  have ⟨ho, hp⟩ := shares_owner hx
  have hprop : c.proposal ≠ .unset := by
    intro hu
    have ⟨_, hp'⟩ := h.proposal hu
    rcases hp with hp | hp <;> simp [hp] at hp'
  have hmem : (c.asserter, r.bond) ∈ deposits r c := by simp [deposits, hprop]
  rcases hp with hp | hp
  · simp only [shares, hp, List.mem_singleton] at hx
    rw [hx]
    exact Shares.of_pos hmem hb
  · have hmem' : (c.disputer, r.bond) ∈ deposits r c := by simp [deposits, h.disputed hp]
    rcases ho with ho | ho
    · rw [ho]; exact Shares.of_pos hmem hb
    · rw [ho]; exact Shares.of_pos hmem' hb

-- The action ends the case.
theorem finish (timedOut : Bool) (h : Accounted i c es) (hb : 0 < site.resolver.bond)
    (hn : c.phase ≠ .finalized)
    (hp : ∀ a, postedBy i a e = 0)
    (hq : ∀ a, paidTo i a e = Shares.of (shares site.resolver c outcome timedOut) a) :
    Accounted i { c with phase := .finalized, result := outcome } (es ++ [e]) where
  shaped      := shaped_finish h.shaped
  posted a    := by rw [summed_append, hp, Nat.add_zero, h.posted]; rfl
  unpaid hn _ := absurd rfl hn
  settled _   := by
    have hpaid (a : Address) : summed (paidTo i a) (es ++ [e]) =
        Shares.of (shares site.resolver c outcome timedOut) a := by
      rw [summed_append, hq, h.unpaid hn, Nat.zero_add]
    refine ⟨?_, fun a ha => ?_⟩
    · rw [Finset.sum_congr rfl fun a _ => hpaid a, Shares.sum_of, total_shares,
        ← total_deposits h.shaped hn]
      rfl
    · rw [hpaid] at ha
      obtain ⟨x, hx, rfl⟩ := Shares.of_ne_zero ha
      rw [summed_append, hp, Nat.add_zero, h.posted]
      exact (share_deposit h.shaped hb hx).ne'

end Accounted

theorem set_cases {cases : List Case} {i j : ℕ} {c c' : Case} (h : (cases.set i c)[j]? = some c') :
    (j = i ∧ c' = c) ∨ (j ≠ i ∧ cases[j]? = some c') := by
  rw [List.getElem?_set] at h
  by_cases hj : i = j
  case pos =>
    rw [if_pos hj] at h
    split at h
    · exact .inl ⟨hj.symm, (Option.some.inj h).symm⟩
    · cases h
  case neg =>
    rw [if_neg hj] at h
    exact .inr ⟨fun he => hj he.symm, h⟩

theorem credited {c : Case} {i : ℕ} {outcome : Outcome} {timedOut : Bool} {s s' : Storage ε} {a : Address}
    (h : Finished site.resolver i c outcome timedOut s s') :
    s'.credits a - s.credits a = Shares.of (shares site.resolver c outcome timedOut) a := by
  rw [h.eq]
  dsimp only
  rw [Shares.add_apply, Nat.add_sub_cancel_left]

theorem accounted_step {a : Action D site ρ} (hb : 0 < site.resolver.bond) (hs : Stepped V site w a w')
    (h : ∀ i c, w.resolver.cases[i]? = some c → Accounted i c es) (j : ℕ) (c' : Case)
    (hj : w'.resolver.cases[j]? = some c') : Accounted j c' (es ++ [(w, a, w')]) := by
  have hsame {c : Case} (hp : ∀ b, postedBy j b (w, a, w') = 0) (hq : ∀ b, paidTo j b (w, a, w') = 0)
      (hc : w.resolver.cases[j]? = some c) : Accounted j c (es ++ [(w, a, w')]) :=
    (h j c hc).same hp hq (h j c hc).shaped rfl rfl
  cases hs
  case bound | delivered | withdrawn | pool | collateral =>
    exact hsame (fun _ => rfl) (fun _ => rfl) hj
  case asserted tx i outcome hash uri c observationEnd token ha ht =>
    rcases set_cases hj with ⟨rfl, rfl⟩ | ⟨hne, hj⟩
    · have hc := h _ c ha.case_eq
      have hu := hc.shaped.pending ha.phase
      have hcu := (hc.shaped.proposal hu).left
      refine hc.lock tx.sender (by simp [ha.phase]) (fun b => by simp [postedBy])
        (fun _ => rfl) ⟨fun hp => absurd hp ha.outcome, fun hp => absurd hcu hp, fun hp => (by cases hp),
          fun hp => (by cases hp)⟩ ?_ (by simp [Case.assert])
      simp [deposits, Case.assert, hu, hcu, ha.outcome]
    · exact hsame (fun b => by simp [postedBy, Ne.symm hne]) (fun _ => rfl) hj
  case disputed tx d permit c token ext hd hx ht =>
    rcases set_cases hj with ⟨rfl, rfl⟩ | ⟨hne, hj⟩
    · have hc := h _ c hd.case_eq
      have hpu : c.proposal ≠ .unset := fun hu => by simpa [hd.phase] using (hc.shaped.proposal hu).right
      have hcu : c.counter = .unset := by
        by_contra hu
        simpa [hd.phase] using hc.shaped.counter hu
      refine hc.lock tx.sender (by simp [hd.phase]) (fun b => by simp [postedBy])
        (fun _ => rfl) ⟨fun hp => absurd hp hpu, fun _ => .inl rfl, fun hp => (by cases hp),
          fun _ => hd.outcome⟩ ?_ (by simp [Case.dispute])
      simp [deposits, Case.dispute, hpu, hcu, hd.outcome]
    · exact hsame (fun b => by simp [postedBy, Ne.symm hne]) (fun _ => rfl) hj
  case voted tx i outcome hash uri c hv hq =>
    have hpaid : ∀ b, paidTo j b ((w, .call tx (.vote i outcome hash uri), { w with
        now := tx.timestamp
        resolver := w.resolver.mark i tx.sender (c.count outcome) }) : Entry D ε ρ site) = 0 := by
      intro b
      simp [paidTo, Storage.mark]
    rcases set_cases hj with ⟨rfl, rfl⟩ | ⟨hne, hj⟩
    · have hc := (h _ c hv.case_eq).counted outcome
      exact hc.same (fun _ => rfl) hpaid hc.shaped rfl rfl
    · exact hsame (fun _ => rfl) hpaid hj
  case decided tx i outcome hash uri c s hv hq hf =>
    rw [hf.eq] at hj
    simp only [Storage.mark, List.set_set] at hj
    rcases set_cases hj with ⟨rfl, rfl⟩ | ⟨hne, hj⟩
    · have hn : (c.count outcome).phase ≠ .finalized := by simp [Case.count, hv.phase]
      refine ((h _ c hv.case_eq).counted outcome).finish false hb hn (fun _ => rfl) fun b => ?_
      rw [paidTo]
      simp only [if_true]
      exact credited (s := w.resolver.mark j tx.sender (c.count outcome)) hf
    · exact hsame (fun _ => rfl) (fun b => by simp [paidTo, Ne.symm hne]) hj
  case finalized tx i c observationEnd outcome timedOut s hact hc hend hdue hf =>
    rw [hf.eq] at hj
    rcases set_cases hj with ⟨rfl, rfl⟩ | ⟨hne, hj⟩
    · have hn : c.phase ≠ .finalized := by
        intro hp
        simp [conclusion, hp] at hdue
      exact (h _ c hc).finish timedOut hb hn (fun _ => rfl) fun b => by
        rw [paidTo]
        simp only [if_true]
        exact credited hf
    · exact hsame (fun _ => rfl) (fun b => by simp [paidTo, Ne.symm hne]) hj

theorem length_step {a : Action D site ρ} (hs : Stepped V site w a w') :
    w'.resolver.cases.length = w.resolver.cases.length := by
  cases hs
  case asserted | disputed => simp [Storage.lock]
  case voted               => simp [Storage.mark]
  case decided hf          => rw [hf.eq]; simp [Storage.mark]
  case finalized hf        => rw [hf.eq]; simp
  all_goals rfl

-- Credits come from cases, and leave with a withdrawal.
theorem credits_step {a : Action D site ρ} {n : ℕ} (hs : Stepped V site w a w')
    (hn : w.resolver.cases.length = n) (account : Address) :
    w'.resolver.credits account + withdrawnBy account (w, a, w') =
      w.resolver.credits account + ∑ i ∈ Finset.range n, paidTo i account (w, a, w') := by
  have hfinish {i : ℕ} {c : Case} {outcome : Outcome} {timedOut : Bool} {s s' : Storage ε}
      (hi : i < w.resolver.cases.length) (hf : Finished site.resolver i c outcome timedOut s s')
      (he : s.credits = w.resolver.credits) :
      s'.credits account = w.resolver.credits account +
        ∑ j ∈ Finset.range n, if i = j then s'.credits account - w.resolver.credits account else 0 := by
    rw [Finset.sum_ite_eq, if_pos (Finset.mem_range.mpr (hn ▸ hi)), ← he, hf.eq]
    dsimp only
    rw [Shares.add_apply]
    omega
  cases hs
  case bound | delivered | pool | collateral => simp [withdrawnBy, paidTo]
  case asserted | disputed                   => simp [withdrawnBy, paidTo, Storage.lock]
  case voted                                 => simp [withdrawnBy, paidTo, Storage.mark]
  case decided tx i outcome hash uri c s hv hq hf =>
    have hc : (w.resolver.mark i tx.sender (c.count outcome)).credits = w.resolver.credits := rfl
    exact hfinish (List.getElem?_eq_some_iff.mp hv.case_eq).1 hf hc
  case finalized hc _ _ hf                   =>
    exact hfinish (List.getElem?_eq_some_iff.mp hc).1 hf rfl
  case withdrawn tx token hz hle hr          =>
    by_cases he : tx.sender = account
    case pos => subst he; simp [withdrawnBy, paidTo]
    case neg => simp [withdrawnBy, paidTo, he, Function.update_of_ne (Ne.symm he)]

-- What a case has paid, in total and to whom, and who posted its bonds.
structure Conserved (i : ℕ) (c : Case) (es : List (Entry D ε ρ site)) : Prop where
  total   : ∑ a, summed (paidTo i a) es + stake site.resolver c.phase = ∑ a, summed (postedBy i a) es
  parties : ∀ a, summed (paidTo i a) es ≠ 0 → summed (postedBy i a) es ≠ 0
  posted  : ∀ a, summed (postedBy i a) es = Shares.of (deposits site.resolver c) a

theorem Accounted.conserved {i : ℕ} {c : Case} (h : Accounted i c es) : Conserved i c es where
  posted := h.posted
  total  := by
    rw [Finset.sum_congr rfl fun a _ => h.posted a, Shares.sum_of]
    by_cases hp : c.phase = .finalized
    case pos => rw [(h.settled hp).left, hp]; rfl
    case neg =>
      rw [Finset.sum_congr rfl fun a _ => h.unpaid hp a, Finset.sum_const_zero, total_deposits h.shaped hp,
        Nat.zero_add]
  parties a ha := by
    by_cases hp : c.phase = .finalized
    case pos => exact (h.settled hp).right a ha
    case neg => exact absurd (h.unpaid hp a) ha

-- The contract owes what it locks and credits, and has it; every case pays out the bonds that were
-- posted for it, to those who posted them; and every account is credited what it was paid and has
-- not withdrawn, and can withdraw it.
structure BondsConserved (site : Site) (w : World D ε) (es : List (Entry D ε ρ site)) : Prop where
  ledger   : Ledger site w
  case     : ∀ i c, w.resolver.cases[i]? = some c → Conserved i c es
  accounts : ∀ a, w.resolver.credits a + summed (withdrawnBy a) es =
               ∑ i ∈ Finset.range site.resolver.eventCount, summed (paidTo i a) es
  withdraw : ∀ tx, w.resolver.credits tx.sender ≠ 0 → ∃ w', withdrawBond site tx w = .ok w' ∧
               w'.balance tx.sender = w.balance tx.sender + w.resolver.credits tx.sender

-- An exact token never fails to pay out a credit.
theorem Ledger.withdraw {tx : Tx site} (h : Ledger site w) (hz : w.resolver.credits tx.sender ≠ 0) :
    ∃ w', withdrawBond site tx w = .ok w' ∧
      w'.balance tx.sender = w.balance tx.sender + w.resolver.credits tx.sender := by
  have hle := h.credits_le tx.sender
  have hfunds := h.funds
  have hs := D.collateral.supply_lt (t := w.token) tx.ne_resolver
  unfold World.balance at *
  have ⟨token, ht⟩ := D.collateral.transfer_ok tx.ne_resolver.symm tx.ne_zero
    (show w.resolver.credits tx.sender ≤ D.collateral.balanceOf w.token site.resolver.self by omega)
  have ⟨_, h₁, h₂⟩ := D.collateral.transfer_exact tx.ne_resolver.symm ht
  refine ⟨{ w with
    token, resolver := { w.resolver with
      credits      := Function.update w.resolver.credits tx.sender 0
      totalCredits := w.resolver.totalCredits - w.resolver.credits tx.sender } }, ?_, h₂⟩
  have hself : D.collateral.balanceOf token site.resolver.self + w.resolver.credits tx.sender =
      D.collateral.balanceOf w.token site.resolver.self := by omega
  simp only [withdrawBond, World.balance, bind_eq_ok, checkedAdd_eq_ok, checkedSub_eq_ok, pure_eq_ok,
    ok.injEq, ht]
  refine ⟨(), revertIf_ok hz, _, ⟨hle, rfl⟩, token, rfl, _, ⟨by omega, rfl⟩, (), revertIf_ok ?_, _,
    ⟨by omega, rfl⟩, (), revertIf_ok ?_, rfl⟩
  · exact not_not.mpr hself
  · exact not_not.mpr h₂

-- In every run of either resolver with its pool, the bonds are conserved.
theorem bonds_conserved (hT : D.collateral.Confined) {ext : ε} (h : Deployed D V site.resolver ext)
    (token : D.collateral.State) (actions : List (Action D site ρ)) :
    BondsConserved site (Run.run (step V site) (World.initial site token ext) actions)
      (Run.history (step V site) (World.initial site token ext) actions) := by
  have hb := h.accepted.bond_pos
  suffices h : let w := Run.run (step V site) (World.initial site token ext) actions
      let es := Run.history (step V site) (World.initial site token ext) actions
      Ledger site w ∧ w.resolver.cases.length = site.resolver.eventCount ∧
      (∀ i c, w.resolver.cases[i]? = some c → Accounted i c es) ∧
      ∀ a, w.resolver.credits a + summed (withdrawnBy a) es =
        ∑ i ∈ Finset.range site.resolver.eventCount, summed (paidTo i a) es by
    obtain ⟨hl, _, hc, hacc⟩ := h
    exact ⟨hl, fun i c hi => (hc i c hi).conserved, hacc, fun _ hz => hl.withdraw hz⟩
  refine Run.history_invariant (J := fun w es => Ledger site w ∧
    w.resolver.cases.length = site.resolver.eventCount ∧
    (∀ i c, w.resolver.cases[i]? = some c → Accounted i c es) ∧
    ∀ a, w.resolver.credits a + summed (withdrawnBy a) es =
      ∑ i ∈ Finset.range site.resolver.eventCount, summed (paidTo i a) es) ?_ ?_
  · refine ⟨Ledger.initial, by simp [World.initial, Storage.initial], fun i c hi => ?_, fun a => ?_⟩
    · have hc : c = Case.initial := List.eq_of_mem_replicate (List.mem_of_getElem? hi)
      exact hc ▸ Accounted.initial
    · simp [World.initial, Storage.initial, summed]
  · rintro w es w' a - ⟨hl, hn, hc, hacc⟩ hstep
    have ⟨hs, _⟩ := step_eq_ok hT hb hstep
    refine ⟨hl.step hT hs, (length_step hs).trans hn, accounted_step hb hs hc, fun account => ?_⟩
    have hcr := credits_step hs hn account
    have := hacc account
    simp only [summed_append, Finset.sum_add_distrib]
    omega

end Accounts

namespace Testnet

def chain : Chain := ⟨10143, 0, fun _ => true⟩

def config : Config where
  collateral      := 2
  draftHash       := 1
  closesAt        := 100
  eventHashes     := [7, 8]
  observationEnds := [200, 300]
  reviewers       := [11, 12, 13]
  bond            := 1000
  assertionPeriod := 3600
  challengePeriod := 3600
  votingPeriod    := 3600
  bond_lt         := by decide

def resolver : Resolver := { config with self := 9, creator := 3, rulesHash := 5 }

def site : Site := ⟨resolver, Pools.Testnet.config, by decide, by decide⟩

-- Two accounts that can post bonds.
def funds : Dependencies.testnet.collateral.State :=
  ⟨Pools.Testnet.funds.move 7 8 5000, (Token.Balances.sum_move (by decide) (by decide)).trans_lt
    Pools.Testnet.funds.sum_lt⟩

def tx (sender : Address) (timestamp : ℕ) (h : sender ≠ 9 ∧ sender ≠ 1 ∧ sender ≠ 0) : Tx site :=
  ⟨sender, timestamp, h.1, h.2.1, h.2.2⟩

def creator (timestamp : ℕ) : Tx site := tx 3 timestamp (by decide)

def trader (timestamp : ℕ) : Tx site := tx 7 timestamp (by decide)

def disputer (timestamp : ℕ) : Tx site := tx 8 timestamp (by decide)

-- One outcome is disputed and voted on, and the other stands.
def actions : List (Action Dependencies.testnet site Unit) :=
  [.call (creator 10) (.bindPool 1), .pool (trader 20) (.action .fund),
    .call (trader 200) (.assertOutcome 0 .yes 1 https),
    .call (disputer 300) (.dispute ⟨0, .no, 1, https⟩ ()),
    .call (trader 310) (.assertOutcome 1 .yes 1 https),
    .call (tx 11 400 (by decide)) (.vote 0 .no 1 https),
    .call (tx 12 500 (by decide)) (.vote 0 .no 1 https)]

theorem deployed : Deployed Dependencies.testnet (PilotResolver.variant Dependencies.testnet) site.resolver () :=
  have h : PilotResolver.construct chain 9 3 5 config = .ok site.resolver := by
    with_unfolding_all rfl
  .pilot h

end Testnet

open Testnet in
theorem bonds_conserved_testnet :
    let s := step (PilotResolver.variant Dependencies.testnet) site
    let w := World.initial site funds ()
    (Run.run s w actions).resolver.lockedBonds = 1000 ∧ (Run.run s w actions).resolver.credits 8 = 2000 ∧
      BondsConserved site (Run.run s w actions) (Run.history s w actions) :=
  ⟨by decide +kernel, by decide +kernel,
    bonds_conserved (Token.standard_confined 18) deployed funds actions⟩

end Resolvers
