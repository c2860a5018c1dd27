import Flurbo.Contracts.Pools.Recorded

-- The receipts of a base claim are backed, one for one, by what their token holds in escrow.

open Evm Except FactoredPositions

-- What the receipts inherit from OpenZeppelin's ERC20.
structure ERC20.Lawful (T : ERC20) : Prop where
  initial   : T.totalSupply T.initial = 0
  le_supply : ∀ t a, T.balanceOf t a ≤ T.totalSupply t
  mint      : ∀ {t t' a n}, T.mint t a n = .ok t' → T.totalSupply t' = T.totalSupply t + n
  burn      : ∀ {t t' a n}, T.burn t a n = .ok t' → T.totalSupply t' + n = T.totalSupply t
  burn_ok   : ∀ {t a n}, a ≠ 0 → n ≤ T.balanceOf t a → ∃ t', T.burn t a n = .ok t'

namespace ERC20

-- Balances with their sum.
structure Ledger where
  of     : Address → ℕ
  supply : ℕ
  sum_eq : ∑ a, of a = supply

namespace Ledger

variable {t t' : Ledger} {a : Address} {n : ℕ}

def mint (t : Ledger) (a : Address) (n : ℕ) : Sol Ledger :=
  if a ≠ 0 ∧ t.supply + n < 2 ^ 256 then
    .ok ⟨Function.update t.of a (t.of a + n), t.supply + n, by
      have := Holdings.sum_update_add t.of a (t.of a + n)
      have := t.sum_eq
      omega⟩
  else
    .error .token

def burn (t : Ledger) (a : Address) (n : ℕ) : Sol Ledger :=
  if h : a ≠ 0 ∧ n ≤ t.of a then
    .ok ⟨Function.update t.of a (t.of a - n), t.supply - n, by
      have := Holdings.sum_update_add t.of a (t.of a - n)
      have := t.sum_eq
      have := h.right
      omega⟩
  else
    .error .token

theorem le_supply (t : Ledger) (a : Address) : t.of a ≤ t.supply :=
  t.sum_eq ▸ Finset.single_le_sum (fun _ _ => Nat.zero_le _) (Finset.mem_univ a)

theorem mint_supply (h : t.mint a n = .ok t') : t'.supply = t.supply + n := by
  unfold mint at h
  split at h <;> cases h
  rfl

theorem burn_supply (h : t.burn a n = .ok t') : t'.supply + n = t.supply := by
  unfold burn at h
  split at h
  case isFalse   => cases h
  case isTrue hb =>
    cases h
    exact Nat.sub_add_cancel (hb.right.trans (t.le_supply a))

end Ledger

def openZeppelin : ERC20 where
  State         := Ledger
  initial       := ⟨fun _ => 0, 0, by simp⟩
  totalSupply t := t.supply
  balanceOf t   := t.of
  mint          := Ledger.mint
  burn          := Ledger.burn

theorem openZeppelin_lawful : openZeppelin.Lawful where
  initial        := rfl
  le_supply      := Ledger.le_supply
  mint           := Ledger.mint_supply
  burn           := Ledger.burn_supply
  burn_ok h₀ hn  := ⟨_, dif_pos ⟨h₀, hn⟩⟩

end ERC20

namespace Pools

variable {D : Dependencies} {ε : Type} {cfg : Config} {msg : Msg cfg.self} {s s' : Storage D ε}
  {w w' : World D ε} {S : Set Address} {sender a owner owner' : Address} {created : Option Address}
  {claim c : Claim} {events eventIndex quantity : ℕ} {outcome : Bool}

section Escrow

-- What an address should hold of a claim if it is a token.
def escrow (s : Storage D ε) (a : Address) (claim : Claim) : ℕ :=
  match s.baseTokens claim with
  | some token => if token.address = a then D.receipt.totalSupply token.state else 0
  | none       => 0

-- The addresses in `S` are those that tokens have or may get.
structure Escrowed (S : Set Address) (s : Storage D ε) : Prop where
  address : ∀ claim token, s.baseTokens claim = some token → token.address ∈ S
  held    : ∀ a ∈ S, ∀ claim, s.positions a claim = escrow s a claim

theorem escrow_congr (h : s'.baseTokens claim = s.baseTokens claim) :
    escrow s' a claim = escrow s a claim := by
  rw [escrow, escrow, h]

theorem escrow_some {token : BaseToken D} (h : s.baseTokens claim = some token) :
    escrow s a claim = if token.address = a then D.receipt.totalSupply token.state else 0 := by
  rw [escrow, h]

theorem escrow_none (h : s.baseTokens claim = none) : escrow s a claim = 0 := by
  rw [escrow, h]

-- An owner's positions change by that owner's trades only.
theorem trade_ne {self book : Book} {scope mask : ℕ} {isBuy : Bool}
    (h : trade self owner scope mask quantity isBuy = .ok book) (ha : a ≠ owner) (c : Claim) :
    book a c = self a c := by
  cases isBuy
  case false =>
    have ⟨_, _, _, hb⟩ := debit_eq_ok.mp h
    rw [hb, Holdings.set_apply, if_neg (by simp [ha])]
  case true  =>
    have ⟨_, _, _, hb⟩ := credit_eq_ok.mp h
    rw [hb, Holdings.set_apply, if_neg (by simp [ha])]

-- A claim moves from one owner to another, and nothing else changes.
theorem escrow_moved {self mid book : Book} (hne : owner ≠ owner')
    (hd : debit self owner claim.scope claim.mask quantity = .ok mid)
    (hc : credit mid owner' claim.scope claim.mask quantity = .ok book) :
    book owner claim + quantity = self owner claim ∧ book owner' claim = self owner' claim + quantity ∧
      ∀ a c, (a ≠ owner ∧ a ≠ owner') ∨ c ≠ claim → book a c = self a c := by
  have ⟨_, _, hle, hm⟩ := debit_eq_ok.mp hd
  have ⟨_, _, _, hb⟩ := credit_eq_ok.mp hc
  refine ⟨?_, ?_, fun a c h => ?_⟩
  · rw [hb, Holdings.set_apply, if_neg (by simp [hne]), hm, Holdings.set_same]
    exact Nat.sub_add_cancel hle
  · rw [hb, Holdings.set_same, hm, Holdings.set_apply, if_neg (by simp [hne.symm])]
  · have h₁ : ¬ (a = owner ∧ c = ⟨claim.scope, claim.mask⟩) :=
      fun hn => h.elim (fun ha => ha.left hn.left) fun hc => hc hn.right
    have h₂ : ¬ (a = owner' ∧ c = ⟨claim.scope, claim.mask⟩) :=
      fun hn => h.elim (fun ha => ha.right hn.left) fun hc => hc hn.right
    rw [hb, Holdings.set_apply, if_neg h₂, hm, Holdings.set_apply, if_neg h₁]

end Escrow

namespace Escrowed

theorem initial {ext : ε} : Escrowed S (Storage.initial ext : Storage D ε) where
  address := by simp [Storage.initial]
  held    := by simp [Storage.initial, escrow]

-- The receipts of one claim change.
theorem update {token : BaseToken D} {state : D.receipt.State} (h : Escrowed S s)
    (ha : token.address ∈ S)
    (hb : s'.baseTokens = Function.update s.baseTokens claim (some { token with state }))
    (hp : ∀ a ∈ S, ∀ c, c ≠ claim → s'.positions a c = s.positions a c)
    (hs : ∀ a ∈ S, s'.positions a claim =
      if token.address = a then D.receipt.totalSupply state else 0) : Escrowed S s' where
  address := by
    intro c token' ht
    rw [hb] at ht
    by_cases hc : c = claim
    case pos =>
      rw [hc, Function.update_self, Option.some.injEq] at ht
      exact ht ▸ ha
    case neg =>
      rw [Function.update_of_ne hc] at ht
      exact h.address c token' ht
  held := by
    intro a haS c
    by_cases hc : c = claim
    case pos =>
      have ht : s'.baseTokens claim = some { token with state } := by rw [hb, Function.update_self]
      rw [hc, escrow_some ht, hs a haS]
    case neg =>
      have ht : s'.baseTokens c = s.baseTokens c := by rw [hb, Function.update_of_ne hc]
      rw [escrow_congr ht, hp a haS c hc, h.held a haS c]

theorem recorded (h : Escrowed S s) (hL : D.receipt.Lawful) (hsender : sender ∉ S)
    (hcreated : ∀ address, created = some address → address ∈ S)
    (hr : Recorded cfg sender created s s') : Escrowed S s' := by
  have hne (a : Address) (ha : a ∈ S) : a ≠ sender := fun he => hsender (he ▸ ha)
  cases hr
  case none hp hb =>
    refine ⟨by rw [hb]; exact h.address, fun a ha c => ?_⟩
    rw [escrow_congr (congrFun hb c), hp, h.held a ha c]
  case trade hp hb =>
    refine ⟨by rw [hb]; exact h.address, fun a ha c => ?_⟩
    rw [escrow_congr (congrFun hb c), trade_ne hp (hne a ha), h.held a ha c]
  case create address hc ha hn hp hb =>
    let token : BaseToken D := ⟨address, D.receipt.initial⟩
    have htS : token.address ∈ S := hcreated address ha
    refine h.update htS hb (fun a _ c _ => by rw [hp]) fun a haS => ?_
    rw [hp, h.held a haS, escrow_none hn, hL.initial, ite_self]
  case wrap claim token mid state quantity ht hd hc hm hb =>
    have htS := h.address _ _ ht
    have ⟨_, hin, hsame⟩ := escrow_moved (hne _ htS).symm hd hc
    refine h.update htS hb (fun a _ c hc => hsame a c (.inr hc)) fun a haS => ?_
    by_cases hat : token.address = a
    case pos =>
      subst hat
      rw [hin, h.held _ haS, escrow_some ht, if_pos rfl, if_pos rfl, hL.mint hm]
    case neg =>
      rw [hsame a _ (.inl ⟨hne a haS, Ne.symm hat⟩), h.held a haS, escrow_some ht, if_neg hat, if_neg hat]
  case unwrap claim token mid state quantity ht hd hc hm hb =>
    have htS := h.address _ _ ht
    have ⟨hout, _, hsame⟩ := escrow_moved (hne _ htS) hd hc
    refine h.update htS hb (fun a _ c hc => hsame a c (.inr hc)) fun a haS => ?_
    by_cases hat : token.address = a
    case pos =>
      subst hat
      have hheld := h.held _ haS claim
      rw [escrow_some ht, if_pos rfl, ← hL.burn hm] at hheld
      rw [if_pos rfl]
      omega
    case neg =>
      rw [hsame a _ (.inl ⟨Ne.symm hat, hne a haS⟩), h.held a haS, escrow_some ht, if_neg hat, if_neg hat]
  case receipts token state ht hs hp hb =>
    have htS := h.address _ _ ht
    refine h.update htS hb (fun a _ c _ => by rw [hp]) fun a haS => ?_
    rw [hp, h.held a haS, escrow_some ht, hs]

end Escrowed

section Backing

-- Nobody's total changes when a claim moves.
theorem sum_escrow {self mid book : Book}
    (hd : debit self owner claim.scope claim.mask quantity = .ok mid)
    (hc : credit mid owner' claim.scope claim.mask quantity = .ok book) (c : Claim) :
    ∑ o, book o c = ∑ o, self o c := by
  by_cases hcl : c = claim
  case pos =>
    subst hcl
    have ⟨_, _, hle, hm⟩ := debit_eq_ok.mp hd
    have ⟨_, _, _, hb⟩ := credit_eq_ok.mp hc
    have hsum (b : Book) (o : Address) (q : ℕ) :
        ∑ x, Holdings.set b o c q x c + b o c = ∑ x, b x c + q := by
      simpa [Holdings.weigh] using Holdings.weigh_set (fun _ => 1) b o q (Finset.mem_singleton_self c)
    have hm : mid = Holdings.set self owner c (self owner c - quantity) := hm
    have hb : book = Holdings.set mid owner' c (mid owner' c + quantity) := hb
    have hout := hm ▸ hsum self owner (self owner c - quantity)
    have hin := hb ▸ hsum mid owner' (mid owner' c + quantity)
    have hle : quantity ≤ self owner c := hle
    omega
  case neg =>
    refine Finset.sum_congr rfl fun o _ => ?_
    have hd' : trade self owner claim.scope claim.mask quantity false = .ok mid := hd
    have hc' : trade mid owner' claim.scope claim.mask quantity true = .ok book := hc
    rw [trade_apply hc' o hcl, trade_apply hd' o hcl]

-- Receipts are backed by escrowed claims, and can always be turned back into them.
structure Backed (cfg : Config) (w : World D ε) : Prop where
  supply : ∀ claim token, w.pool.baseTokens claim = some token →
             D.receipt.totalSupply token.state = w.pool.positions token.address claim
  unwrap : ∀ (msg : Msg cfg.self) eventIndex outcome claim token quantity,
             baseClaim cfg eventIndex outcome = .ok claim → w.pool.baseTokens claim = some token →
             0 < quantity → quantity ≤ D.receipt.balanceOf token.state msg.sender →
             ∃ w', unwrapBase cfg msg eventIndex outcome quantity w = .ok w'
  frame  : ∀ (msg : Msg cfg.self) eventIndex outcome quantity w',
             wrapBase cfg msg eventIndex outcome quantity w = .ok w' ∨
               unwrapBase cfg msg eventIndex outcome quantity w = .ok w' →
             (∃ positions baseTokens, w' = { w with pool := { w.pool with positions, baseTokens } }) ∧
               ∀ c, ∑ owner, w'.pool.positions owner c = ∑ owner, w.pool.positions owner c

theorem Backed.of_escrowed (h : Escrowed S w.pool) (hL : D.receipt.Lawful) (he : cfg.eventCount ≤ 32)
    (ht : Tally cfg.eventCount w.pool.storedFactors w.pool.positions) : Backed cfg w where
  supply claim token htoken := by
    rw [h.held _ (h.address claim token htoken), escrow_some htoken, if_pos rfl]
  unwrap := by
    intro msg eventIndex outcome claim token quantity hclaim htoken hq hle
    have hheld := h.held _ (h.address claim token htoken) claim
    rw [escrow_some htoken, if_pos rfl] at hheld
    have hsupply := hL.le_supply token.state msg.sender
    have ⟨state, hburn⟩ := hL.burn_ok msg.ne_zero hle
    obtain ⟨mid, book, hd, hc⟩ : ∃ mid book,
        debit w.pool.positions token.address claim.scope claim.mask quantity = .ok mid ∧
          credit mid msg.sender claim.scope claim.mask quantity = .ok book :=
      ht.escrow_ok he hq (show quantity ≤ w.pool.positions token.address claim by omega)
    have htoken' : baseToken claim w.pool = .ok token := by rw [baseToken, htoken]; rfl
    let baseTokens := Function.update w.pool.baseTokens claim (some { token with state })
    refine ⟨{ w with pool := { w.pool with positions := book, baseTokens } }, ?_⟩
    rw [unwrapBase, hclaim, ok_bind, htoken', ok_bind, revertIf_ok (by omega), ok_bind, hburn, ok_bind,
      hd, ok_bind, hc, ok_bind]
    rfl
  frame := by
    intro msg eventIndex outcome quantity w' hmoved
    rcases hmoved with hw | hw
    · obtain ⟨claim, baseTokens, positions, mid, _, _, _, rfl, hd, hc⟩ := wrapBase_eq_ok hw
      exact ⟨⟨positions, baseTokens, rfl⟩, sum_escrow hd hc⟩
    · obtain ⟨claim, baseTokens, positions, mid, _, _, _, rfl, hd, hc⟩ := unwrapBase_eq_ok hw
      exact ⟨⟨positions, baseTokens, rfl⟩, sum_escrow hd hc⟩

section Runs

-- The tokens that a run may create.
def createdIn {target : Address} {α : Type} (creates : α → Option Address)
    (calls : List (Msg target × α)) : Set Address :=
  fun a => ∃ call ∈ calls, creates call.2 = some a

-- No call of a run is made by a token that the run creates.
def TokensApart {target : Address} {α : Type} (creates : α → Option Address)
    (calls : List (Msg target × α)) : Prop :=
  ∀ call ∈ calls, ∀ call' ∈ calls, creates call'.2 ≠ some call.1.sender

variable {α : Type} {step : World D ε → Msg cfg.self × α → Sol (World D ε)} {w₀ : World D ε}
  {creates : α → Option Address} {calls : List (Msg cfg.self × α)}

theorem TokensApart.not_mem (h : TokensApart creates calls) {call : Msg cfg.self × α}
    (hc : call ∈ calls) : call.1.sender ∉ createdIn creates calls :=
  fun ⟨call', hc', heq⟩ => h call hc call' hc' heq

theorem mem_createdIn {call : Msg cfg.self × α} (hc : call ∈ calls) :
    ∀ a, creates call.2 = some a → a ∈ createdIn creates calls :=
  fun _ ha => ⟨call, hc, ha⟩

theorem Backed.of_run (hL : D.receipt.Lawful) (he : cfg.eventCount ≤ 32)
    (h₀ : Live cfg (fun _ => True) w₀) (hE : Escrowed (createdIn creates calls) w₀.pool)
    (hlive : ∀ {w w' msg call}, step w (msg, call) = .ok w' → Live cfg (fun _ => True) w →
      Live cfg (fun _ => True) w')
    (hrec : ∀ {w w' msg call}, step w (msg, call) = .ok w' →
      Recorded cfg msg.sender (creates call) w.pool w'.pool)
    (ha : TokensApart creates calls) : Backed cfg (Run.run step w₀ calls) := by
  let I (w : World D ε) := Live cfg (fun _ => True) w ∧ Escrowed (createdIn creates calls) w.pool
  have hinv : I (Run.run step w₀ calls) := Run.run_invariant ⟨h₀, hE⟩ fun w w' call hc hw hs =>
    ⟨hlive hs hw.left, hw.right.recorded hL (ha.not_mem hc) (mem_createdIn hc) (hrec hs)⟩
  exact .of_escrowed hinv.right hL he hinv.left.tally

end Runs

-- Receipts stay backed in every run of the three pools, through any transfers of the receipts, as
-- long as the tokens themselves do not call the pool.
theorem receipts_backed {chain : Chain} {self token resolver : Address} {events b closeTime rulesHash : ℕ}
    {order : List ℕ} (hL : D.receipt.Lawful) :
    (∀ cfg, FactoredPool.construct D chain self token events b closeTime order resolver rulesHash =
        .ok cfg →
      ∀ collateral (calls : List (Msg cfg.self × FactoredPool.Call D)),
      TokensApart FactoredPool.Call.creates calls →
      Backed cfg (Run.run (FactoredPool.step (uniform cfg) cfg)
        ⟨collateral, Storage.initial ()⟩ calls)) ∧
    (∀ cfg, PilotPool.construct D chain self token events b closeTime order resolver rulesHash =
        .ok cfg →
      ∀ collateral (calls : List (Msg cfg.self × PilotPool.Call D)),
      TokensApart PilotPool.Call.creates calls →
      Backed cfg (Run.run (PilotPool.step cfg) ⟨collateral, PilotPool.initial⟩ calls)) ∧
    (∀ cfg policy, FundedFactoredPool.construct D chain self token events b closeTime order resolver
        rulesHash policy = .ok cfg →
      ∀ collateral (calls : List (Msg cfg.self × FundedFactoredPool.Call D)),
      TokensApart FundedFactoredPool.Call.creates calls →
      Backed cfg.toConfig (Run.run (FundedFactoredPool.step cfg)
        ⟨collateral, FundedFactoredPool.initial cfg⟩ calls)) := by
  refine ⟨fun cfg h collateral calls ha => ?_, fun cfg h collateral calls ha => ?_,
    fun cfg policy h collateral calls ha => ?_⟩
  · have he := (FactoredPool.construct_accepted h).events_le
    exact .of_run hL he (Live.initial trivial) .initial
      (fun hs hw => FactoredPool.step_live hs hw uniform_sound he fun _ _ => trivial)
      (FactoredPool.step_recorded uniform_sound) ha
  · have he := (PilotPool.construct_accepted h).events_le
    exact .of_run hL he (Live.initial trivial) .initial
      (fun hs hw => PilotPool.step_live hs hw he fun _ _ => trivial) PilotPool.step_recorded ha
  · have he := (FundedFactoredPool.construct_accepted h).events_le
    exact .of_run hL he (Live.initial trivial) .initial
      (fun hs hw => FundedFactoredPool.step_live hs hw he (fun _ _ => trivial) fun _ _ => trivial)
      FundedFactoredPool.step_recorded ha

end Backing

namespace Testnet

def receipted : Dependencies := { Dependencies.testnet with receipt := ERC20.openZeppelin }

-- A claim is bought, wrapped, and part of it unwrapped again.
def wraps : List (Msg config.self × PilotPool.Call receipted) :=
  [(trader, .action .fund), (trader, .action (.buy 1 2 (10 ^ 15) (10 ^ 15) 50)),
    (trader, .action (.createBaseToken 0 true 77)), (trader, .action (.wrapBase 0 true (6 * 10 ^ 14))),
    (trader, .action (.unwrapBase 0 true (10 ^ 14)))]

end Testnet

open Testnet in
theorem receipts_backed_testnet :
    let w := Run.run (PilotPool.step (D := receipted) config) ⟨funds, PilotPool.initial⟩ wraps
    w.pool.positions 77 ⟨1, 2⟩ = 5 * 10 ^ 14 ∧ Backed config w :=
  have h : PilotPool.construct receipted chain 1 2 2 (10 ^ 18) 100 [0, 1] 9 5 = .ok config := by
    decide +kernel
  have ha : TokensApart PilotPool.Call.creates wraps := by
    simp only [TokensApart, wraps, List.forall_mem_cons, PilotPool.Call.creates, Action.creates]
    decide
  ⟨by decide +kernel,
    (receipts_backed (D := receipted) ERC20.openZeppelin_lawful).right.left config h funds wraps ha⟩

end Pools
