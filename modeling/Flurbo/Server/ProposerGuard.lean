import Flurbo.Contracts.Pools.Recorded

-- The guard that an automated proposer holds nothing in the pool it proposes for. It reads the pool
-- at one block and enumerates the claims that a position can be in.

open Except
open FactoredCost (popcount)

namespace ProposerGuard

inductive Failure
  | invalidBlock | unsupportedScope | readFailed
  deriving DecidableEq, Repr

-- What the contracts answer to a view call at a block.
structure Views where
  factors    : Except Failure (List Factor)
  baseTokens : (scope mask : ℕ) → Except Failure Evm.Address
  holdings   : (owner : Evm.Address) → Claim → Except Failure ℕ
  balanceOf  : (token owner : Evm.Address) → Except Failure ℕ

-- The latest block, if its header is whole, and the views at every block.
structure Node where
  latest : Option ℕ
  viewAt : (block : ℕ) → Views

structure Wrapped where
  event : ℕ
  yes   : Bool
  token : Evm.Address
  deriving DecidableEq

structure Holdings where
  clear         : Bool
  blockNumber   : ℕ
  checkedClaims : ℕ
  checkedTokens : ℕ
  positions     : List (Claim × ℕ)
  wrapped       : List (Wrapped × ℕ)
  deriving DecidableEq

inductive Status
  | guardMissing
  | guardUnavailable
  | clear (blockNumber checkedClaims : ℕ)
  | holdsPosition (blockNumber positions wrapped : ℕ)
  deriving DecidableEq

def claimMasks (scope : ℕ) : Except Failure (List ℕ) :=
  let size := popcount scope
  if size < 1 ∨ size > 3 then
    .error .unsupportedScope
  else
    .ok ((List.range (2 ^ 2 ^ size - 1 - 1)).map (· + 1))

-- `aggregate3` over chunks of the calls. A call that fails fails the whole read.
def aggregate {α β : Type} (read : α → Except Failure β) : List α → Except Failure (List β)
  | []            => .ok []
  | call :: calls => do
    let rows ← ((call :: calls).take 250).mapM read
    return rows ++ (← aggregate read ((call :: calls).drop 250))
termination_by calls => calls.length
decreasing_by
  simp

-- `[...new Set(xs)]`
def unique (xs : List ℕ) : List ℕ :=
  xs.foldl (fun seen x => if x ∈ seen then seen else seen ++ [x]) []

def scopeClaims (scope : ℕ) : Except Failure (List Claim) := do
  return (← claimMasks scope).map fun mask => ⟨scope, mask⟩

def claimsOf (factors : List Factor) : Except Failure (List Claim) := do
  return (← (unique (factors.map (·.scope))).mapM scopeClaims).flatten

-- The events of the pool with the masks of their two outcomes.
def bases (events : ℕ) : List (ℕ × ℕ) :=
  ((List.range events).map fun i => [(i, 2), (i, 1)]).flatten

def proposerHoldings (node : Node) (events : ℕ) (owner : Evm.Address) : Except Failure Holdings := do
  match node.latest with
  | none       => .error .invalidBlock
  | some block =>
    let views := node.viewAt block
    let factors ← views.factors
    let claims ← claimsOf factors
    let tokens ← aggregate (fun (i, mask) => views.baseTokens (1 <<< i) mask) (bases events)
    let held ← aggregate (views.holdings owner) claims
    let wrappedTokens := ((bases events).zipWith (fun (i, mask) token => ⟨i, mask == 2, token⟩) tokens).filter
      fun (t : Wrapped) => t.token ≠ 0
    let balances ← aggregate (fun t => views.balanceOf t.token owner) wrappedTokens
    let positions := (claims.zip held).filter fun p => p.2 ≠ 0
    let wrapped := (wrappedTokens.zip balances).filter fun t => t.2 ≠ 0
    return ⟨positions.isEmpty && wrapped.isEmpty, block, claims.length, wrappedTokens.length, positions,
      wrapped⟩

-- Fails closed: a missing or failing guard blocks proposals.
def proposerStatus (guard : Option (Except Failure Holdings)) : Status :=
  match guard with
  | none              => .guardMissing
  | some (.error _)   => .guardUnavailable
  | some (.ok held)   =>
    if held.clear ∧ held.positions = [] ∧ held.wrapped = [] then
      .clear held.blockNumber held.checkedClaims
    else
      .holdsPosition held.blockNumber held.positions.length held.wrapped.length

section Lemmas

variable {α β : Type} {read : α → Except Failure β} {calls : List α} {scope mask x : ℕ} {xs : List ℕ}

theorem aggregate_eq (read : α → Except Failure β) (calls : List α) :
    aggregate read calls = calls.mapM read := by
  induction calls using aggregate.induct
  case case1               => rw [aggregate]; rfl
  case case2 call calls hi =>
    rw [aggregate, hi]
    conv_rhs => rw [← List.take_append_drop 250 (call :: calls), List.mapM_append]

theorem mem_unique : x ∈ unique xs ↔ x ∈ xs := by
  suffices h : ∀ seen, x ∈ xs.foldl (fun seen x => if x ∈ seen then seen else seen ++ [x]) seen ↔
      x ∈ seen ∨ x ∈ xs by
    simpa [unique] using h []
  induction xs
  case nil          => simp
  case cons y xs hi =>
    intro seen
    rw [List.foldl_cons, hi, List.mem_cons]
    split
    case isTrue hy  => grind
    case isFalse hy => grind

-- The masks are those of a claim on the scope.
theorem claimMasks_ok (h : 0 < popcount scope ∧ popcount scope ≤ 3) :
    ∃ masks, claimMasks scope = .ok masks ∧ ∀ mask, mask ∈ masks ↔ Claim.Valid ⟨scope, mask⟩ := by
  have hc : ¬ (popcount scope < 1 ∨ popcount scope > 3) := by omega
  refine ⟨_, by rw [claimMasks, if_neg hc], fun mask => ?_⟩
  have hiff : Claim.Valid ⟨scope, mask⟩ ↔ 0 < mask ∧ mask < 2 ^ 2 ^ popcount scope - 1 :=
    ⟨fun h => ⟨h.mask_pos, h.mask_lt⟩, fun hm => ⟨h.left, h.right, hm.left, hm.right⟩⟩
  rw [hiff]
  simp only [List.mem_map, List.mem_range]
  constructor
  case mp  => rintro ⟨i, hi, rfl⟩; omega
  case mpr => exact fun ⟨h₁, h₂⟩ => ⟨mask - 1, by omega, by omega⟩

theorem zipWith_map_self {γ : Type} {f : α → β → γ} {g : α → β} {xs : List α} :
    xs.zipWith f (xs.map g) = xs.map fun x => f x (g x) := by
  induction xs
  case nil          => rfl
  case cons x xs hi => simp [hi]

theorem filter_zip_eq_nil {xs : List α} {g : α → ℕ} :
    (xs.zip (xs.map g)).filter (fun p => p.2 ≠ 0) = [] ↔ ∀ x ∈ xs, g x = 0 := by
  rw [List.filter_eq_nil_iff, List.zip, zipWith_map_self]
  simp

theorem mem_flatten_iff {xss : List (List α)} {ys : List β} {P : β → α → Prop}
    (h : List.Forall₂ (fun y xs => ∀ x, x ∈ xs ↔ P y x) ys xss) (x : α) :
    x ∈ xss.flatten ↔ ∃ y ∈ ys, P y x := by
  induction h
  case nil            => simp
  case cons hxs _ hi => rw [List.flatten_cons, List.mem_append, hi, hxs, List.exists_mem_cons_iff]

-- The claims of the stored scopes are all that a position can be in.
theorem claimsOf_ok {factors : List Factor}
    (h : ∀ f ∈ factors, 0 < popcount f.scope ∧ popcount f.scope ≤ 3) :
    ∃ claims, claimsOf factors = .ok claims ∧
      ∀ c, c ∈ claims ↔ c.Valid ∧ c.scope ∈ factors.map (·.scope) := by
  have hscopes : ((unique (factors.map (·.scope))).mapM scopeClaims).Holds False
      (List.Forall₂ (fun scope claims => ∀ c : Claim, c ∈ claims ↔ c.Valid ∧ c.scope = scope)
        (unique (factors.map (·.scope)))) := by
    refine Holds.mapM fun scope hs => ?_
    obtain ⟨f, hf, rfl⟩ := List.mem_map.mp (mem_unique.mp hs)
    have ⟨masks, hm, hv⟩ := claimMasks_ok (h f hf)
    rw [scopeClaims, hm, ok_bind]
    intro ⟨scope, mask⟩
    rw [List.mem_map]
    constructor
    case mp  => rintro ⟨mask', hmask, heq⟩; cases heq; exact ⟨(hv mask).mp hmask, rfl⟩
    case mpr => rintro ⟨hvalid, hscope⟩; cases hscope; exact ⟨mask, (hv mask).mpr hvalid, rfl⟩
  have ⟨claims, hok, hclaims⟩ := holds_false_iff.mp hscopes
  refine ⟨claims.flatten, by rw [claimsOf, hok]; rfl, fun c => ?_⟩
  rw [mem_flatten_iff hclaims]
  simp only [mem_unique]
  constructor
  case mp  => rintro ⟨s, hs, hv, rfl⟩; exact ⟨hv, hs⟩
  case mpr => exact fun ⟨hv, hs⟩ => ⟨_, hs, hv, rfl⟩

end Lemmas

section Pool

open Pools Evm

variable {D : Dependencies} {ε : Type} {cfg : Config} {s s' : Storage D ε} {w : World D ε}
  {sender : Address} {created : Option Address} {owner : Address} {events : ℕ}

-- Tokens exist for the claims on single events only, at addresses of contracts.
def BaseTokensOnly (cfg : Config) (s : Storage D ε) : Prop :=
  ∀ claim token, s.baseTokens claim = some token →
    (∃ eventIndex outcome, baseClaim cfg eventIndex outcome = .ok claim) ∧ token.address ≠ 0

theorem BaseTokensOnly.recorded (h : BaseTokensOnly cfg s) (hc : created ≠ some 0)
    (hr : Recorded cfg sender created s s') : BaseTokensOnly cfg s' := by
  -- A token that exists keeps its claim and its address, whatever happens to its receipts.
  have hupdate {claim : Claim} {token : BaseToken D} {state : D.receipt.State}
      (ht : s.baseTokens claim = some token)
      (hb : s'.baseTokens = Function.update s.baseTokens claim (some { token with state })) :
      BaseTokensOnly cfg s' := by
    intro c token' ht'
    rw [hb] at ht'
    by_cases hcl : c = claim
    case pos =>
      subst hcl
      rw [Function.update_self, Option.some.injEq] at ht'
      exact ht' ▸ h c token ht
    case neg =>
      rw [Function.update_of_ne hcl] at ht'
      exact h c token' ht'
  cases hr
  case none hp hb                                           => exact fun c token => hb ▸ h c token
  case trade hp hb                                          => exact fun c token => hb ▸ h c token
  case wrap ht _ _ _ hb                                     => exact hupdate ht hb
  case unwrap ht _ _ _ hb                                   => exact hupdate ht hb
  case receipts ht _ _ hb                                   => exact hupdate ht hb
  case create eventIndex outcome claim address hbase ha _ _ hb =>
    intro c token ht
    rw [hb] at ht
    by_cases hcl : c = claim
    case pos =>
      subst hcl
      rw [Function.update_self, Option.some.injEq] at ht
      subst ht
      exact ⟨⟨eventIndex, outcome, hbase⟩, fun hz => hc (by rw [ha, ← hz])⟩
    case neg =>
      rw [Function.update_of_ne hcl] at ht
      exact h c token ht

-- The node reads the contracts as they are in one state.
structure Views.Answer (views : Views) (w : World D ε) : Prop where
  factors    : views.factors = .ok w.pool.storedFactors
  baseTokens : ∀ scope mask, views.baseTokens scope mask =
                 .ok ((w.pool.baseTokens ⟨scope, mask⟩).elim 0 (·.address))
  holdings   : ∀ owner (c : Claim) held,
                 FactoredPositions.balance w.pool.positions owner c.scope c.mask = .ok held →
                 views.holdings owner c = .ok held
  balanceOf  : ∀ claim token owner, w.pool.baseTokens claim = some token →
                 views.balanceOf token.address owner = .ok (D.receipt.balanceOf token.state owner)

theorem mem_bases {i mask : ℕ} : (i, mask) ∈ bases events ↔ i < events ∧ (mask = 2 ∨ mask = 1) := by
  simp [bases]
  grind

-- What the guard is for: no position, and no receipt.
structure HoldsNothing (D : Dependencies) (w : World D ε) (owner : Address) : Prop where
  positions : ∀ c, w.pool.positions owner c = 0
  receipts  : ∀ claim token, w.pool.baseTokens claim = some token →
                D.receipt.balanceOf token.state owner = 0

-- The claims that the guard reads are all in which anyone could hold anything.
structure Enumerated (cfg : Config) (s : Storage D ε) (claims : List Claim) : Prop where
  positions : ∀ owner c, s.positions owner c ≠ 0 → c ∈ claims
  receipts  : ∀ claim token, s.baseTokens claim = some token →
                ∃ i mask, (i, mask) ∈ bases cfg.eventCount ∧ claim = ⟨1 <<< i, mask⟩

theorem BaseTokensOnly.mem_bases (h : BaseTokensOnly cfg s) {claim : Claim} {token : BaseToken D}
    (ht : s.baseTokens claim = some token) :
    ∃ i mask, (i, mask) ∈ bases cfg.eventCount ∧ claim = ⟨1 <<< i, mask⟩ := by
  have ⟨⟨i, outcome, hb⟩, _⟩ := h claim token ht
  have ⟨hi, hc⟩ := baseClaim_eq_ok hb
  refine ⟨i, if outcome then 2 else 1, ProposerGuard.mem_bases.mpr ⟨hi, ?_⟩, by rw [hc, Nat.one_shiftLeft]⟩
  cases outcome <;> simp

def balanceAt (w : World D ε) (owner : Address) (i mask : ℕ) : ℕ :=
  match w.pool.baseTokens ⟨1 <<< i, mask⟩ with
  | some token => D.receipt.balanceOf token.state owner
  | none       => 0

-- The token of a base claim, or zero.
def tokenAt (w : World D ε) (i mask : ℕ) : Address :=
  (w.pool.baseTokens ⟨1 <<< i, mask⟩).elim 0 (·.address)

def wrappedTokens (cfg : Config) (w : World D ε) : List Wrapped :=
  ((bases cfg.eventCount).map fun b => (⟨b.1, b.2 == 2, tokenAt w b.1 b.2⟩ : Wrapped)).filter
    fun t => t.token ≠ 0

theorem mem_wrappedTokens {t : Wrapped} (h : t ∈ wrappedTokens cfg w) :
    ∃ mask, (t.event, mask) ∈ bases cfg.eventCount ∧ mask = (if t.yes then 2 else 1) ∧
      t.token = tokenAt w t.event mask ∧ t.token ≠ 0 := by
  simp only [wrappedTokens, List.mem_filter, List.mem_map, decide_eq_true_eq, Prod.exists] at h
  obtain ⟨⟨i, mask, hb, rfl⟩, hne⟩ := h
  refine ⟨mask, hb, ?_, rfl, hne⟩
  have := (mem_bases.mp hb).right
  rcases this with rfl | rfl <;> rfl

-- What the guard reads for a token it found.
theorem balanceOf_wrapped {views : Views} (ha : views.Answer w) {t : Wrapped}
    (h : t ∈ wrappedTokens cfg w) :
    views.balanceOf t.token owner = .ok (balanceAt w owner t.event (if t.yes then 2 else 1)) := by
  have ⟨mask, _, hm, htoken, hne⟩ := mem_wrappedTokens h
  rw [← hm, balanceAt]
  rw [tokenAt] at htoken
  cases hs : w.pool.baseTokens ⟨1 <<< t.event, mask⟩
  case none       => simp [hs] at htoken; exact absurd htoken hne
  case some token =>
    rw [hs] at htoken
    rw [htoken]
    exact ha.balanceOf _ _ _ hs

theorem wrapped_clear_iff (hb : BaseTokensOnly cfg w.pool) :
    (∀ t ∈ wrappedTokens cfg w, balanceAt w owner t.event (if t.yes then 2 else 1) = 0) ↔
      ∀ b ∈ bases cfg.eventCount, balanceAt w owner b.1 b.2 = 0 := by
  constructor
  case mp =>
    rintro h ⟨i, mask⟩ hmem
    by_cases hne : tokenAt w i mask = 0
    case pos =>
      rw [tokenAt] at hne
      cases hs : w.pool.baseTokens ⟨1 <<< i, mask⟩
      case none       => rw [balanceAt, hs]
      case some token =>
        rw [hs] at hne
        exact absurd hne (hb _ _ hs).right
    case neg =>
      have ht : (⟨i, mask == 2, tokenAt w i mask⟩ : Wrapped) ∈ wrappedTokens cfg w :=
        List.mem_filter.mpr ⟨List.mem_map.mpr ⟨_, hmem, rfl⟩, by simpa using hne⟩
      have := h _ ht
      rcases (mem_bases.mp hmem).right with rfl | rfl <;> exact this
  case mpr =>
    intro h t ht
    have ⟨mask, hmem, hm, _⟩ := mem_wrappedTokens ht
    exact hm ▸ h _ hmem

theorem proposerStatus_clear {held : Holdings}
    (h : held.clear = (held.positions.isEmpty && held.wrapped.isEmpty)) :
    proposerStatus (some (.ok held)) = .clear held.blockNumber held.checkedClaims ↔ held.clear = true := by
  rw [h, Bool.and_eq_true, List.isEmpty_iff, List.isEmpty_iff, proposerStatus]
  split
  case isTrue hc  => exact ⟨fun _ => hc.right, fun _ => rfl⟩
  case isFalse hc =>
    refine ⟨fun h => (by cases h), fun he => absurd ⟨?_, he⟩ hc⟩
    rw [h, he.1, he.2]
    rfl

theorem proposerHoldings_ok {node : Node} {block : ℕ} {claims : List Claim}
    (hn : node.latest = some block) (ha : (node.viewAt block).Answer w)
    (hc : claimsOf w.pool.storedFactors = .ok claims) (hv : ∀ c ∈ claims, c.Valid)
    (hb : BaseTokensOnly cfg w.pool) :
    ∃ held, proposerHoldings node cfg.eventCount owner = .ok held ∧
      (held.clear = true ↔ (∀ c ∈ claims, w.pool.positions owner c = 0) ∧
        ∀ b ∈ bases cfg.eventCount, balanceAt w owner b.1 b.2 = 0) ∧
      (proposerStatus (some (.ok held)) = .clear block claims.length ↔ held.clear = true) := by
  have htokens : (bases cfg.eventCount).mapM
      (fun (i, mask) => (node.viewAt block).baseTokens (1 <<< i) mask) =
        .ok ((bases cfg.eventCount).map fun b => tokenAt w b.1 b.2) :=
    mapM_ok fun b _ => ha.baseTokens ..
  have hheld : claims.mapM ((node.viewAt block).holdings owner) =
      .ok (claims.map (w.pool.positions owner)) := by
    refine mapM_ok fun c hcl => ha.holdings owner c _ ?_
    rw [FactoredPositions.balance, FactoredPositions.key_eq_ok.mpr ⟨hv c hcl, rfl⟩]
    rfl
  have hbalances : (wrappedTokens cfg w).mapM (fun t => (node.viewAt block).balanceOf t.token owner) =
      .ok ((wrappedTokens cfg w).map fun t => balanceAt w owner t.event (if t.yes then 2 else 1)) :=
    mapM_ok fun t ht => balanceOf_wrapped ha ht
  let positions := (claims.zip (claims.map (w.pool.positions owner))).filter fun p => p.2 ≠ 0
  let wrapped := ((wrappedTokens cfg w).zip ((wrappedTokens cfg w).map fun t =>
    balanceAt w owner t.event (if t.yes then 2 else 1))).filter fun t => t.2 ≠ 0
  refine ⟨⟨positions.isEmpty && wrapped.isEmpty, block, claims.length, (wrappedTokens cfg w).length,
    positions, wrapped⟩, ?_, ?_, proposerStatus_clear rfl⟩
  · rw [proposerHoldings, hn]
    simp only [ha.factors, ok_bind, hc, aggregate_eq, htokens, hheld, zipWith_map_self]
    rw [show List.filter _ _ = wrappedTokens cfg w from rfl, hbalances]
    rfl
  · rw [Bool.and_eq_true, List.isEmpty_iff, List.isEmpty_iff, filter_zip_eq_nil, filter_zip_eq_nil,
      wrapped_clear_iff hb]

theorem run_baseTokensOnly (he : cfg.eventCount ≤ 32) (collateral : D.collateral.State)
    (calls : List (Msg cfg.self × PilotPool.Call D)) (hcreated : ∀ call ∈ calls, call.2.creates ≠ some 0) :
    let w := Run.run (PilotPool.step cfg) ⟨collateral, PilotPool.initial⟩ calls
    Live cfg (fun _ => True) w ∧ BaseTokensOnly cfg w.pool := by
  have h₀ : BaseTokensOnly cfg (PilotPool.initial : Storage D PilotPool.Void) := by
    simp [BaseTokensOnly, PilotPool.initial, Storage.initial]
  exact Run.run_invariant (I := fun w => Live cfg (fun _ => True) w ∧ BaseTokensOnly cfg w.pool)
    ⟨Live.initial trivial, h₀⟩ fun w w' call hc hw hs =>
      ⟨PilotPool.step_live hs hw.left he fun _ _ => trivial,
        hw.right.recorded (hcreated call hc) (PilotPool.step_recorded hs)⟩

-- The guard reports clear, and lets an owner propose, exactly if the owner holds nothing, in whatever
-- state the pool is.
theorem guard_exhaustive {chain : Chain} {self token resolver : Address} {b closeTime rulesHash : ℕ}
    {order : List ℕ}
    (h : PilotPool.construct D chain self token events b closeTime order resolver rulesHash = .ok cfg)
    (collateral : D.collateral.State) (calls : List (Msg cfg.self × PilotPool.Call D))
    (hcreated : ∀ call ∈ calls, call.2.creates ≠ some 0) (node : Node) (block : ℕ) :
    let w := Run.run (PilotPool.step cfg) ⟨collateral, PilotPool.initial⟩ calls
    node.latest = some block → (node.viewAt block).Answer w →
    ∃ claims, claimsOf w.pool.storedFactors = .ok claims ∧ Enumerated cfg w.pool claims ∧
      ∀ owner, ∃ held, proposerHoldings node cfg.eventCount owner = .ok held ∧
        (held.clear = true ↔ HoldsNothing D w owner) ∧
        (proposerStatus (some (.ok held)) = .clear block claims.length ↔ HoldsNothing D w owner) := by
  intro w hn ha
  have hinv := run_baseTokensOnly (PilotPool.construct_accepted h).events_le collateral calls hcreated
  have htally := hinv.left.tally
  have ⟨claims, hc, hmem⟩ := claimsOf_ok htally.size
  have hall (owner : Address) (c : Claim) (ho : w.pool.positions owner c ≠ 0) : c ∈ claims :=
    (hmem c).mpr (htally.stored owner c ho)
  refine ⟨claims, hc, ⟨hall, fun claim token ht => hinv.right.mem_bases ht⟩, fun owner => ?_⟩
  have ⟨held, hok, hclear, hstatus⟩ : ∃ held, proposerHoldings node cfg.eventCount owner = .ok held ∧ _ :=
    proposerHoldings_ok hn ha hc (fun c hcl => ((hmem c).mp hcl).left) hinv.right
  suffices hh : held.clear = true ↔ HoldsNothing D w owner from ⟨held, hok, hh, hstatus.trans hh⟩
  refine hclear.trans ⟨fun ⟨hp, hr⟩ => ⟨fun c => ?_, fun claim token ht => ?_⟩,
    fun hh => ⟨fun c _ => hh.positions c, fun b _ => ?_⟩⟩
  · by_contra ho
    exact ho (hp c (hall owner c ho))
  · obtain ⟨i, mask, hb, rfl⟩ := hinv.right.mem_bases ht
    have := hr _ hb
    rwa [balanceAt, ht] at this
  · rw [balanceAt]
    split
    case h_1 token ht => exact hh.receipts _ _ ht
    case h_2          => rfl

end Pool

section Testnet

open Pools Evm Testnet

-- A pool in which one account holds a claim, and receipts for a part of it.
def guardCalls : List (Msg config.self × PilotPool.Call Dependencies.testnet) :=
  [(trader, .action .fund), (trader, .action (.buy 1 2 (10 ^ 15) (10 ^ 15) 50)),
    (trader, .action (.createBaseToken 0 true 77)), (trader, .action (.wrapBase 0 true (4 * 10 ^ 14)))]

def guardWorld : World Dependencies.testnet PilotPool.Void :=
  Run.run (PilotPool.step config) ⟨funds, PilotPool.initial⟩ guardCalls

def guardViews : Views where
  factors              := .ok guardWorld.pool.storedFactors
  baseTokens scope mask := .ok ((guardWorld.pool.baseTokens ⟨scope, mask⟩).elim 0 (·.address))
  holdings owner c     := (FactoredPositions.balance guardWorld.pool.positions owner c.scope c.mask).mapError
                            fun _ => .readFailed
  balanceOf _ owner    := .ok (balanceAt guardWorld owner 0 2)

theorem guardViews_answer (hb : BaseTokensOnly config guardWorld.pool) : guardViews.Answer guardWorld where
  factors          := rfl
  baseTokens _ _   := rfl
  holdings _ _ _ h := mapError_eq_ok.mpr h
  balanceOf        := by
    intro claim token owner ht
    obtain ⟨i, mask, hmem, rfl⟩ := hb.mem_bases ht
    have hnone : (guardWorld.pool.baseTokens ⟨1, 1⟩).isNone ∧ (guardWorld.pool.baseTokens ⟨2, 2⟩).isNone ∧
        (guardWorld.pool.baseTokens ⟨2, 1⟩).isNone := by decide +kernel
    have hcases : (i = 0 ∧ mask = 2) ∨ (i = 0 ∧ mask = 1) ∨ (i = 1 ∧ mask = 2) ∨ (i = 1 ∧ mask = 1) := by
      have := mem_bases.mp hmem
      have : i < 2 := this.left
      omega
    rcases hcases with ⟨rfl, rfl⟩ | ⟨rfl, rfl⟩ | ⟨rfl, rfl⟩ | ⟨rfl, rfl⟩
    · exact congrArg Except.ok (by rw [balanceAt, ht])
    · exact absurd hnone.left (by rw [show (⟨1, 1⟩ : Claim) = ⟨1 <<< 0, 1⟩ from rfl, ht]; simp)
    · exact absurd hnone.right.left (by rw [show (⟨2, 2⟩ : Claim) = ⟨1 <<< 1, 2⟩ from rfl, ht]; simp)
    · exact absurd hnone.right.right (by rw [show (⟨2, 1⟩ : Claim) = ⟨1 <<< 1, 1⟩ from rfl, ht]; simp)

end Testnet

open Pools Testnet in
theorem guard_exhaustive_testnet :
    guardWorld.pool.positions 7 ⟨1, 2⟩ = 6 * 10 ^ 14 ∧
      ∃ claims, claimsOf guardWorld.pool.storedFactors = .ok claims ∧
        Enumerated config guardWorld.pool claims ∧
        ∀ owner, ∃ held, proposerHoldings ⟨some 1, fun _ => guardViews⟩ 2 owner = .ok held ∧
          (held.clear = true ↔ HoldsNothing Dependencies.testnet guardWorld owner) ∧
          (proposerStatus (some (.ok held)) = .clear 1 claims.length ↔
            HoldsNothing Dependencies.testnet guardWorld owner) := by
  have h : PilotPool.construct Dependencies.testnet chain 1 2 2 (10 ^ 18) 100 [0, 1] 9 5 = .ok config := by
    decide +kernel
  have hcreated : ∀ call ∈ guardCalls, call.2.creates ≠ some 0 := by
    simp only [guardCalls, List.forall_mem_cons, PilotPool.Call.creates, Action.creates]
    decide
  have hb := (run_baseTokensOnly (PilotPool.construct_accepted h).events_le funds guardCalls hcreated).right
  exact ⟨by decide +kernel, guard_exhaustive h funds guardCalls hcreated ⟨some 1, fun _ => guardViews⟩ 1 rfl
    (guardViews_answer hb)⟩

end ProposerGuard
