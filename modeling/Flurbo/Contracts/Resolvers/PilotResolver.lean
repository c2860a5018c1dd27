import Flurbo.Contracts.Pools.PilotPool

-- The optimistic resolvers of a pilot pool. `PilotResolver` and `AccountPilotResolver` share all
-- their code but the checks of a dispute, which are a parameter here.

open Evm Except

namespace Resolvers

inductive Outcome
  | unset | no | yes | void
  deriving DecidableEq, Repr

inductive Phase
  | pending | asserted | disputed | finalized
  deriving DecidableEq, Repr

structure Config where
  collateral      : Address
  draftHash       : ℕ
  closesAt        : ℕ
  eventHashes     : List ℕ
  observationEnds : List ℕ
  reviewers       : List Address
  bond            : ℕ
  assertionPeriod : ℕ
  challengePeriod : ℕ
  votingPeriod    : ℕ
  bond_lt         : bond < 2 ^ 128

structure Case where
  phase               : Phase
  proposal            : Outcome
  counter             : Outcome
  result              : Outcome
  asserter            : Address
  disputer            : Address
  evidenceHash        : ℕ
  counterEvidenceHash : ℕ
  challengeUntil      : ℕ
  voteUntil           : ℕ
  votes               : Outcome → ℕ

def Case.initial : Case where
  phase               := .pending
  proposal            := .unset
  counter             := .unset
  result              := .unset
  asserter            := 0
  disputer            := 0
  evidenceHash        := 0
  counterEvidenceHash := 0
  challengeUntil      := 0
  voteUntil           := 0
  votes _             := 0

-- The immutables. The lists of the configuration never change either.
structure Resolver extends Config where
  self      : Address
  creator   : Address
  rulesHash : ℕ

namespace Resolver

variable (r : Resolver)

def eventCount : ℕ := r.eventHashes.length

def quorum : ℕ := r.reviewers.length / 2 + 1

end Resolver

-- What a single resolver adds to the storage is of type `ε`.
structure Storage (ε : Type) where
  voted        : ℕ → Address → Bool
  credits      : Address → ℕ
  lockedBonds  : ℕ
  totalCredits : ℕ
  cases        : List Case
  pool         : Option Address
  delivered    : Bool
  ext          : ε

-- A resolver and its pool, with the collateral token that both are in.
structure World (D : Dependencies) (ε : Type) where
  now      : ℕ
  token    : D.collateral.State
  pool     : Pools.Storage D Pools.PilotPool.Void
  resolver : Storage ε

-- The two contracts. No other contract answers the resolver as a pool does.
structure Site where
  resolver      : Resolver
  pool          : Pools.Config
  ne            : resolver.self ≠ pool.self
  resolver_ne_0 : resolver.self ≠ 0

-- A transaction to one of the two contracts, from an account that is neither of them.
structure Tx (site : Site) where
  sender      : Address
  timestamp   : ℕ
  ne_resolver : sender ≠ site.resolver.self
  ne_pool     : sender ≠ site.pool.self
  ne_zero     : sender ≠ 0

def Tx.toPool {site : Site} (tx : Tx site) : Msg site.pool.self :=
  ⟨tx.sender, tx.timestamp, tx.ne_pool, tx.ne_zero⟩

-- The arguments of a dispute that both resolvers take.
structure Challenge where
  eventIndex   : ℕ
  alternative  : Outcome
  evidenceHash : ℕ
  evidenceURI  : List UInt8

-- What a resolver checks of a dispute besides. `ρ` is the type of the further arguments.
structure Variant (D : Dependencies) (ε ρ : Type) where
  check : (site : Site) → Tx site → World D ε → Challenge → Case → ρ → Sol ε

variable {D : Dependencies} {ε ρ : Type}

section Construct

-- No reviewer is listed twice, or among those that may not review.
def checkReviewers (refused : List Address) (reviewers : List Address) : Sol (List Address) :=
  reviewers.foldlM (fun known reviewer => do
    revertIf (refused.contains reviewer ∨ known.contains reviewer) .invalidConfig
    return reviewer :: known) []

def checkEvents (c : Config) : Sol Unit :=
  (List.range c.eventHashes.length).forM fun i => do
    let hash ← nth c.eventHashes i
    let observationEnd ← nth c.observationEnds i
    revertIf (hash = 0 ∨ observationEnd ≤ c.closesAt ∨
      observationEnd + c.assertionPeriod + c.challengePeriod + c.votingPeriod ≥ 2 ^ 64) .invalidConfig
    (List.range i).forM fun j => do
      let other ← nth c.eventHashes j
      revertIf (hash = other) .invalidConfig

-- The constructor. The hash of the configuration and the addresses is an argument.
def construct (refused : List Address) (chain : Chain) (self sender : Address) (rulesHash : ℕ)
    (c : Config) : Sol Resolver := do
  revertIf (chain.chainId ≠ 10143 ∨ ¬ chain.hasCode c.collateral ∨ c.draftHash = 0 ∨
    c.closesAt ≤ chain.timestamp ∨ c.eventHashes.length < 2 ∨ c.eventHashes.length > 4 ∨
    c.eventHashes.length ≠ c.observationEnds.length ∨
    (c.reviewers.length ≠ 3 ∧ c.reviewers.length ≠ 5) ∨ c.bond = 0 ∨
    c.assertionPeriod < 3600 ∨ c.challengePeriod < 3600 ∨ c.votingPeriod < 3600 ∨
    c.assertionPeriod > 30 * 86400 ∨ c.challengePeriod > 7 * 86400 ∨ c.votingPeriod > 7 * 86400)
    .invalidConfig
  checkEvents c
  let _ ← checkReviewers refused c.reviewers
  return { c with self, creator := sender, rulesHash }

def Storage.initial (r : Resolver) (ext : ε) : Storage ε where
  voted _ _    := false
  credits _    := 0
  lockedBonds  := 0
  totalCredits := 0
  cases        := List.replicate r.eventCount Case.initial
  pool         := none
  delivered    := false
  ext          := ext

end Construct

def World.balance (w : World D ε) (account : Address) : ℕ :=
  D.collateral.balanceOf w.token account

def World.setCase (w : World D ε) (eventIndex : ℕ) (c : Case) : World D ε :=
  { w with resolver := { w.resolver with cases := w.resolver.cases.set eventIndex c } }

-- The bytes of "https://" and "ipfs://".

def https : List UInt8 := [0x68, 0x74, 0x74, 0x70, 0x73, 0x3a, 0x2f, 0x2f]

def ipfs : List UInt8 := [0x69, 0x70, 0x66, 0x73, 0x3a, 0x2f, 0x2f]

def checkEvidence (outcome : Outcome) (hash : ℕ) (uri : List UInt8) : Sol Unit := do
  revertIf (outcome = .unset) .invalidOutcome
  revertIf (hash = 0 ∨ uri.length < 8 ∨ uri.length > 512) .invalidEvidence
  revertIf (uri.take 8 ≠ https ∧ uri.take 7 ≠ ipfs) .invalidEvidence

section Functions

variable (site : Site) (tx : Tx site) (w : World D ε)

def bindPool (target : Address) : Sol (World D ε) := do
  let r := site.resolver
  let candidate := site.pool
  revertIf (tx.sender ≠ r.creator) .unauthorized
  revertIf (w.resolver.pool ≠ none ∨ target ≠ candidate.self) .invalidConfig
  revertIf (candidate.resolver ≠ r.self ∨ candidate.settlementRulesHash ≠ r.rulesHash ∨
    candidate.collateral ≠ r.collateral ∨ candidate.eventCount ≠ r.eventCount ∨
    candidate.closesAt ≠ r.closesAt) .invalidConfig
  return { w with resolver := { w.resolver with pool := some target } }

def requireActive : Sol Unit :=
  revertIf (w.resolver.pool = none ∨ ¬ w.pool.funded ∨ w.resolver.delivered) .wrongPhase

def assertionDeadline (r : Resolver) (eventIndex : ℕ) : Sol ℕ := do
  let observationEnd ← nth r.observationEnds eventIndex
  checkedAdd 64 observationEnd r.assertionPeriod

def takeBond : Sol (World D ε) := do
  let r := site.resolver
  let token ← D.collateral.safeTransferFrom w.token r.self tx.sender r.self r.bond
  let expected ← checkedAdd 256 (w.balance r.self) r.bond
  revertIf (D.collateral.balanceOf token r.self ≠ expected) .unsupportedTransfer
  let before ← checkedAdd 256 (D.collateral.balanceOf token tx.sender) r.bond
  revertIf (before ≠ w.balance tx.sender) .unsupportedTransfer
  let lockedBonds ← checkedAdd 256 w.resolver.lockedBonds r.bond
  return { w with token, resolver := { w.resolver with lockedBonds } }

def assertOutcome (eventIndex : ℕ) (outcome : Outcome) (evidenceHash : ℕ) (evidenceURI : List UInt8) :
    Sol (World D ε) := do
  let r := site.resolver
  requireActive w
  checkEvidence outcome evidenceHash evidenceURI
  revertIf (r.reviewers.contains tx.sender) .unauthorized
  let c ← nth w.resolver.cases eventIndex
  let observationEnd ← nth r.observationEnds eventIndex
  let deadline ← assertionDeadline r eventIndex
  revertIf (c.phase ≠ .pending ∨ tx.timestamp < observationEnd ∨ tx.timestamp ≥ deadline) .wrongPhase
  let w ← takeBond site tx w
  let challengeUntil ← checkedAdd 256 tx.timestamp r.challengePeriod
  return w.setCase eventIndex { c with
    phase := .asserted, proposal := outcome, asserter := tx.sender, evidenceHash
    challengeUntil := truncate 64 challengeUntil }

def dispute (V : Variant D ε ρ) (d : Challenge) (permit : ρ) : Sol (World D ε) := do
  let r := site.resolver
  requireActive w
  checkEvidence d.alternative d.evidenceHash d.evidenceURI
  let c ← nth w.resolver.cases d.eventIndex
  revertIf (r.reviewers.contains tx.sender ∨ tx.sender = c.asserter) .unauthorized
  revertIf (c.phase ≠ .asserted ∨ tx.timestamp ≥ c.challengeUntil ∨ d.alternative = c.proposal)
    .wrongPhase
  let ext ← V.check site tx w d c permit
  let w ← takeBond site tx { w with resolver := { w.resolver with ext } }
  let voteUntil ← checkedAdd 256 tx.timestamp r.votingPeriod
  return w.setCase d.eventIndex { c with
    phase := .disputed, counter := d.alternative, disputer := tx.sender
    counterEvidenceHash := d.evidenceHash, voteUntil := truncate 64 voteUntil }

def credit (credits : Address → ℕ) (account : Address) (amount : ℕ) : Sol (Address → ℕ) := do
  return Function.update credits account (← checkedAdd 256 (credits account) amount)

-- The winner takes all bonds. Without a winner everybody takes back their own.
def award (r : Resolver) (c : Case) (outcome : Outcome) (timedOut : Bool) (amount : ℕ)
    (credits : Address → ℕ) : Sol (Address → ℕ) :=
  if c.phase = .asserted ∨ (¬ timedOut ∧ outcome = c.proposal) then
    credit credits c.asserter amount
  else if ¬ timedOut ∧ outcome = c.counter then
    credit credits c.disputer amount
  else do
    let credits ← credit credits c.asserter r.bond
    credit credits c.disputer r.bond

-- The bonds that a case holds.
def stake (r : Resolver) (phase : Phase) : ℕ :=
  match phase with
  | .disputed => r.bond * 2
  | .asserted => r.bond
  | _         => 0

-- The credits after a case, with their total.
def settle (r : Resolver) (c : Case) (outcome : Outcome) (timedOut : Bool) (s : Storage ε) :
    Sol (ℕ × (Address → ℕ)) :=
  let amount := stake r c.phase
  if amount ≠ 0 then do
    let totalCredits ← checkedAdd 256 s.totalCredits amount
    let credits ← award r c outcome timedOut amount s.credits
    return (totalCredits, credits)
  else
    return (s.totalCredits, s.credits)

-- `c` is the case as it is stored at this point.
def finish (r : Resolver) (eventIndex : ℕ) (c : Case) (outcome : Outcome) (timedOut : Bool)
    (s : Storage ε) : Sol (Storage ε) := do
  let lockedBonds ← checkedSub s.lockedBonds (stake r c.phase)
  let credited ← settle r c outcome timedOut s
  return { s with
    lockedBonds, totalCredits := credited.1, credits := credited.2
    cases := s.cases.set eventIndex { c with phase := .finalized, result := outcome } }

-- The vote that makes up the quorum ends the case.
def closeVote (r : Resolver) (eventIndex : ℕ) (c : Case) (outcome : Outcome) (count : ℕ)
    (s : Storage ε) : Sol (Storage ε) :=
  if count = r.quorum then finish r eventIndex c outcome false s else return s

def vote (eventIndex : ℕ) (outcome : Outcome) (rationaleHash : ℕ) (rationaleURI : List UInt8) :
    Sol (World D ε) := do
  let r := site.resolver
  checkEvidence outcome rationaleHash rationaleURI
  revertIf (¬ r.reviewers.contains tx.sender ∨ w.resolver.voted eventIndex tx.sender) .unauthorized
  let c ← nth w.resolver.cases eventIndex
  revertIf (c.phase ≠ .disputed ∨ tx.timestamp ≥ c.voteUntil) .wrongPhase
  let count ← checkedAdd 8 (c.votes outcome) 1
  let c := { c with votes := Function.update c.votes outcome count }
  let voted := Function.update w.resolver.voted eventIndex
    (Function.update (w.resolver.voted eventIndex) tx.sender true)
  let s : Storage ε := { w.resolver with voted, cases := w.resolver.cases.set eventIndex c }
  let s ← closeVote r eventIndex c outcome count s
  return { w with resolver := s }

-- The outcome that a case ends with at this time, and whether nobody gave one.
def conclusion (c : Case) (deadline timestamp : ℕ) : Sol (Outcome × Bool) :=
  if c.phase = .pending ∧ timestamp ≥ deadline then return (.void, true)
  else if c.phase = .asserted ∧ timestamp ≥ c.challengeUntil then return (c.proposal, false)
  else if c.phase = .disputed ∧ timestamp ≥ c.voteUntil then return (.void, true)
  else .error .wrongPhase

def finalize (eventIndex : ℕ) : Sol (World D ε) := do
  let r := site.resolver
  requireActive w
  let c ← nth w.resolver.cases eventIndex
  let deadline ← assertionDeadline r eventIndex
  let (outcome, timedOut) ← conclusion c deadline tx.timestamp
  let s ← finish r eventIndex c outcome timedOut w.resolver
  return { w with resolver := s }

-- The masks of the outcomes that are yes, and of those that are void.

def addResult (cases : List Case) (masks : ℕ × ℕ) (i : ℕ) : Sol (ℕ × ℕ) := do
  let c ← nth cases i
  revertIf (c.phase ≠ .finalized) .wrongPhase
  return (if c.result = .yes then masks.1 ||| 1 <<< i else masks.1,
    if c.result = .void then masks.2 ||| 1 <<< i else masks.2)

def masks (r : Resolver) (cases : List Case) : Sol (ℕ × ℕ) :=
  (List.range r.eventCount).foldlM (addResult cases) (0, 0)

def deliver : Sol (World D ε) := do
  requireActive w
  let (yesMask, invalidMask) ← masks site.resolver w.resolver.cases
  let resolved ← Pools.PilotPool.resolve site.pool
    ⟨site.resolver.self, tx.timestamp, site.ne, site.resolver_ne_0⟩ yesMask invalidMask ⟨w.token, w.pool⟩
  return { w with pool := resolved.pool, resolver := { w.resolver with delivered := true } }

def withdrawBond : Sol (World D ε) := do
  let r := site.resolver
  let amount := w.resolver.credits tx.sender
  revertIf (amount = 0) .wrongPhase
  let totalCredits ← checkedSub w.resolver.totalCredits amount
  let token ← D.collateral.safeTransfer w.token r.self tx.sender amount
  let before ← checkedAdd 256 (D.collateral.balanceOf token r.self) amount
  revertIf (before ≠ w.balance r.self) .unsupportedTransfer
  let expected ← checkedAdd 256 (w.balance tx.sender) amount
  revertIf (D.collateral.balanceOf token tx.sender ≠ expected) .unsupportedTransfer
  return { w with
    token
    resolver := { w.resolver with
      credits := Function.update w.resolver.credits tx.sender 0, totalCredits } }

end Functions

inductive Call (ρ : Type)
  | bindPool (target : Address)
  | assertOutcome (eventIndex : ℕ) (outcome : Outcome) (evidenceHash : ℕ) (evidenceURI : List UInt8)
  | dispute (d : Challenge) (permit : ρ)
  | vote (eventIndex : ℕ) (outcome : Outcome) (rationaleHash : ℕ) (rationaleURI : List UInt8)
  | finalize (eventIndex : ℕ)
  | deliver
  | withdrawBond

-- Besides calls to the two contracts, collateral moves between other accounts, or into one of the
-- contracts as a donation.
inductive Action (D : Dependencies) (site : Site) (ρ : Type)
  | call (tx : Tx site) (call : Call ρ)
  | pool (tx : Tx site) (call : Pools.PilotPool.Call D)
  | collateral (token : D.collateral.State)

def perform (V : Variant D ε ρ) (site : Site) (tx : Tx site) (w : World D ε) :
    Call ρ → Sol (World D ε)
  | .bindPool target                                            => bindPool site tx w target
  | .assertOutcome eventIndex outcome evidenceHash evidenceURI  =>
    assertOutcome site tx w eventIndex outcome evidenceHash evidenceURI
  | .dispute d permit                                           => dispute site tx w V d permit
  | .vote eventIndex outcome rationaleHash rationaleURI         =>
    vote site tx w eventIndex outcome rationaleHash rationaleURI
  | .finalize eventIndex                                        => finalize site tx w eventIndex
  | .deliver                                                    => deliver site tx w
  | .withdrawBond                                               => withdrawBond site tx w

-- Blocks follow each other in time.
def advance (w : World D ε) (timestamp : ℕ) : Sol (World D ε) := do
  revertIf (timestamp < w.now) .panic
  return { w with now := timestamp }

-- The balances that others cannot take from.
def moveCollateral (site : Site) (token : D.collateral.State) (w : World D ε) : Sol (World D ε) := do
  revertIf (D.collateral.balanceOf token site.resolver.self < w.balance site.resolver.self ∨
    D.collateral.balanceOf token site.pool.self < w.balance site.pool.self) .token
  return { w with token }

-- A donation to the pool is an action of its own.
def isDonation : Pools.PilotPool.Call D → Bool
  | .action (.collateral _) => true
  | _                       => false

def step (V : Variant D ε ρ) (site : Site) (w : World D ε) : Action D site ρ → Sol (World D ε)
  | .call tx call     => do
    let w ← advance w tx.timestamp
    perform V site tx w call
  | .pool tx call     => do
    let w ← advance w tx.timestamp
    revertIf (isDonation call) .token
    let w' ← Pools.PilotPool.step site.pool ⟨w.token, w.pool⟩ (tx.toPool, call)
    return { w with token := w'.token, pool := w'.pool }
  | .collateral token => moveCollateral site token w

def World.initial (site : Site) (token : D.collateral.State) (ext : ε) : World D ε where
  now      := 0
  token    := token
  pool     := Pools.PilotPool.initial
  resolver := Storage.initial site.resolver ext

end Resolvers

namespace PilotResolver

open Resolvers

def construct (chain : Chain) (self sender : Address) (rulesHash : ℕ) (c : Config) : Sol Resolver :=
  Resolvers.construct [0] chain self sender rulesHash c

-- Everybody else may dispute.
def variant (D : Dependencies) : Variant D Unit Unit where
  check _ _ _ _ _ _ := return ()

end PilotResolver
