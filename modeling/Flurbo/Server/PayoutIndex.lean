import Flurbo.Library.Records
import Flurbo.Library.Run

-- The index of the payouts of a resolved pool, which finds their blocks by archive reads. Hashes and
-- addresses are numbers, and a scan reads a chain that stays as it is until its last three reads.

open Except

namespace PayoutIndex

structure Header where
  hash      : ℕ
  timestamp : ℕ
  deriving DecidableEq, Repr

-- A `Redeemed` log as the provider answers it, its data decoded.
structure RawLog where
  removed          : Bool
  address          : ℕ
  blockNumber      : ℕ
  blockHash        : ℕ
  transactionHash  : ℕ
  logIndex         : ℕ
  owner            : ℕ
  scope            : ℕ
  mask             : ℕ
  quantity         : ℕ
  collateralAmount : ℕ
  deriving DecidableEq, Repr

-- What a provider answers: headers, the state of the pool after each block, and its logs.
structure Chain where
  head               : ℕ
  header             : ℕ → Header
  resolved           : ℕ → Bool
  requiredCollateral : ℕ → ℕ
  logs               : ℕ → List RawLog

structure Manifest where
  pool              : ℕ
  verifiedBlock     : ℕ
  verifiedBlockHash : ℕ

structure Log where
  owner            : ℕ
  scope            : ℕ
  mask             : ℕ
  quantity         : ℕ
  collateralAmount : ℕ
  hash             : ℕ
  index            : ℕ
  block            : ℕ
  blockHash        : ℕ
  timestamp        : ℕ
  deriving DecidableEq, Repr

structure Record where
  through   : ℕ
  hash      : ℕ
  liability : ℕ
  logs      : List Log
  deriving DecidableEq, Repr

inductive Failure
  | unavailable | anchorChanged | invalidLog | unresolvedAnchor | liabilityIncreased
  | notReconciled | snapshotChanged | capacityReached
  deriving DecidableEq, Repr

-- The lengths of the serialized texts. The names, quotes and hashes have a fixed length.
def digits (n : ℕ) : ℕ := (Nat.toDigits 10 n).length

def Log.length (l : Log) : ℕ :=
  324 + digits l.scope + digits l.mask + digits l.quantity + digits l.collateralAmount +
    digits l.index + digits l.block + digits l.timestamp

def Record.length (r : Record) : ℕ :=
  113 + digits r.through + digits r.liability + (r.logs.map Log.length).sum + (r.logs.length - 1)

section Scan

variable (manifest : Manifest) (chain : Chain)

def toLog (n : ℕ) (l : RawLog) : Log where
  owner            := l.owner
  scope            := l.scope
  mask             := l.mask
  quantity         := l.quantity
  collateralAmount := l.collateralAmount
  hash             := l.transactionHash
  index            := l.logIndex
  block            := n
  blockHash        := (chain.header n).hash
  timestamp        := (chain.header n).timestamp

def readLog (n : ℕ) (l : RawLog) : Except Failure Log :=
  if l.removed ∨ l.address ≠ manifest.pool ∨ l.blockNumber ≠ n ∨ l.blockHash ≠ (chain.header n).hash then
    .error .invalidLog
  else
    .ok (toLog chain n l)

def events (n : ℕ) : Except Failure (List Log) := do
  let logs ← (chain.logs n).mapM (readLog manifest chain n)
  return logs.filter (0 < ·.collateralAmount)

-- The first block that satisfies a predicate which no later block fails.
def first (lo hi : ℕ) (predicate : ℕ → Bool) : ℕ :=
  if lo < hi then
    let mid := (lo + hi) / 2
    if predicate mid then first lo mid predicate else first (mid + 1) hi predicate
  else
    lo
termination_by hi - lo

structure Progress where
  cursor    : ℕ
  liability : ℕ
  logs      : List Log

-- The loop over the redemption blocks, for a number of them at most.
def advance (target endLiability : ℕ) : ℕ → Progress → Except Failure Progress
  | 0, s         => .ok s
  | budget + 1, s =>
    if s.liability > endLiability then do
      let next := first (s.cursor + 1) target fun n => chain.requiredCollateral n < s.liability
      let after := chain.requiredCollateral next
      let batch ← events manifest chain next
      if (((batch.map (·.collateralAmount)).sum : ℕ) : ℤ) ≠ s.liability - after then throw .notReconciled
      advance target endLiability budget ⟨next, after, s.logs ++ batch⟩
    else
      .ok s

-- Where a scan starts: at the saved record, or at the block of the resolution.
def start (target : ℕ) : Option Record → Except Failure Progress
  | some saved => .ok ⟨saved.through, saved.liability, saved.logs⟩
  | none       =>
    if chain.resolved manifest.verifiedBlock then
      .error .unresolvedAnchor
    else do
      let cursor := first (manifest.verifiedBlock + 1) target chain.resolved
      return ⟨cursor, chain.requiredCollateral cursor, ← events manifest chain cursor⟩

def before (l l' : Log) : Prop := l.block < l'.block ∨ l.block = l'.block ∧ l.index ≤ l'.index

instance decidableBefore : DecidableRel before :=
  fun l l' => inferInstanceAs (Decidable (l.block < l'.block ∨ l.block = l'.block ∧ l.index ≤ l'.index))

inductive Outcome
  | unresolved (through target : ℕ)
  | indexed (next : Record) (complete : Bool) (target : ℕ)
  deriving DecidableEq, Repr

-- The record that a scan makes of its progress. Its reads, of the checkpoint, the target and the anchor,
-- see the chain `last`.
def conclude (last : Chain) (target endLiability : ℕ) (s : Progress) : Except Failure Outcome :=
  let complete := s.liability = endLiability
  let through := if complete then target else s.cursor
  if last.head < target ∨ last.head < manifest.verifiedBlock then
    .error .unavailable
  else if (last.header target).hash ≠ (chain.header target).hash ∨
      (last.header manifest.verifiedBlock).hash ≠ (chain.header manifest.verifiedBlock).hash then
    .error .snapshotChanged
  else
    let unique := (Records.values (fun l : Log => (l.hash, l.index)) s.logs).insertionSort before
    let next : Record := ⟨through, (last.header through).hash, s.liability, unique⟩
    if next.length > 750000 then .error .capacityReached else .ok (.indexed next complete target)

-- A scan up to its compare-and-set.
def scan (last : Chain) (prior : Option Record) : Except Failure Outcome := do
  if chain.head < manifest.verifiedBlock then throw .unavailable
  if (chain.header manifest.verifiedBlock).hash ≠ manifest.verifiedBlockHash then throw .anchorChanged
  if chain.head < 2 then throw .unavailable
  let target := chain.head - 2
  let saved := prior.filter fun saved =>
    saved.through ≤ target ∧ (chain.header saved.through).hash = saved.hash
  if ¬ chain.resolved target then return .unresolved target target
  let s ← start manifest chain target saved
  let endLiability := chain.requiredCollateral target
  if endLiability > s.liability then throw .liabilityIncreased
  let s ← advance manifest chain target endLiability 4 s
  conclude manifest chain last target endLiability s

end Scan

-- The stored record, and the records that the scans under way have read.
structure Index where
  stored : Option Record
  priors : List (Option Record)

inductive Action
  | get
  | scan (prior : Option Record) (chain last : Chain)

-- A scan replaces the record that it has read, and no other.
def act (manifest : Manifest) (index : Index) : Action → Except Failure Index
  | .get => .ok { index with priors := index.stored :: index.priors }
  | .scan prior chain last =>
    if prior ∈ index.priors then do
      match ← scan manifest chain last prior with
      | .unresolved .. => return index
      | .indexed next _ _ =>
        return if index.stored = prior then { index with stored := some next } else index
    else
      .error .unavailable

end PayoutIndex
