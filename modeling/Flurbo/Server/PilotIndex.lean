import Flurbo.Library.Program
import Flurbo.Library.Records

-- The index of the events of a pool and its resolver, which scans a window of blocks after the other.
-- Hashes and addresses are numbers, and the chain moves on, or reorganizes, between any two reads.

namespace PilotIndex

-- A log as the provider answers it. Malformed hashes are `none`, and so are events that the ABI does not
-- decode. Arguments are their serialized text.
structure RawLog where
  removed         : Bool
  address         : ℕ
  blockNumber     : ℕ
  blockHash       : ℕ
  transactionHash : Option ℕ
  logIndex        : ℕ
  decoded         : Option (String × String)
  deriving DecidableEq, Repr

structure Chain where
  head : ℕ
  hash : ℕ → ℕ
  logs : ℕ → List RawLog

-- The hash in the header of a block, if there is such a block.
def Chain.header (chain : Chain) (n : ℕ) : Option ℕ := if n ≤ chain.head then some (chain.hash n) else none

def Chain.logsIn (chain : Chain) (lo hi : ℕ) : List RawLog :=
  (List.range' lo (min hi chain.head + 1 - lo)).flatMap chain.logs

structure Manifest where
  pool              : ℕ
  resolver          : ℕ
  verifiedBlock     : ℕ
  verifiedBlockHash : ℕ

structure Log where
  address   : ℕ
  block     : ℕ
  blockHash : ℕ
  hash      : ℕ
  index     : ℕ
  name      : String
  args      : String
  deriving DecidableEq, Repr

structure Record where
  through : ℕ
  hash    : ℕ
  target  : Option ℤ
  logs    : List Log
  deriving DecidableEq, Repr

inductive Failure
  | unavailable | anchorChanged | rangeLimit | windowExceeded | invalidLog | outsideRange
  | reorganization | endpointChanged | boundaryChanged | checkpointChanged | capacityReached | advanced
  deriving DecidableEq, Repr

-- The lengths of the serialized texts. The names, quotes and hashes have a fixed length.
def digits (n : ℕ) : ℕ := (Nat.toDigits 10 n).length

def Log.length (l : Log) : ℕ :=
  249 + digits l.block + digits l.index + l.name.length + l.args.length

def Record.length (r : Record) : ℕ :=
  108 + digits r.through + r.target.elim 0 (fun t => digits t.toNat) + (r.logs.map Log.length).sum +
    (r.logs.length - 1)

-- What a scan asks of the store, the provider, the clock and the variable of its process. The first read
-- of the boundary is one of a header like any other.
inductive Command
  | get
  | header (n : ℕ)
  | boundary (n : ℕ)
  | latest
  | logs (lo hi : ℕ)
  | now
  | windowSize (process : ℕ)
  | setWindowSize (process size : ℕ)
  | save (prior : Option Record) (next : Record)

-- A range of logs may be rejected as too large.
@[reducible]
def Reply : Command → Type
  | .get              => Option Record
  | .header _         => Option ℕ
  | .boundary _       => Option ℕ
  | .latest           => ℕ
  | .logs ..          => Option (List RawLog)
  | .now              => ℤ
  | .windowSize _     => ℕ
  | .setWindowSize .. => Unit
  | .save ..          => Bool

abbrev Action (α : Type) := Program Reply Failure α

def send (c : Command) : Action (Reply c) := Program.call c

section Scan

variable (manifest : Manifest) (process : ℕ)

def readLog (lo hi : ℕ) (l : RawLog) : Except Failure (Option Log) :=
  match l.transactionHash with
  | none      => .error .invalidLog
  | some hash =>
    if l.removed ∨ l.address ≠ manifest.pool ∧ l.address ≠ manifest.resolver then
      .error .invalidLog
    else if l.blockNumber < lo ∨ l.blockNumber > hi then
      .error .outsideRange
    else
      -- Unknown events cannot establish an outcome or a holding.
      .ok <| l.decoded.map fun decoded =>
        ⟨l.address, l.blockNumber, l.blockHash, hash, l.logIndex, decoded.fst, decoded.snd⟩

def readLogs (lo hi : ℕ) (batch : List RawLog) : Except Failure (List Log) := do
  return (← batch.mapM (readLog manifest lo hi)).reduceOption

structure Progress where
  last      : ℕ
  endBefore : Option ℕ
  logs      : List Log

-- Work per request is bounded, once there is any progress.
def hasTime (through : ℕ) (started : ℤ) (p : Progress) : Action Bool :=
  if p.last = through then
    pure true
  else do
    let time ← send .now
    return time - started < 8000

-- The loop over the windows. Smaller provider limits never skip blocks.
def windows (through targetEnd : ℕ) (started : ℤ) : (attempts : ℕ) → Progress → Action Progress
  | 0, p            => pure p
  | attempts + 1, p =>
    if p.last < targetEnd then do
      if ← hasTime through started p then
        let size ← send (.windowSize process)
        let lo := p.last + 1
        let hi := min targetEnd (lo + size - 1)
        let before ← send (.header hi)
        match ← send (.logs lo hi) with
        | none       =>
          if size = 1 then
            .fail .rangeLimit
          else do
            send (.setWindowSize process (if size = 100 then 10 else 1))
            windows through targetEnd started attempts p
        | some batch =>
          if batch.length > 2000 then
            .fail .windowExceeded
          else
            match readLogs manifest lo hi batch with
            | .error e => .fail e
            | .ok logs => windows through targetEnd started attempts ⟨hi, before, p.logs ++ logs⟩
      else
        pure p
    else
      pure p

-- Every event block is checked before anything is persisted.
def checkBlocks (logs : List Log) : List ℕ → Action Unit
  | []          => pure ()
  | block :: bs => do
    let canonical ← send (.header block)
    if logs.any fun l => l.block = block ∧ some l.blockHash ≠ canonical then
      .fail .reorganization
    else
      checkBlocks logs bs

def before (l l' : Log) : Prop := l.block < l'.block ∨ l.block = l'.block ∧ l.index ≤ l'.index

instance decidableBefore : DecidableRel before :=
  fun l l' => inferInstanceAs (Decidable (l.block < l'.block ∨ l.block = l'.block ∧ l.index ≤ l'.index))

structure Outcome where
  record   : Record
  target   : ℤ
  complete : Bool
  deriving DecidableEq, Repr

def merge (saved logs : List Log) : List Log :=
  Records.values (fun l : Log => (l.blockHash, l.index)) ((saved ++ logs).insertionSort before)

def store (prior : Option Record) (target : ℤ) (next : Record) : Action Outcome :=
  if next.length > 750000 then
    .fail .capacityReached
  else do
    if ← send (.save prior next) then
      return ⟨next, target, decide ((next.through : ℤ) ≥ target)⟩
    else
      .fail .advanced

-- The last reads, which the scan has to find as it found them before.
def conclude (prior : Option Record) (saved : Record) (target : ℤ) (targetEnd : ℕ)
    (boundaryBefore : Option ℕ) (p : Progress) : Action Outcome := do
  let endBlock ← send (.header p.last)
  if endBlock ≠ p.endBefore then
    .fail .endpointChanged
  else do
    let boundaryAfter ← send (.header targetEnd)
    if boundaryAfter ≠ boundaryBefore then
      .fail .boundaryChanged
    else do
      let oldBlock ← send (.header saved.through)
      if oldBlock ≠ some saved.hash then
        .fail .checkpointChanged
      else
        match endBlock with
        | none      => .fail .unavailable
        | some hash => store prior target ⟨p.last, hash, some target, merge saved.logs p.logs⟩

def index (prior : Option Record) (saved : Record) (target : ℤ) (targetEnd : ℕ) : Action Outcome := do
  let boundaryBefore ← send (.boundary targetEnd)
  let started ← send .now
  let p ← windows manifest process saved.through targetEnd started 12 ⟨saved.through, none, []⟩
  checkBlocks p.logs (p.logs.map (·.block)).dedup
  conclude prior saved target targetEnd boundaryBefore p

def initial : Record := ⟨manifest.verifiedBlock, manifest.verifiedBlockHash, none, []⟩

-- The persisted catch-up snapshot is finished before newly mined blocks are followed.
def targetOf (saved : Record) (tip : ℤ) : ℤ :=
  match saved.target with
  | some target => if target > saved.through then min target tip else tip
  | none        => tip

def scan : Action Outcome := do
  let prior ← send .get
  let saved := prior.getD (initial manifest)
  let anchor ← send (.header manifest.verifiedBlock)
  if anchor ≠ some manifest.verifiedBlockHash then
    .fail .anchorChanged
  else do
    let checkpoint ← send (.header saved.through)
    let saved := if checkpoint = some saved.hash then saved else initial manifest
    let head ← send .latest
    let target := targetOf saved (head - 2)
    let targetEnd := min target (saved.through + 1000)
    if targetEnd ≤ saved.through then
      return ⟨saved, target, decide ((saved.through : ℤ) ≥ target)⟩
    else
      index manifest process prior saved target targetEnd.toNat

end Scan

-- The stored record, the window sizes of the processes, and the time that the chain is seen at.
structure Site where
  stored     : Option Record
  windowSize : ℕ → ℕ
  time       : ℕ

section Service

variable (manifest : Manifest) (chainAt : ℕ → Chain)

def Site.perform (s : Site) : (c : Command) → Reply c → Site × Reply c
  | .get, _                        => (s, s.stored)
  | .header n, _                   => (s, (chainAt s.time).header n)
  | .boundary n, _                 => (s, (chainAt s.time).header n)
  | .latest, _                     => (s, (chainAt s.time).head)
  | .logs _ _, none                => (s, none)
  | .logs lo hi, some _            => (s, some ((chainAt s.time).logsIn lo hi))
  | .now, time                     => (s, time)
  | .windowSize process, _         => (s, s.windowSize process)
  | .setWindowSize process size, _ => ({ s with windowSize := Function.update s.windowSize process size }, ())
  | .save prior next, _            =>
    if s.stored = prior then ({ s with stored := some next }, true) else (s, false)

-- Any number of processes scan, and the chain moves on by itself.
def service : Program.Service Site Reply Failure ℕ Unit where
  perform   := Site.perform chainAt
  broken    := .unavailable
  code _ p  := scan manifest p >>= fun _ => pure ()
  drift s _ := { s with time := s.time + 1 }

-- No record yet, and windows of a hundred blocks.
def Site.empty : Site := ⟨none, fun _ => 100, 0⟩

end Service

end PilotIndex
