import Flurbo.Library.Program
import Flurbo.Server.CaptureHistory

-- The evidence that a rule's outcome is proposed with, by any number of workers at once. It is
-- archived, frozen under one key, and verified again whenever it is used.

namespace Settlement.Proposing

-- An attachment holds the packet, or names where it is stored.
inductive Attachment (P Q : Type)
  | inline (packet : Packet) (packetHash : P)
  | reference (ruleHash : Q) (packetHash packetURI : P) (outcome : ℕ) (selectedRecordId : String)
      (measuredValue : Value)
  deriving DecidableEq

structure Body (P Q : Type) where
  draftHash  : ℕ
  uploader   : ℕ
  eventId    : String
  outcome    : ℕ
  statement  : String
  sourceURL  : Option Url
  attachment : Attachment P Q
  deriving DecidableEq

structure PacketIdentity (Q : Type) where
  ruleHash         : Q
  outcome          : ℕ
  selectedRecordId : String
  measuredValue    : Value
  records          : List Record
  deriving DecidableEq

structure Frozen (E P Q : Type) where
  ruleHash   : Q
  hash       : E
  uri        : String
  packetHash : P
  identity   : PacketIdentity Q
  deriving DecidableEq

structure Evidence (E : Type) where
  hash    : E
  uri     : String
  outcome : ℕ
  deriving DecidableEq

-- An assertion that was sent. Old records of one do not name its URI.
structure Pending (E : Type) where
  evidenceHash : E
  evidenceURI  : Option String
  outcome      : ℕ
  deriving DecidableEq

-- The hash functions, and where a body is public.
structure Hashes (E P Q : Type) where
  evidence : Body P Q → E
  packet   : Packet → P
  rule     : Rule → Q
  uri      : E → String

structure Setting (E P Q : Type) where
  readers   : Readers
  hashes    : Hashes E P Q
  rule      : Rule
  owner     : ℕ
  draftHash : ℕ
  -- Whether a packet fits into an attachment, and whether the archive's bounds admit a body.
  fits      : Packet → Bool
  admits    : Body P Q → Bool

-- What a request returned, with the evaluation that it compared.
structure Answer (E : Type) where
  pending   : Option (Pending E)
  evidence  : Evidence E
  evaluated : Packet

-- `past` lists all states of the history, the present one included, and `answers` what was returned.
structure Store (E P Q : Type) where
  clock    : ℕ
  history  : History
  frozen   : Option (Frozen E P Q)
  evidence : E → Option (Body P Q)
  packets  : P → Option Packet
  past     : List History
  answers  : List (Answer E)

def Store.initial {E P Q : Type} (clock : ℕ) : Store E P Q :=
  ⟨clock, .empty, none, fun _ => none, fun _ => none, [.empty], []⟩

inductive Command (E P Q : Type)
  | now
  | latestAttempt
  | list
  | getFrozen
  | setFrozen (f : Frozen E P Q)
  | getEvidence (hash : E)
  | setEvidence (body : Body P Q)
  | quota
  | publicEvidence (uri : String)
  | getPacket (hash : P)
  | setPacket (packet : Packet)
  | publicPacket (hash : P)
  | answer (a : Answer E)

@[reducible]
def Command.Reply {E P Q : Type} : Command E P Q → Type
  | .now              => ℕ
  | .latestAttempt    => Option Attempt
  | .list             => List Capture
  | .getFrozen        => Option (Frozen E P Q)
  | .getEvidence _    => Option (Body P Q)
  | .quota            => Bool
  | .publicEvidence _ => Option (Body P Q)
  | .getPacket _      => Option Packet
  | .publicPacket _   => Option Packet
  | .setFrozen _ | .setEvidence _ | .setPacket _ | .answer _ => Unit

inductive Failure
  | unavailable | packetBindingFailed | packetReplayFailed | packetStorageFailed
  | evidenceRefused | uploadLimit | persistenceFailed | proposalPersistenceConflict
  | frozenProposalChanged | publicEvidenceBindingFailed | publicEvidenceUnavailable
  | pendingSourceUnavailable | pendingSourceNoLongerReady | pendingEvidenceUnavailable
  | pendingSourceChanged | pendingEvidenceBindingFailed | noncanonicalValue
  deriving DecidableEq, Repr

section Perform

variable {E P Q : Type} [DecidableEq E] [DecidableEq P] (H : Hashes E P Q) (s : Store E P Q)

def Store.become (h : History) : Store E P Q :=
  { s with history := h, past := h :: s.past }

-- Keys are set only if they are absent. What is public is up to the environment.
def perform : (c : Command E P Q) → c.Reply → Store E P Q × c.Reply
  | .now, _                 => (s, s.clock)
  | .latestAttempt, _       => (s, s.history.attempt)
  | .list, _                => (s, s.history.list)
  | .getFrozen, _           => (s, s.frozen)
  | .setFrozen f, _         => ({ s with frozen := s.frozen.or (some f) }, ())
  | .getEvidence hash, _    => (s, s.evidence hash)
  | .setEvidence body, _    =>
    let hash := H.evidence body
    ({ s with evidence := Function.update s.evidence hash ((s.evidence hash).or (some body)) }, ())
  | .quota, reply            => (s, reply)
  | .publicEvidence _, reply => (s, reply)
  | .getPacket hash, _       => (s, s.packets hash)
  | .setPacket packet, _     =>
    let hash := H.packet packet
    ({ s with packets := Function.update s.packets hash ((s.packets hash).or (some packet)) }, ())
  | .publicPacket _, reply   => (s, reply)
  | .answer a, _             => ({ s with answers := a :: s.answers }, ())

-- Time passes, captures and attempts are added, and others upload evidence and packets.
inductive Drift (E P Q : Type)
  | tick (d : ℕ)
  | capture (c : Capture)
  | attempt (a : Attempt)
  | upload (body : Body P Q)
  | store (packet : Packet)

def drift : Drift E P Q → Store E P Q
  | .tick d       => { s with clock := s.clock + d }
  | .capture c    => (s.history.put c).elim s s.become
  | .attempt a    => s.become (s.history.recordAttempt a)
  | .upload body  => (perform H s (.setEvidence body) ()).1
  | .store packet => (perform H s (.setPacket packet) ()).1

end Perform

section Programs

variable {E P Q : Type} [DecidableEq E] [DecidableEq P] [DecidableEq Q] (S : Setting E P Q)

abbrev Request (E P Q : Type) := Program (@Command.Reply E P Q) Failure

def send (c : Command E P Q) : Request E P Q c.Reply := Program.call c

def require (c : Prop) [Decidable c] (e : Failure) : Request E P Q Unit :=
  if c then pure () else .fail e

def orFail {α : Type} (a : Option α) (e : Failure) : Request E P Q α :=
  match a with
  | some a => pure a
  | none   => .fail e

def identityOf (packet : Packet) : PacketIdentity Q where
  ruleHash         := S.hashes.rule packet.rule
  outcome          := packet.outcome
  selectedRecordId := packet.selectedRecordId
  measuredValue    := packet.measuredValue
  records          := packet.records.map (·.record)

-- A packet is what evaluating its own captures at its own time gives.
def verifySettlementPacket (packet : Packet) (packetHash : P) (expectedRuleHash : Q) :
    Except Failure Unit :=
  if S.hashes.rule packet.rule ≠ expectedRuleHash ∨ S.hashes.packet packet ≠ packetHash then
    .error .packetBindingFailed
  else
    match evaluateSettlement S.readers packet.rule packet.captures packet.evaluatedAt false with
    | .ready repeated =>
      if S.hashes.packet repeated = packetHash then .ok () else .error .packetReplayFailed
    | _               => .error .packetReplayFailed

def verify (packet : Packet) (packetHash : P) (expectedRuleHash : Q) : Request E P Q Unit :=
  match verifySettlementPacket S packet packetHash expectedRuleHash with
  | .ok _    => pure ()
  | .error e => .fail e

-- `packetStore.getByHash`.
def decodePacket (hash : P) (found : Option Packet) : Request E P Q Packet := do
  let packet ← orFail found .unavailable
  verify S packet hash (S.hashes.rule packet.rule)
  return packet

def packetPut (packet : Packet) (hash : P) : Request E P Q Unit := do
  let _ ← decodePacket S hash (some packet)
  send (.setPacket packet)
  let _ ← decodePacket S hash (← send (.getPacket hash))

def packetVerifyPublic (hash : P) : Request E P Q Packet := do
  let packet ← decodePacket S hash (← send (.publicPacket hash))
  let durable ← decodePacket S hash (← send (.getPacket hash))
  require (packet = durable) .unavailable
  return packet

-- `archive.put`. Identical evidence is not uploaded again.
def archivePut (body : Body P Q) : Request E P Q E := do
  require (S.admits body) .evidenceRefused
  let hash := S.hashes.evidence body
  if (← send (.getEvidence hash)) = some body then
    return hash
  else do
    require (← send .quota) .uploadLimit
    require (← send .quota) .uploadLimit
    send (.setEvidence body)
    require ((← send (.getEvidence hash)) = some body) .persistenceFailed
    return hash

def archiveGet (hash : E) : Request E P Q (Body P Q) := do
  let body ← orFail (← send (.getEvidence hash)) .unavailable
  require (S.hashes.evidence body = hash) .unavailable
  return body

def valueText : Value → String
  | .text s    => s
  | .seconds n => toString n
  | .other c   => c.getD ""

def statement (packet : Packet) : String :=
  S.rule.question ++ " Deterministic rule result: " ++ (if packet.outcome = 2 then "YES" else "NO") ++
    ". Measured value: " ++ valueText packet.measuredValue ++ " " ++ S.rule.observation.unit ++ "."

def attach (packet : Packet) : Request E P Q (Attachment P Q) := do
  let hash := S.hashes.packet packet
  let ruleHash := S.hashes.rule S.rule
  if S.fits packet then
    return .inline packet hash
  else do
    packetPut S packet hash
    let retained ← decodePacket S hash (← send (.getPacket hash))
    verify S retained hash ruleHash
    return .reference ruleHash hash hash packet.outcome packet.selectedRecordId packet.measuredValue

def bodyOf (packet : Packet) (attachment : Attachment P Q) : Body P Q where
  draftHash  := S.draftHash
  uploader   := S.owner
  eventId    := S.rule.eventId
  outcome    := packet.outcome
  statement  := statement S packet
  sourceURL  := packet.records.getLast?.map (·.provenance.finalUrl)
  attachment := attachment

-- The packet that was archived, and the hash of its evidence.
def archiveSettlementProposal (captures : List Capture) (now : ℕ) : Request E P Q (Option (Packet × E)) :=
  match evaluateSettlement S.readers S.rule captures now false with
  | .ready packet => do
    verify S packet (S.hashes.packet packet) (S.hashes.rule S.rule)
    let attachment ← attach S packet
    let hash ← archivePut S (bodyOf S packet attachment)
    return some (packet, hash)
  | .thrown       => .fail .noncanonicalValue
  | _             => return none

-- Public bytes count only if they are those of the archive.
def verifyPublicSettlementEvidence (saved : Frozen E P Q) : Request E P Q (Body P Q) := do
  require (saved.uri = S.hashes.uri saved.hash) .publicEvidenceBindingFailed
  let expected ← archiveGet S saved.hash
  let body ← orFail (← send (.publicEvidence saved.uri)) .publicEvidenceUnavailable
  require (body = expected) .publicEvidenceBindingFailed
  return body

def attachedPacket : Attachment P Q → Request E P Q (Packet × P)
  | .inline packet hash               => return (packet, hash)
  | .reference _ hash packetURI _ _ _ => return (← packetVerifyPublic S packetURI, hash)

def verifyFrozen (saved : Frozen E P Q) : Request E P Q (Evidence E) := do
  let ruleHash := S.hashes.rule S.rule
  require (saved.ruleHash = ruleHash) .frozenProposalChanged
  let body ← verifyPublicSettlementEvidence S saved
  require (body.draftHash = S.draftHash ∧ body.eventId = S.rule.eventId ∧
    (body.outcome = 1 ∨ body.outcome = 2) ∧ body.uploader = S.owner) .publicEvidenceBindingFailed
  let (packet, packetHash) ← attachedPacket S body.attachment
  verify S packet saved.packetHash ruleHash
  require (packetHash = saved.packetHash ∧ identityOf S packet = saved.identity ∧
    packet.outcome = body.outcome) .publicEvidenceBindingFailed
  return ⟨saved.hash, saved.uri, body.outcome⟩

-- A successful attempt of the last 15 minutes.
def isFresh (attempt : Option Attempt) (at_ : ℕ) : Bool :=
  attempt.any fun a => a.ok ∧ a.at_ ≤ at_ ∧ at_ - a.at_ ≤ 900

def freeze (captures : List Capture) (at_ : ℕ) : Request E P Q (Option (Frozen E P Q)) := do
  match ← archiveSettlementProposal S captures at_ with
  | none                => return none
  | some (packet, hash) => do
    let frozen : Frozen E P Q := {
      ruleHash   := S.hashes.rule S.rule
      hash       := hash
      uri        := S.hashes.uri hash
      packetHash := S.hashes.packet packet
      identity   := identityOf S packet }
    send (.setFrozen frozen)
    require ((← send .getFrozen) = some frozen) .proposalPersistenceConflict
    return some frozen

def savedProposal (captures : List Capture) (at_ : ℕ) : Request E P Q (Option (Frozen E P Q)) := do
  match ← send .getFrozen with
  | some frozen => return some frozen
  | none        => freeze S captures at_

def proposal : Request E P Q (Option (Answer E)) := do
  let at_ ← send .now
  let attempt ← send .latestAttempt
  if !isFresh attempt at_ then
    return none
  else do
    let captures ← send .list
    match evaluateSettlement S.readers S.rule captures at_ false with
    | .ready packet => do
      match ← savedProposal S captures at_ with
      | none       => return none
      | some saved => do
        require (saved.ruleHash = S.hashes.rule S.rule ∧ saved.identity = identityOf S packet)
          .frozenProposalChanged
        return some ⟨none, ← verifyFrozen S saved, packet⟩
    | .thrown       => .fail .noncanonicalValue
    | _             => return none

def verifyPending (pending : Pending E) : Request E P Q (Answer E) := do
  let at_ ← send .now
  require (isFresh (← send .latestAttempt) at_) .pendingSourceUnavailable
  match evaluateSettlement S.readers S.rule (← send .list) at_ false with
  | .ready packet => do
    let saved ← orFail (← send .getFrozen) .pendingEvidenceUnavailable
    require (saved.identity = identityOf S packet) .pendingSourceChanged
    let evidence ← verifyFrozen S saved
    require (evidence.hash = pending.evidenceHash ∧ evidence.outcome = pending.outcome ∧
      ∀ uri ∈ pending.evidenceURI, evidence.uri = uri) .pendingEvidenceBindingFailed
    return ⟨some pending, evidence, packet⟩
  | _             => .fail .pendingSourceNoLongerReady

inductive Query (E : Type)
  | proposal
  | verifyPending (pending : Pending E)

-- What a request returns is noted when it returns.
def query : Query E → Request E P Q Unit
  | .proposal              => do
    match ← proposal S with
    | none   => return
    | some a => send (.answer a)
  | .verifyPending pending => do
    send (.answer (← verifyPending S pending))

def service : Program.Service (Store E P Q) (@Command.Reply E P Q) Failure (Query E) (Drift E P Q) where
  perform := perform S.hashes
  broken  := .unavailable
  code _  := query S
  drift   := drift S.hashes

end Programs

end Settlement.Proposing
