import Flurbo.Server.SettlementRules

-- How retained captures of a rule's sources become records, and the records an outcome.

open Except

namespace Settlement

abbrev Digest := ℕ

structure Capture where
  requestedUrl : Url
  finalUrl     : Url
  fetchedAt    : ℕ
  status       : ℕ
  contentType  : Option String
  complete     : Bool
  bytes        : ℕ
  body         : String
  sha256       : Digest
  deriving DecidableEq, Repr

inductive Kind
  | initial | correction | revision | cancelled | correctionNotice
  deriving DecidableEq, Repr

structure Record where
  id           : String
  observation  : Observation
  kind         : Kind
  value        : Value
  publishedAt  : ℕ
  supersedesId : Option Value
  deriving DecidableEq, Repr

-- Where a record was captured.
structure Provenance where
  requestedUrl : Url
  finalUrl     : Url
  fetchedAt    : ℕ
  sha256       : Digest
  bytes        : ℕ
  deriving DecidableEq, Repr

structure Sourced where
  record     : Record
  provenance : Provenance
  deriving DecidableEq, Repr

-- The issues of a capture. `other` is any issue of the code that retrieves or reads a body.
inductive Issue
  | captureTimeInvalid | sourceUrlMismatch | captureIncomplete | captureIntegrityFailed
  | contentTypeMismatch | observationIdentityMismatch | recordMetadataInvalid
  | correctionTargetMissing | valueInvalid | sourceCaptureFailed | snapshotWindowMissed
  | other (code : ℕ)
  deriving DecidableEq, Repr

-- What the model leaves open: SHA-256 and the text of a digest, the code that reads a body (for one kind of
-- adapter each), and the order of identifiers that `localeCompare` gives.
structure Readers where
  digest         : String → Digest
  digestText     : Digest → String
  acceptsType    : Adapter → Option String → Bool
  readGeneral    : Rule → Capture → Except Issue (Value × Option ℕ)
  jsonRecord     : Rule → String → Except Issue Record
  usgsGenerated  : Rule → String → Except Issue (String × Value × ℕ)
  blsSentence    : Rule → String → Except Issue (Value × ℕ)
  fedStatement   : Rule → String → Except Issue (Value × ℕ)
  archivedId     : Rule → String
  localeLe       : String → String → Bool
  digestText_inj : Function.Injective digestText

section Parse

variable (R : Readers) (rule : Rule)

def Record.initialOf (id : String) (value : Value) (publishedAt : ℕ) : Record :=
  ⟨id, rule.observation, .initial, value, publishedAt, none⟩

-- The name of an adapter in rules and in records.
def adapterName : Adapter → String
  | .jsonRecord          => "json-record.v1"
  | .blsEmploymentHtml   => "bls-employment-html.v1"
  | .fomcStatementHtml   => "fomc-statement-html.v1"
  | .usgsEarthquakeCount => "usgs-earthquake-count.v1"
  | .jsonApi             => "json-api.v1"
  | .statTable           => "stat-table.v1"
  | .htmlText            => "html-text.v1"
  | .evmRpc              => "evm-rpc.v1"

def readGeneralRecord (capture : Capture) : Except Issue Record := do
  let (value, published) ← R.readGeneral rule capture
  if rule.vintage = .firstObservedSnapshot then
    return .initialOf rule (adapterName rule.source.adapter ++ ":" ++ R.digestText capture.sha256) value capture.fetchedAt
  else match published with
    | none             => .error .recordMetadataInvalid
    | some publishedAt =>
      return .initialOf rule
        (adapterName rule.source.adapter ++ ":" ++ rule.source.id ++ ":" ++ toString publishedAt) value publishedAt

def readRecord (capture : Capture) : Except Issue Record :=
  match rule.source.adapter with
  | .jsonRecord          => R.jsonRecord rule capture.body
  | .usgsEarthquakeCount => do
    let (id, value, publishedAt) ← R.usgsGenerated rule capture.body
    return .initialOf rule id value publishedAt
  | .blsEmploymentHtml   => do
    let (value, publishedAt) ← R.blsSentence rule capture.body
    return .initialOf rule (R.archivedId rule) value publishedAt
  | .fomcStatementHtml   => do
    let (value, publishedAt) ← R.fedStatement rule capture.body
    return .initialOf rule (R.archivedId rule) value publishedAt
  | .jsonApi | .statTable | .htmlText | .evmRpc => readGeneralRecord R rule capture

def ensure (c : Prop) [Decidable c] (e : Issue) : Except Issue Unit :=
  if c then .ok () else .error e

def Value.isText : Value → Bool
  | .text _ => true
  | _       => false

def validValue (type : DecisionType) : Value → Bool
  | .text s    =>
    match type with
    | .number    => (decimal s).isSome
    | .category  => s ≠ "" && s.length ≤ 500
    | .timestamp => false
  | .seconds n => type = .timestamp && decide (validTime n)
  | .other _   => false

-- The checks of the capture itself.
def checkCapture (capture : Capture) : Except Issue Unit := do
  ensure (capture.requestedUrl ∈ rule.source.urls ∧ capture.finalUrl = capture.requestedUrl)
    .sourceUrlMismatch
  ensure (capture.status = 200 ∧ capture.complete) .captureIncomplete
  let bytes := capture.body.utf8ByteSize
  ensure (bytes ≠ 0 ∧ bytes ≤ 2000000 ∧ capture.bytes = bytes ∧ capture.sha256 = R.digest capture.body)
    .captureIntegrityFailed
  ensure (rule.source.adapter.general ∨ R.acceptsType rule.source.adapter capture.contentType)
    .contentTypeMismatch

def checkRecord (capture : Capture) (record : Record) : Except Issue Unit := do
  ensure (record.observation = rule.observation) .observationIdentityMismatch
  ensure (record.id ≠ "" ∧ record.id.length ≤ 500 ∧ validTime record.publishedAt ∧
    record.publishedAt ≤ capture.fetchedAt) .recordMetadataInvalid
  ensure (record.kind = .correction ∨ record.kind = .correctionNotice →
    ∃ v ∈ record.supersedesId, v ≠ .text "" ∧ v ≠ .text record.id ∧ v.isText) .correctionTargetMissing
  ensure (record.kind = .initial ∨ record.kind = .correction ∨ record.kind = .revision →
    validValue rule.decision.type record.value) .valueInvalid

def parseSettlementCapture (capture : Capture) (now : ℕ) : Except Issue Sourced := do
  ensure (validTime capture.fetchedAt ∧ capture.fetchedAt ≤ now) .captureTimeInvalid
  checkCapture R rule capture
  let record ← readRecord R rule capture
  checkRecord rule capture record
  return ⟨record, capture.requestedUrl, capture.finalUrl, capture.fetchedAt, capture.sha256, capture.bytes⟩

end Parse

-- `thrown` is no reason of the source: `canonical` has thrown.
inductive Reason
  | thrown
  | captureSetInvalid | sourceCoverageMissing | sourceCaptureFailed (issues : List Issue)
  | correctionMonitorStale | releasedBeforeObservationWindow | snapshotNotRetainedInWindow
  | sourceCancelled | releaseAfterPublicationCutoff | releaseUnavailable | initialSourceConflict
  | correctionSourceConflict | correctionOrderAmbiguous | correctionChainInvalid
  | correctionWithoutReplacement
  deriving DecidableEq, Repr

-- `excluded` is left out: it is determined by the rest.
structure Packet where
  rule             : Rule
  evaluatedAt      : ℕ
  outcome          : ℕ
  selectedRecordId : String
  measuredValue    : Value
  records          : List Sourced
  captures         : List Capture
  deriving DecidableEq, Repr

inductive Evaluation
  | thrown
  | terminal
  | timeout
  | waiting
  | unresolved (reason : Reason)
  | ready (packet : Packet)
  deriving DecidableEq, Repr

section Evaluate

variable (R : Readers) (rule : Rule)

def covers (captures : List Capture) : Bool :=
  rule.source.urls.all fun url => captures.any (·.requestedUrl = url)

-- Every declared source has to be captured again once corrections are over.
def monitored (captures : List Capture) : Bool :=
  rule.source.urls.all fun url => captures.any fun c =>
    c.requestedUrl = url ∧ rule.timing.correctionCutoff ≤ c.fetchedAt

structure Identity where
  id           : String
  kind         : Kind
  value        : Value
  publishedAt  : ℕ
  supersedesId : Value
  deriving DecidableEq

def Record.identity (r : Record) : Identity :=
  ⟨r.id, r.kind, r.value, r.publishedAt, r.supersedesId.getD (.text "")⟩

def Record.encodes (r : Record) : Bool := r.identity.value.encodes && r.identity.supersedesId.encodes

def isInitial (s : Sourced) : Bool :=
  s.record.kind = .initial ∧ s.record.publishedAt ≤ rule.timing.publicationCutoff

def inWindow (s : Sourced) : Bool :=
  rule.timing.scheduledAt ≤ s.record.publishedAt ∧ rule.timing.scheduledAt ≤ s.provenance.fetchedAt ∧
    s.provenance.fetchedAt ≤ rule.timing.publicationCutoff

-- The candidates for the initial record under the rule's vintage.
def initialsOf (records : List Sourced) : Except Reason (List Sourced) :=
  let initials := records.filter (isInitial rule)
  if rule.source.adapter.general ∧ rule.vintage = .initial then
    let late := initials.filter (rule.timing.scheduledAt ≤ ·.record.publishedAt)
    if late = [] ∧ initials ≠ [] then .error .releasedBeforeObservationWindow else .ok late
  else if rule.vintage = .firstObservedSnapshot then
    let initials := initials.filter (inWindow rule)
    let first := (initials.map (·.provenance.fetchedAt)).min?
    match initials.filter (some ·.provenance.fetchedAt = first) with
    | []       => .error .snapshotNotRetainedInWindow
    | initials => .ok initials
  else .ok initials

def isCancelled (s : Sourced) : Bool :=
  s.record.kind = .cancelled ∧ s.record.publishedAt ≤ rule.timing.publicationCutoff

-- One immutable initial identity. Two claimed initial values are a conflict.
def selectInitial (records : List Sourced) : Except Reason Sourced := do
  match ← initialsOf rule records with
  | []             =>
    if records.any (isCancelled rule) then .error .sourceCancelled
    else if records.any (·.record.kind = .initial) then .error .releaseAfterPublicationCutoff
    else .error .releaseUnavailable
  | first :: others =>
    if (first :: others).any (!·.record.encodes) then .error .thrown
    else if others.any (·.record.identity ≠ first.record.identity) then .error .initialSourceConflict
    else if records.any (isCancelled rule) then .error .sourceCancelled
    else return first

structure Corrected where
  selected   : Sourced
  used       : List Sourced
  seen       : List (String × Identity)
  timestamps : List (ℕ × String)

def correct (c : Corrected) (s : Sourced) : Except Reason Corrected :=
  let r := s.record
  if !r.encodes then .error .thrown
  else
    match c.seen.find? (·.1 = r.id) with
    | some (_, key) => if key ≠ r.identity then .error .correctionSourceConflict else .ok c
    | none          =>
      if c.timestamps.any fun (at_, id) => at_ = r.publishedAt ∧ id ≠ r.id then
        .error .correctionOrderAmbiguous
      else if r.supersedesId ≠ some (.text c.selected.record.id) ∨
          r.publishedAt < c.selected.record.publishedAt then
        .error .correctionChainInvalid
      else .ok {
        selected   := s
        used       := c.used ++ [s]
        seen       := (r.id, r.identity) :: c.seen
        timestamps := (r.publishedAt, r.id) :: c.timestamps }

def correctionsOf (records : List Sourced) : List Sourced :=
  (records.filter fun s => (s.record.kind = .correction ∨ s.record.kind = .correctionNotice) ∧
    s.record.publishedAt ≤ rule.timing.correctionCutoff).mergeSort fun a b =>
      a.record.publishedAt < b.record.publishedAt ∨
        a.record.publishedAt = b.record.publishedAt ∧ R.localeLe a.record.id b.record.id

-- The records that are used. The last one is selected.
def select (records : List Sourced) : Except Reason (List Sourced × Sourced) := do
  let initial ← selectInitial rule records
  if rule.vintage = .initialWithCorrections then
    let c ← (correctionsOf R rule records).foldlM correct ⟨initial, [initial], [], []⟩
    if c.selected.record.kind = .correctionNotice then .error .correctionWithoutReplacement
    else return (c.used, c.selected)
  else return ([initial], initial)

def compareValues (decision : Decision) (value : Value) : Ordering :=
  match value, decision.value with
  | .text a, .text b       =>
    match decision.type, decimal a, decimal b with
    | .number, some a, some b => a.compare b
    | _, _, _                 => Ord.compare a b
  | .seconds a, .seconds b => Ord.compare a b
  | _, _                   => .gt

def decides (decision : Decision) (value : Value) : Bool :=
  let comparison := compareValues decision value
  match decision.operator with
  | .gt  => comparison = .gt
  | .gte => comparison ≠ .lt
  | .lt  => comparison = .lt
  | .lte => comparison ≠ .gt
  | .eq  => comparison = .eq

def parsed (captures : List Capture) (now : ℕ) : List (Except Issue Sourced) :=
  captures.map (parseSettlementCapture R rule · now)

def issuesOf (captures : List Capture) (now : ℕ) : List Issue :=
  ((parsed R rule captures now).filterMap fun
    | .error e => some e
    | .ok _    => none).dedup

def recordsOf (captures : List Capture) (now : ℕ) : List Sourced :=
  (parsed R rule captures now).filterMap fun
    | .error _ => none
    | .ok s    => if s.record.publishedAt ≤ now then some s else none

def evaluateSettlement (captures : List Capture) (now : ℕ) (finalized : Bool) : Evaluation :=
  let t := rule.timing
  if finalized then .terminal
  else if now ≥ t.observationEndsAt + t.assertionPeriod then .timeout
  else if now < t.observationEndsAt then .waiting
  else if captures.length > 100 then .unresolved .captureSetInvalid
  else if captures ≠ [] ∧ !covers rule captures then .unresolved .sourceCoverageMissing
  else
    let issues := issuesOf R rule captures now
    let records := recordsOf R rule captures now
    if issues ≠ [] then .unresolved (.sourceCaptureFailed issues)
    else if records ≠ [] ∧ rule.vintage = .initialWithCorrections ∧ !monitored rule captures then
      .unresolved .correctionMonitorStale
    else match select R rule records with
    | .error .thrown       => .thrown
    | .error reason        => .unresolved reason
    | .ok (used, selected) => .ready {
        rule             := rule
        evaluatedAt      := now
        outcome          := if decides rule.decision selected.record.value then 2 else 1
        selectedRecordId := selected.record.id
        measuredValue    := selected.record.value
        records          := used
        captures         := captures }

end Evaluate

section Samples

-- A text of as many letters.
def lettersOf (n : ℕ) : String := String.ofList (List.replicate n 'f')

theorem length_lettersOf (n : ℕ) : (lettersOf n).length = n := by
  rw [lettersOf, String.length_ofList, List.length_replicate]

theorem lettersOf_injective : Function.Injective lettersOf := fun n m h => by
  rw [← length_lettersOf n, h, length_lettersOf]

-- Every body reads as the number 5.
def sampleReaders : Readers where
  digest _         := 0
  digestText       := lettersOf
  acceptsType _ _  := true
  readGeneral _ _  := .ok (.text "5", none)
  jsonRecord _ _   := .error (.other 0)
  usgsGenerated _ _ := .error (.other 0)
  blsSentence _ _  := .error (.other 0)
  fedStatement _ _ := .error (.other 0)
  archivedId _     := "id"
  localeLe a b     := a ≤ b
  digestText_inj   := lettersOf_injective

def sampleId : String := "json-api.v1:"

def sampleRule : Rule where
  eventId     := "event"
  question    := "At least one?"
  source      := ⟨"source", .jsonApi, ["a", "b"]⟩
  observation := ⟨"series", "period", "unit"⟩
  decision    := ⟨.number, .gte, .text "1"⟩
  timing      := ⟨10, 20, 20, 20, 3600, 3600, 3600⟩
  vintage     := .firstObservedSnapshot

end Samples

end Settlement
