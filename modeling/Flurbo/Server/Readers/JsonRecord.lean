import Flurbo.Library.JsonText
import Flurbo.Server.Readers.JsonApi
import Flurbo.Server.SettlementEvidence

-- The reader of records: every field of a record is taken from a place of the JSON document.

namespace Readers.JsonRecord

open Json Settlement

-- What the code relies on of the numbers of the language. `write` has no text for one that is not finite, and
-- `safe` is a safe integer that is not negative.
structure Numbers (N : Type) where
  parse : Utf16 → N
  ofNat : ℕ → N
  write : N → Option Utf16
  safe  : N → Option ℕ

-- The paths of the fields.
structure Fields where
  id           : Utf16
  series       : Utf16
  period       : Utf16
  unit         : Utf16
  publishedAt  : Utf16
  kind         : Utf16
  value        : Utf16
  supersedesId : Option Utf16

-- One character for each code unit. A surrogate becomes a character that stands for no unit.
def unitChar (c : CodeUnit) : Char :=
  if Utf16.isHigh c ∨ Utf16.isLow c then Char.ofNat (0x100000 + c.toNat) else Char.ofNat c.toNat

def unitText (s : Utf16) : String := String.ofList (s.map unitChar)

variable {N : Type} (n : Numbers N)

def canonical : Json N → Option Utf16 := sortedText n.write

def lengthName : Utf16 := Utf16.ofString "length"

def own (value : Json N) (token : Utf16) : Option (Json N) :=
  match value with
  | .array items    =>
    if token = lengthName then some (.number (n.ofNat items.length))
    else if JsonApi.isIndex token then items[JsonApi.index token]?
    else none
  | .object members => (members.find? fun m => m.1 = token).map Prod.snd
  | _               => none

-- `EXTRACTION_MISSING_FIELD`
def missingField : Settlement.Issue := .other 3

def pointer (document : Json N) (path : Utf16) : Except Settlement.Issue (Json N) :=
  match (JsonApi.parts path).foldlM (own n) document with
  | none   => .error missingField
  | some v => .ok v

def strictIssue : Readers.Issue → Settlement.Issue
  | .tooDeep        => .other 1
  | .duplicateField => .other 2
  | _               => .other 0

def valueOf : Json N → Value
  | .string s => .text (unitText s)
  | .number m =>
    match n.safe m with
    | some t => .seconds t
    | none   => .other ((n.write m).map unitText)
  | v         => .other ((canonical n v).map unitText)

def text? : Json N → Option String
  | .string s => some (unitText s)
  | _         => none

def time? : Json N → Option ℕ
  | .number m => n.safe m
  | _         => none

def kinds : List (String × Kind) :=
  [("initial", .initial), ("correction", .correction), ("revision", .revision), ("cancelled", .cancelled),
    ("correction-notice", .correctionNotice)]

def kind? (v : Json N) : Option Kind := do
  let t ← text? v
  kinds.lookup t

-- `record.supersedesId ?? ''` does not tell a field that is null from one that is missing.
def supersedes : Json N → Option Value
  | .null => none
  | v     => some (valueOf n v)

-- The types of the fields are checked in the order of `parseSettlementCapture`.
def jsonRecord (fields : Fields) (rule : Rule) (body : Utf16) : Except Settlement.Issue Record := do
  let document ← (ExactJson.strictJSON n.parse body).mapError strictIssue
  let id ← pointer n document fields.id
  let series ← pointer n document fields.series
  let period ← pointer n document fields.period
  let unit ← pointer n document fields.unit
  let publishedAt ← pointer n document fields.publishedAt
  let kind ← pointer n document fields.kind
  let value ← pointer n document fields.value
  let supersedesId ← match fields.supersedesId with
    | none      => .ok .null
    | some path => pointer n document path
  ensure (text? series = some rule.observation.series ∧ text? period = some rule.observation.period ∧
    text? unit = some rule.observation.unit) .observationIdentityMismatch
  match text? id, kind? kind, time? n publishedAt with
  | some id, some kind, some publishedAt =>
    .ok ⟨id, rule.observation, kind, valueOf n value, publishedAt, supersedes n supersedesId⟩
  | _, _, _                              => .error .recordMetadataInvalid

end Readers.JsonRecord
