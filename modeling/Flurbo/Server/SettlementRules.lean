import Flurbo.Library.Fallible

-- The rules that a market is settled by. Texts whose form alone is checked are not restricted here.

namespace Settlement

-- An exact decimal is an integer over a power of ten.
structure Decimal where
  coefficient : ℤ
  scale       : ℕ
  deriving DecidableEq, Repr

def digits? (cs : List Char) : Option ℕ :=
  if cs.all (·.isDigit) then some (cs.foldl (fun n c => 10 * n + (c.toNat - '0'.toNat)) 0) else none

-- `^-?(?:0|[1-9]\d{0,35})(?:\.\d{1,18})?$`
def decimal (value : String) : Option Decimal := do
  let negative := value.toList.head? = some '-'
  let unsigned := if negative then value.toList.tail else value.toList
  let whole := unsigned.takeWhile (· ≠ '.')
  let rest := unsigned.dropWhile (· ≠ '.')
  let fraction := rest.tail
  if whole = [] ∨ whole.length > 36 ∨ (whole.length > 1 ∧ whole.head? = some '0') then none
  else if rest ≠ [] ∧ (fraction = [] ∨ fraction.length > 18) then none
  else
    let _ ← digits? whole
    let _ ← digits? fraction
    let n ← digits? (whole ++ fraction)
    return ⟨if negative then -n else n, fraction.length⟩

def Decimal.compare (a b : Decimal) : Ordering :=
  let scale := max a.scale b.scale
  Ord.compare (a.coefficient * 10 ^ (scale - a.scale)) (b.coefficient * 10 ^ (scale - b.scale))

inductive Adapter
  | jsonRecord | blsEmploymentHtml | fomcStatementHtml | usgsEarthquakeCount
  | jsonApi | statTable | htmlText | evmRpc
  deriving DecidableEq, Repr

def Adapter.general : Adapter → Bool
  | .jsonApi | .statTable | .htmlText | .evmRpc => true
  | _                                           => false

inductive Vintage
  | initial | initialWithCorrections | firstObservedSnapshot
  deriving DecidableEq, Repr

inductive DecisionType
  | number | category | timestamp
  deriving DecidableEq, Repr

inductive Operator
  | gt | gte | lt | lte | eq
  deriving DecidableEq, Repr

-- Numbers and categories are texts, timestamps are seconds. `other` is any other JSON value of a source,
-- with what `canonical` writes for it. It throws for a number that is not finite.
inductive Value
  | text (s : String)
  | seconds (n : ℕ)
  | other (canonical : Option String)
  deriving DecidableEq, Repr

def Value.encodes : Value → Bool
  | .other none => false
  | _           => true

structure Decision where
  type     : DecisionType
  operator : Operator
  value    : Value
  deriving DecidableEq, Repr

structure Timing where
  scheduledAt       : ℕ
  publicationCutoff : ℕ
  correctionCutoff  : ℕ
  observationEndsAt : ℕ
  assertionPeriod   : ℕ
  challengePeriod   : ℕ
  votingPeriod      : ℕ
  deriving DecidableEq, Repr

structure Observation where
  series : String
  period : String
  unit   : String
  deriving DecidableEq, Repr

abbrev Url := String

structure Source where
  id      : String
  adapter : Adapter
  urls    : List Url
  deriving DecidableEq, Repr

structure Rule where
  eventId     : String
  question    : String
  source      : Source
  observation : Observation
  decision    : Decision
  timing      : Timing
  vintage     : Vintage
  deriving DecidableEq, Repr

-- Safe integers that are not negative.
def validTime (t : ℕ) : Prop := t < 2 ^ 53

instance decidableValidTime (t : ℕ) : Decidable (validTime t) :=
  inferInstanceAs (Decidable (t < 2 ^ 53))

structure Timing.Valid (t : Timing) : Prop where
  cutoff     : t.scheduledAt ≤ t.publicationCutoff
  correction : t.publicationCutoff ≤ t.correctionCutoff
  ends       : t.observationEndsAt = t.correctionCutoff
  assertion  : 3600 ≤ t.assertionPeriod ∧ t.assertionPeriod ≤ 30 * 86400
  challenge  : 3600 ≤ t.challengePeriod ∧ t.challengePeriod ≤ 7 * 86400
  voting     : 3600 ≤ t.votingPeriod ∧ t.votingPeriod ≤ 7 * 86400
  safe       : validTime (t.observationEndsAt + t.assertionPeriod + t.challengePeriod + t.votingPeriod)

structure Decision.Valid (d : Decision) : Prop where
  category  : d.type = .category → d.operator = .eq
  number    : d.type = .number → ∃ s, d.value = .text s ∧ (decimal s).isSome
  timestamp : d.type = .timestamp → ∃ n, d.value = .seconds n ∧ validTime n

-- What `validateSettlementRule` and `validateReaderConfig` require of the parts that matter here.
structure Rule.Valid (r : Rule) : Prop where
  urls_pos    : r.source.urls ≠ []
  urls_le     : r.source.urls.length ≤ 32
  urls_nodup  : r.source.urls.Nodup
  decision    : r.decision.Valid
  timing      : r.timing.Valid
  corrections : r.vintage ≠ .initialWithCorrections →
    r.timing.correctionCutoff = r.timing.publicationCutoff
  snapshot    : r.vintage = .firstObservedSnapshot →
    r.source.adapter = .usgsEarthquakeCount ∨ r.source.adapter.general
  general     : r.source.adapter.general → r.vintage ≠ .initialWithCorrections
  chain       : r.source.adapter = .evmRpc →
    r.decision.type = .number ∧ r.vintage = .firstObservedSnapshot ∧ r.source.urls.length ≤ 3
  usgs        : r.source.adapter = .usgsEarthquakeCount →
    r.decision.type = .number ∧ r.vintage = .firstObservedSnapshot ∧ r.source.urls.length = 1

end Settlement
