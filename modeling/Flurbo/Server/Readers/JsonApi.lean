import Flurbo.Server.Readers.ExactJson

-- The reader of JSON interfaces: a value, or one that is computed from the items of a list.

namespace Readers.JsonApi

open Json Settlement

-- The text of a number has no surrogates, what they become does not matter.
def toText (s : Utf16) : String := String.ofList (s.map fun c => Char.ofNat c.toNat)

section Pointers

-- `t.replace(/ab/g, 'r')`
def replacePair (a b r : CodeUnit) : Utf16 → Utf16
  | []          => []
  | [c]         => [c]
  | c :: d :: t => if c = a ∧ d = b then r :: replacePair a b r t else c :: replacePair a b r (d :: t)

def tilde : CodeUnit := 0x7E

def parts (path : Utf16) : List Utf16 :=
  (path.tail.splitOn slash).map fun t => replacePair tilde zero tilde (replacePair tilde 0x31 slash t)

-- `^(?:0|[1-9]\d*)$`
def isIndex (part : Utf16) : Bool :=
  part = [zero] || (part.all isDigit && part != [] && part.head? != some zero)

def index (part : Utf16) : ℕ := part.foldl (fun n c => 10 * n + (c.toNat - 0x30)) 0

def child (node : Json Utf16) (part : Utf16) : Option (Json Utf16) :=
  match node with
  | .array items    => if isIndex part then items[index part]? else none
  | .object members => (members.find? fun m => m.1 = part).map Prod.snd
  | _               => none

def resolve (node : Json Utf16) (path : Utf16) : Option (Json Utf16) :=
  if path = [] then some node else (parts path).foldlM child node

def required (node : Json Utf16) (path : Utf16) : Except Issue (Json Utf16) :=
  match resolve node path with
  | none   => .error .missingField
  | some v => .ok v

end Pointers

inductive Aggregate
  | value | only | count | sum | max | min
  deriving DecidableEq, Repr

inductive Op
  | eq | ne | gt | gte | lt | lte
  deriving DecidableEq, Repr

structure Filter where
  path  : Utf16
  op    : Op
  value : Utf16

structure Check where
  path   : Utf16
  equals : Utf16

inductive TimeFormat
  | unixSeconds | unixMillis | isoDatetime | date
  deriving DecidableEq, Repr

structure PublishedAt where
  path   : Utf16
  format : TimeFormat

-- `field`, `scale` and `valueFormat` are read only where a valid configuration has them.
structure Config where
  select      : Utf16
  aggregate   : Aggregate
  field       : Utf16
  filter      : List Filter
  checks      : List Check
  publishedAt : Option PublishedAt
  scale       : ℕ
  valueFormat : TimeFormat
  type        : DecisionType

inductive Extracted
  | decimal (s : String)
  | seconds (n : ℕ)
  | text (s : Utf16)
  deriving DecidableEq

section Values

def scalarText : Json Utf16 → Except Issue Utf16
  | .number raw => .ok raw
  | .string s   => .ok s
  | .bool true  => .ok wordTrue
  | .bool false => .ok wordFalse
  | .null       => .ok wordNull
  | _           => .error .notAValue

def Op.holds : Op → Ordering → Bool
  | .gt, o  => o = .gt
  | .gte, o => o ≠ .lt
  | .lt, o  => o = .lt
  | .lte, o => o ≠ .gt
  | _, _    => false

def accepts (node : Option (Json Utf16)) (filter : Filter) : Bool :=
  match node with
  | none | some .null | some (.array _) | some (.object _) => false
  | some node                                              =>
    match scalarText node with
    | .error _   => false
    | .ok actual =>
      match filter.op with
      | .eq => actual = filter.value
      | .ne => actual ≠ filter.value
      | op  =>
        match exactDecimal (toText actual) >>= fun d => compareDecimal d (toText filter.value) with
        | .error _       => false
        | .ok comparison => op.holds comparison

-- The number at a field of an item.
def number (node : Json Utf16) : Except Issue String :=
  match node with
  | .number raw => exactDecimal (toText raw)
  | .string s   => exactDecimal (toText s)
  | _           => .error .valueInvalid

variable (timeValue : TimeFormat → Json Utf16 → Except Issue ℕ)

def category (node : Json Utf16) : Except Issue Utf16 := do
  let value ← match node with
    | .number raw => Utf16.ofString <$> exactDecimal (toText raw)
    | .bool true  => .ok wordTrue
    | .bool false => .ok wordFalse
    | .string s   => .ok s
    | _           => .error .valueInvalid
  if value = [] ∨ value.length > 500 then .error .valueInvalid else .ok value

def valueOf (r : Config) (node : Json Utf16) : Except Issue Extracted :=
  match node, r.type with
  | .null, _         => .error .valueMissing
  | node, .number    => do
    let d ← number node
    .decimal <$> scaled d r.scale
  | node, .timestamp => .seconds <$> timeValue r.valueFormat node
  | node, .category  => .text <$> category node

end Values

section Lists

def selected (r : Config) (list : List (Json Utf16)) : List (Json Utf16) :=
  list.filter fun item => r.filter.all fun f => accepts (resolve item f.path) f

-- `(compareDecimal(a, b) >= 0) === largest ? a : b`
def choose (largest : Bool) (a b : String) : Except Issue String := do
  let o ← compareDecimal a b
  return if decide (o ≠ .lt) = largest then a else b

def reduce (f : String → String → Except Issue String) : List String → Except Issue String
  | []            => .error .valueMissing
  | value :: rest => rest.foldlM f value

def total (aggregate : Aggregate) (values : List String) : Except Issue String :=
  if aggregate = .sum then reduce addDecimal values else reduce (choose (aggregate = .max)) values

variable (timeValue : TimeFormat → Json Utf16 → Except Issue ℕ)

def numbers (r : Config) (list : List (Json Utf16)) : Except Issue (List String) :=
  (selected r list).mapM fun item => required item r.field >>= number

def listValue (r : Config) (list : List (Json Utf16)) : Except Issue Extracted :=
  match r.aggregate with
  | .count => .decimal <$> scaled (String.ofList (Nat.toDigits 10 (selected r list).length)) r.scale
  | .only  =>
    match selected r list with
    | [item] => required item r.field >>= valueOf timeValue r
    | _      => .error .ambiguousOrMissing
  | _      =>
    if selected r list = [] then .error .valueMissing
    else do
      let values ← numbers r list
      let total ← total r.aggregate values
      .decimal <$> scaled total r.scale

def jsonApi (r : Config) (body : Utf16) : Except Issue (Extracted × Option ℕ) := do
  let doc ← ExactJson.parseExactJSON body
  r.checks.forM fun check => do
    let text ← required doc check.path >>= scalarText
    if text = check.equals then .ok () else .error .identityMismatch
  let node ← required doc r.select
  let value ←
    if r.aggregate = .value then valueOf timeValue r node
    else match node with
      | .array list => if list.length > 50000 then .error .tooLarge else listValue timeValue r list
      | _           => .error .notAList
  let publishedAt ← match r.publishedAt with
    | none   => .ok none
    | some p => do
      let node ← required doc p.path
      some <$> timeValue p.format node
  return (value, publishedAt)

end Lists

end Readers.JsonApi
