import Flurbo.Library.Fallible
import Flurbo.Library.Json
import Flurbo.Server.Readers.Decimals

-- The two readers of JSON bodies: the exact one of the general readers, and `JSON.parse` with a scan after it.

namespace Readers.ExactJson

open Json

def space (body : Utf16) : Utf16 := body.dropWhile isWs

section Tokens

-- `(?:[^"\\\u0000-\u001f]|\\(?:["\\/bfnrt]|u[0-9a-fA-F]{4}))*"` at the start of the body, and what is left.
def closeString : Utf16 → Option (Utf16 × Utf16)
  | []        => none
  | c :: body =>
    if c = quote then some ([c], body)
    else if c = backslash then
      match body with
      | e :: body =>
        if e = letter_u then
          match body with
          | x :: y :: z :: w :: body =>
            if (hexUnit x y z w).isSome then
              (closeString body).map fun t => (c :: e :: x :: y :: z :: w :: t.1, t.2)
            else none
          | _                        => none
        else if (unescape e).isSome then (closeString body).map fun t => (c :: e :: t.1, t.2)
        else none
      | []        => none
    else if c < 0x20 then none
    else (closeString body).map fun t => (c :: t.1, t.2)

-- The pattern `STRING`.
def stringToken (body : Utf16) : Option (Utf16 × Utf16) :=
  if body.head? = some quote then (closeString body.tail).map fun t => (quote :: t.1, t.2) else none

def isLineEnd (c : CodeUnit) : Bool := c = 0x0A || c = 0x0D || c = 0x2028 || c = 0x2029

-- `(?:\\.|[^"\\])*"`
def closeQuoted : Utf16 → Option (Utf16 × Utf16)
  | []        => none
  | c :: body =>
    if c = quote then some ([c], body)
    else if c = backslash then
      match body with
      | e :: body => if isLineEnd e then none else (closeQuoted body).map fun t => (c :: e :: t.1, t.2)
      | []        => none
    else (closeQuoted body).map fun t => (c :: t.1, t.2)

def quotedToken (body : Utf16) : Option (Utf16 × Utf16) :=
  if body.head? = some quote then (closeQuoted body.tail).map fun t => (quote :: t.1, t.2) else none

def decodeChars : Utf16 → Option Utf16
  | []     => none
  | c :: t =>
    if c = quote then if t = [] then some [] else none
    else if c = backslash then
      match t with
      | e :: t =>
        if e = letter_u then
          match t with
          | x :: y :: z :: w :: t => do
            let u ← hexUnit x y z w
            let s ← decodeChars t
            return u :: s
          | _                     => none
        else do
          let u ← unescape e
          let s ← decodeChars t
          return u :: s
      | []     => none
    else if c < 0x20 then none
    else (decodeChars t).map (c :: ·)

-- `JSON.parse` of a string's text.
def decodeString (t : Utf16) : Option Utf16 := if t.head? = some quote then decodeChars t.tail else none

-- `0|[1-9]\d*`
def intToken : Utf16 → Option (Utf16 × Utf16)
  | []        => none
  | c :: body =>
    if c = zero then some ([c], body)
    else if isDigit c then some (c :: body.takeWhile isDigit, body.dropWhile isDigit)
    else none

-- `(?:\.\d+)?`
def fracToken : Utf16 → Utf16 × Utf16
  | []        => ([], [])
  | c :: body =>
    if c = point ∧ body.takeWhile isDigit ≠ [] then (c :: body.takeWhile isDigit, body.dropWhile isDigit)
    else ([], c :: body)

-- `[+-]?`
def signToken : Utf16 → Utf16 × Utf16
  | []        => ([], [])
  | c :: body => if c = plus ∨ c = minus then ([c], body) else ([], c :: body)

-- `(?:[eE][+-]?\d+)?`
def expToken : Utf16 → Utf16 × Utf16
  | []        => ([], [])
  | c :: body =>
    let (sign, digits) := signToken body
    if (c = letter_e ∨ c = letterE) ∧ digits.takeWhile isDigit ≠ [] then
      (c :: sign ++ digits.takeWhile isDigit, digits.dropWhile isDigit)
    else ([], c :: body)

-- The pattern `NUMBER`.
def numberToken (body : Utf16) : Option (Utf16 × Utf16) := do
  let sign := if body.head? = some minus then [minus] else []
  let (int, body) ← intToken (if body.head? = some minus then body.tail else body)
  let (frac, body) := fracToken body
  let (exp, body) := expToken body
  return (sign ++ (int ++ (frac ++ exp)), body)

end Tokens

section Exact

-- `fail`, if there is no token.
def orFail {α : Type} : Option α → Except Issue α
  | none   => .error .invalidJson
  | some a => .ok a

def readString (body : Utf16) : Except Issue (Utf16 × Utf16) := do
  let (t, rest) ← orFail (stringToken body)
  let s ← orFail (decodeString t)
  return (s, rest)

abbrev Reader := Utf16 → Except Issue (Json Utf16 × Utf16)

-- The rounds of the loop over an object's members. Duplicates are refused if `distinct` is set.
def members (distinct : Bool) (value : Reader) :
    ℕ → List (Utf16 × Json Utf16) → Utf16 → Except Issue (List (Utf16 × Json Utf16) × Utf16)
  | 0, _, _                => .error .outOfRounds
  | rounds + 1, fields, body => do
    let (key, body) ← readString (space body)
    if distinct ∧ key ∈ fields.map Prod.fst then .error .duplicateField
    else
      let body := space body
      if body.head? ≠ some colon then .error .invalidJson
      else
        let (item, body) ← value body.tail
        let body := space body
        if body.head? = some comma then members distinct value rounds (fields ++ [(key, item)]) body.tail
        else if body.head? = some closeBrace then .ok (fields ++ [(key, item)], body.tail)
        else .error .invalidJson

def items (value : Reader) : ℕ → List (Json Utf16) → Utf16 → Except Issue (List (Json Utf16) × Utf16)
  | 0, _, _              => .error .outOfRounds
  | rounds + 1, list, body => do
    let (item, body) ← value body
    let body := space body
    if body.head? = some comma then items value rounds (list ++ [item]) body.tail
    else if body.head? = some closeBracket then .ok (list ++ [item], body.tail)
    else .error .invalidJson

def literals : List (Utf16 × Json Utf16) :=
  [(wordTrue, .bool true), (wordFalse, .bool false), (wordNull, .null)]

-- The first argument is the number of levels that are left.
def value (distinct : Bool) : ℕ → Reader
  | 0, _           => .error .tooDeep
  | left + 1, body =>
    let rest := space body
    if rest.head? = some openBrace then
      let inner := space rest.tail
      if inner.head? = some closeBrace then .ok (.object [], inner.tail)
      else do
        let (fields, rest) ← members distinct (value distinct left) body.length [] inner
        .ok (.object fields, rest)
    else if rest.head? = some openBracket then
      let inner := space rest.tail
      if inner.head? = some closeBracket then .ok (.array [], inner.tail)
      else do
        let (list, rest) ← items (value distinct left) body.length [] inner
        .ok (.array list, rest)
    else if rest.head? = some quote then do
      let (s, rest) ← readString rest
      .ok (.string s, rest)
    else
      match literals.find? fun w => w.1.isPrefixOf rest with
      | some w => .ok (w.2, rest.drop w.1.length)
      | none   => do
        let (t, rest) ← orFail (numberToken rest)
        .ok (.number t, rest)

def text (distinct : Bool) (levels : ℕ) (body : Utf16) : Except Issue (Json Utf16) := do
  let (result, body) ← value distinct levels body
  if space body = [] then .ok result else .error .invalidJson

def parseExactJSON (input : Utf16) : Except Issue (Json Utf16) := text true 65 input.dropMark

end Exact

section Strict

mutual

-- Of the members of one name the last one stays, in the place of the first.
def collapse : Json Utf16 → Json Utf16
  | .array items    => .array (collapseItems items)
  | .object members => .object (collapseMembers [] members)
  | v               => v

def collapseItems : List (Json Utf16) → List (Json Utf16)
  | []            => []
  | item :: items => collapse item :: collapseItems items

def collapseMembers (fields : List (Utf16 × Json Utf16)) : List (Utf16 × Json Utf16) → List (Utf16 × Json Utf16)
  | []                     => fields
  | (key, item) :: members =>
    let item := collapse item
    collapseMembers (if key ∈ fields.map Prod.fst then fields.map fun m => if m.1 = key then (key, item) else m
      else fields ++ [(key, item)]) members

end

variable {N : Type}

-- `JSON.parse`, where `toNumber` rounds the text of a number.
def jsonParse (toNumber : Utf16 → N) (body : Utf16) : Except Issue (Json N) := do
  let result ← text false (body.length + 1) body
  return (collapse result).map toNumber

-- `/\s/`
def isSpaceUnit (c : CodeUnit) : Bool :=
  c ∈ [0x09, 0x0A, 0x0B, 0x0C, 0x0D, 0x20, 0xA0, 0x1680, 0x2028, 0x2029, 0x202F, 0x205F, 0x3000, 0xFEFF] ∨
    0x2000 ≤ c ∧ c ≤ 0x200A

def skip (body : Utf16) : Utf16 := body.dropWhile isSpaceUnit

def scanString (body : Utf16) : Except Issue (Utf16 × Utf16) := do
  let (t, rest) ← orFail (quotedToken body)
  let s ← orFail (decodeString t)
  return (s, rest)

def scanMembers (value : Utf16 → Except Issue Utf16) : ℕ → List Utf16 → Utf16 → Except Issue Utf16
  | 0, _, _             => .error .outOfRounds
  | rounds + 1, keys, body =>
    if body.head? = some closeBrace then .ok body
    else do
      let (key, body) ← scanString body
      if key ∈ keys then .error .duplicateField
      else
        let body ← value (skip body).tail
        let body := skip body
        if body.head? = some comma then scanMembers value rounds (keys ++ [key]) (skip body.tail) else .ok body

def scanItems (value : Utf16 → Except Issue Utf16) : ℕ → Utf16 → Except Issue Utf16
  | 0, _          => .error .outOfRounds
  | rounds + 1, body =>
    if body.head? = some closeBracket then .ok body
    else do
      let body ← value body
      let body := skip body
      if body.head? = some comma then scanItems value rounds (skip body.tail) else .ok body

-- `[\s,\]}]`
def endsToken (c : CodeUnit) : Bool := isSpaceUnit c || c = comma || c = closeBracket || c = closeBrace

def scan : ℕ → Utf16 → Except Issue Utf16
  | 0, _           => .error .tooDeep
  | left + 1, body =>
    let rest := skip body
    if rest.head? = some openBrace then do
      let rest ← scanMembers (scan left) body.length [] (skip rest.tail)
      .ok rest.tail
    else if rest.head? = some openBracket then do
      let rest ← scanItems (scan left) body.length (skip rest.tail)
      .ok rest.tail
    else if rest.head? = some quote then do
      let (_, rest) ← scanString rest
      .ok rest
    else .ok (rest.dropWhile fun c => !endsToken c)

def strictJSON (toNumber : Utf16 → N) (body : Utf16) : Except Issue (Json N) := do
  let document ← (jsonParse toNumber body).mapError fun _ => .invalidJson
  let _ ← scan 65 body
  return document

end Strict

end Readers.ExactJson
