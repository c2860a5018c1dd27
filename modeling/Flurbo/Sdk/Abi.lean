import Flurbo.Library.Fallible
import Flurbo.Sdk.U256

-- The calls and the logs of the pool, as the three runtimes write and read them. Texts are lists of
-- characters. A length only matters where every character is of ASCII, so that it is that of the bytes too.

open Except

namespace Sdk

inductive FlurboError
  | invalidInput (message : String)
  | invalidResponse (message : String)
  | unsupportedClaim (message : String)
  | panicked
  deriving DecidableEq

inductive Kind
  | uint8 | uint32 | uint128 | uint256 | address | bool
  deriving DecidableEq

namespace Kind

def bits : Kind → ℕ
  | uint8   => 8
  | uint32  => 32
  | uint128 => 128
  | uint256 => 256
  | address => 160
  | bool    => 1

def text : Kind → String
  | uint8   => "uint8"
  | uint32  => "uint32"
  | uint128 => "uint128"
  | uint256 => "uint256"
  | address => "address"
  | bool    => "bool"

theorem bits_le (kind : Kind) : kind.bits ≤ 256 := by
  cases kind <;> decide

end Kind

inductive FunctionName
  | buy | sell | redeem | quoteBuy | quoteSell
  | holdings | payoutFraction | closesAt | eventCount | collateral
  | collateralDecimals | settlementRulesHash | resolved | resolvedState
  | voidMask | funded | approve | allowance | balanceOf | decimals
  deriving DecidableEq

-- The three runtimes have the same tables.
namespace FunctionName

def text : FunctionName → String
  | buy                 => "buy"
  | sell                => "sell"
  | redeem              => "redeem"
  | quoteBuy            => "quoteBuy"
  | quoteSell           => "quoteSell"
  | holdings            => "holdings"
  | payoutFraction      => "payoutFraction"
  | closesAt            => "closesAt"
  | eventCount          => "eventCount"
  | collateral          => "collateral"
  | collateralDecimals  => "collateralDecimals"
  | settlementRulesHash => "settlementRulesHash"
  | resolved            => "resolved"
  | resolvedState       => "resolvedState"
  | voidMask            => "voidMask"
  | funded              => "funded"
  | approve             => "approve"
  | allowance           => "allowance"
  | balanceOf           => "balanceOf"
  | decimals            => "decimals"

def selector : FunctionName → List Char
  | buy                 => "0x3e6b6cde".toList
  | sell                => "0xc39849c5".toList
  | redeem              => "0xdf992423".toList
  | quoteBuy            => "0xa6a83dde".toList
  | quoteSell           => "0xf29d0ba9".toList
  | holdings            => "0x90fc2c7b".toList
  | payoutFraction      => "0xf0f54950".toList
  | closesAt            => "0x39a3a99a".toList
  | eventCount          => "0x71be2e4a".toList
  | collateral          => "0xd8dfeb45".toList
  | collateralDecimals  => "0xec9c6c30".toList
  | settlementRulesHash => "0x03a79426".toList
  | resolved            => "0x3f6fa655".toList
  | resolvedState       => "0x1bb51c6a".toList
  | voidMask            => "0x91187684".toList
  | funded              => "0xf3a504f2".toList
  | approve             => "0x095ea7b3".toList
  | allowance           => "0xdd62ed3e".toList
  | balanceOf           => "0x70a08231".toList
  | decimals            => "0x313ce567".toList

-- The keys of `SELECTORS`, in its order.
def selectors : List FunctionName :=
  [buy, sell, redeem, quoteBuy, quoteSell, holdings, payoutFraction, closesAt, eventCount, collateral,
    collateralDecimals, settlementRulesHash, resolved, resolvedState, voidMask, funded, approve, allowance,
    balanceOf, decimals]

def signature : FunctionName → List Kind
  | buy            => [.uint32, .uint256, .uint128, .uint128, .uint256]
  | sell           => [.uint32, .uint256, .uint128, .uint128, .uint256]
  | redeem         => [.uint32, .uint256, .uint128]
  | quoteBuy       => [.uint32, .uint256, .uint128]
  | quoteSell      => [.uint32, .uint256, .uint128]
  | holdings       => [.address, .uint32, .uint256]
  | payoutFraction => [.uint32, .uint256]
  | approve        => [.address, .uint256]
  | allowance      => [.address, .address]
  | balanceOf      => [.address]
  | _              => []

variable {f g : FunctionName}

theorem mem_selectors (f : FunctionName) : f ∈ selectors := by
  cases f <;> decide

theorem selector_inj : f.selector = g.selector ↔ f = g := by
  refine ⟨fun h => ?_, congrArg _⟩
  have : ∀ f ∈ selectors, ∀ g ∈ selectors, f.selector = g.selector → f = g := by decide
  exact this f (mem_selectors f) g (mem_selectors g) h

theorem length_selector (f : FunctionName) : f.selector.length = 10 := by
  cases f <;> rfl

end FunctionName

def topicTraded : List Char := "0xfafd4a382ead0cb54fe827af5995137a1a8b433ebfd5a8d13def35a83adfb9b5".toList

def topicRedeemed : List Char := "0x3e24bbc5ae535f3f571a815b8ba9fc70c94ad494d812f0210c3da99fad2173ae".toList

structure RawLog where
  address : List Char
  topics  : List (List Char)
  data    : List Char
  deriving DecidableEq

-- The type of masks differs between the runtimes.
inductive DecodedEvent (Mask : Type)
  | traded (address trader : List Char) (scope : ℕ) (mask : Mask) (isBuy : Bool) (quantity collateralAmount : ℕ)
  | redeemed (address owner : List Char) (scope : ℕ) (mask : Mask) (quantity collateralAmount : ℕ)
  deriving DecidableEq

def DecodedEvent.map {α β : Type} (f : α → β) : DecodedEvent α → DecodedEvent β
  | traded address trader scope mask isBuy quantity amount =>
    traded address trader scope (f mask) isBuy quantity amount
  | redeemed address owner scope mask quantity amount      =>
    redeemed address owner scope (f mask) quantity amount

instance (s : List Char) : Decidable (Canonical s) := decidable_of_iff _ canonical_iff.symm

-- The 32 bytes of a word, from its 64 digits.
def slice (body : List Char) (i : ℕ) : List Char := (body.drop (i * 64)).take 64

namespace Ts

-- A value of a call. A number that is not finite is `none`.
inductive Word
  | bigint (n : ℤ)
  | string (s : List Char)
  | boolean (b : Bool)
  | number (x : Option ℚ)
  deriving DecidableEq

def isSafeInteger (x : ℚ) : Bool := x.den = 1 && x.num.natAbs ≤ 2 ^ 53 - 1

-- `/^0x[0-9a-fA-F]{40}$/`
def isAddress (s : List Char) : Bool :=
  ['0', 'x'].isPrefixOf s && (s.drop 2).length = 40 && (s.drop 2).all Rust.isAsciiHexdigit

def isLowerHexdigit (c : Char) : Bool := ('0' ≤ c && c ≤ '9') || ('a' ≤ c && c ≤ 'f')

-- `/^0x[0-9a-f]*$/`
def isHex (s : List Char) : Bool :=
  ['0', 'x'].isPrefixOf s && (s.drop 2).all isLowerHexdigit

-- `/^0x[0-9a-f]{64}$/`
def isTopic (s : List Char) : Bool :=
  ['0', 'x'].isPrefixOf s && (s.drop 2).length = 64 && (s.drop 2).all isLowerHexdigit

-- `n.toString(16).padStart(width, '0')`
def padded (width n : ℕ) : List Char :=
  List.replicate (width - (Nat.toDigits 16 n).length) '0' ++ Nat.toDigits 16 n

def number (kind : Kind) (value : Word) : Except FlurboError ℤ :=
  match kind, value with
  | .address, .string s         =>
    if isAddress s then .ok (hexValue (s.drop 2)) else .error (.invalidInput "Invalid address.")
  | .address, _                 => .error (.invalidInput "Invalid address.")
  | .bool, .boolean b           => .ok (if b then 1 else 0)
  | .bool, _                    => .error (.invalidInput "Invalid boolean.")
  | _, .number (some x)         =>
    if isSafeInteger x then .ok x.num else .error (.invalidInput s!"Invalid {kind.text}.")
  | _, .bigint n                => .ok n
  | _, .string s                =>
    if Canonical s then .ok (Digits.value s) else .error (.invalidInput s!"Invalid {kind.text}.")
  | _, _                        => .error (.invalidInput s!"Invalid {kind.text}.")

def word (kind : Kind) (value : Word) : Except FlurboError (List Char) := do
  let n ← number kind value
  if n < 0 ∨ 2 ^ kind.bits ≤ n then
    .error (.invalidInput s!"Value out of range for {kind.text}.")
  else
    return padded 64 n.toNat

def encodeCall (name : FunctionName) (args : List Word) : Except FlurboError (List Char) := do
  let kinds := name.signature
  if args.length ≠ kinds.length then
    .error (.invalidInput s!"{name.text} takes {kinds.length} arguments.")
  else
    return name.selector ++ (← (kinds.zip args).mapM fun (kind, arg) => word kind arg).flatten

def addressFromWord (value : ℕ) : List Char := ['0', 'x'] ++ padded 40 value

section

variable (toLowerCase : List Char → List Char)

def decodeCall (data : List Char) : Except FlurboError (FunctionName × List ℕ) :=
  let hex := toLowerCase data
  if ¬ isHex hex ∨ hex.length < 10 then
    .error (.invalidInput "Invalid calldata.")
  else
    match FunctionName.selectors.find? fun name => name.selector = hex.take 10 with
    | none      => .error (.invalidInput "Unsupported function.")
    | some name =>
      let kinds := name.signature
      let body := hex.drop 10
      if body.length ≠ kinds.length * 64 then
        .error (.invalidInput "Invalid calldata length.")
      else
        let args := kinds.mapIdx fun i _ => hexValue (slice body i)
        if (args.zip kinds).any fun (v, kind) => 2 ^ kind.bits ≤ v then
          .error (.invalidInput "Non-canonical calldata.")
        else
          .ok (name, args)

def decodeWords (data : List Char) (count : ℕ) : Except FlurboError (List ℕ) :=
  let hex := toLowerCase data
  if ¬ isHex hex ∨ hex.length ≠ 2 + count * 64 then
    .error (.invalidResponse "Unexpected contract return data.")
  else
    .ok ((List.range count).map fun i => hexValue ((hex.drop (2 + i * 64)).take 64))

-- An exception of `decodeWords` is caught.
def decodePoolLog (log : RawLog) : Option (DecodedEvent ℕ) :=
  match log.topics.map toLowerCase with
  | [t₀, t₁, t₂, t₃] =>
    if ¬ [t₀, t₁, t₂, t₃].all isTopic then
      none
    else
      let address := toLowerCase log.address
      let who := hexValue (t₁.drop 2)
      let scope := hexValue (t₂.drop 2)
      let mask := hexValue (t₃.drop 2)
      if 2 ^ 160 ≤ who ∨ 2 ^ 32 ≤ scope then
        none
      else if t₀ = topicTraded then
        match decodeWords toLowerCase log.data 3 with
        | .ok [isBuy, quantity, amount] =>
          if 1 < isBuy ∨ 2 ^ 128 ≤ quantity ∨ 2 ^ 128 ≤ amount then
            none
          else
            some (.traded address (addressFromWord who) scope mask (isBuy = 1) quantity amount)
        | _                             => none
      else if t₀ = topicRedeemed then
        match decodeWords toLowerCase log.data 2 with
        | .ok [quantity, amount] =>
          if 2 ^ 128 ≤ quantity ∨ 2 ^ 128 ≤ amount then
            none
          else
            some (.redeemed address (addressFromWord who) scope mask quantity amount)
        | _                      => none
      else
        none
  | _                => none

end

end Ts

-- An argument of the Rust and of the C++ runtime.
inductive Arg
  | uint (n : U256)
  | text (s : List Char)
  | bool (b : Bool)
  deriving DecidableEq

namespace U256

-- For what is below 2^128.
def fromU128 (v : ℕ) : U256 where
  bytes     := List.replicate 16 0 ++ Words.fixed 256 16 v
  length_eq := by simp [Words.fixed]
  fits      := fun w hw => by
    obtain hw | hw := List.mem_append.mp hw
    · rw [List.eq_of_mem_replicate hw]; decide
    · exact Words.fits_fixed (by decide) w hw

def isZero (v : U256) : Bool := v.bytes.all (· = 0)

end U256

-- `unwrap()`, or `*` on an optional of C++, which is undefined if it is empty.
def unwrap {α : Type} : Option α → Except FlurboError α
  | some a => .ok a
  | none   => .error .panicked

namespace Rust

open U256

def isAddress (s : List Char) : Bool :=
  s.length = 42 && ['0', 'x'].isPrefixOf s && (s.drop 2).all isAsciiHexdigit

def toU128 (v : U256) : Option ℕ := if 128 < bits v then none else some (Words.value 256 (v.bytes.drop 16))

def toU64 (v : U256) : Option ℕ := (toU128 v).filter (· < 2 ^ 64)

def addressText (v : U256) : List Char := ['0', 'x'] ++ (v.bytes.drop 12).flatMap hex02

def number (kind : Kind) (value : Arg) : Except FlurboError U256 :=
  match kind, value with
  | .address, .text s => if isAddress s then unwrap (fromHex s) else .error (.invalidInput "Invalid address.")
  | .address, _       => .error (.invalidInput "Invalid address.")
  | .bool, .bool b    => .ok (fromU128 (if b then 1 else 0))
  | .bool, _          => .error (.invalidInput "Invalid boolean.")
  | _, .uint n        => .ok n
  | _, .text s        =>
    match fromDec s with
    | some n => .ok n
    | none   =>
      if !s.isEmpty && s.all Char.isDigit && !(['0'].isPrefixOf s) then
        .error (.invalidInput s!"Value out of range for {kind.text}.")
      else
        .error (.invalidInput s!"Invalid {kind.text}.")
  | _, .bool _        => .error (.invalidInput s!"Invalid {kind.text}.")

def word (kind : Kind) (value : Arg) : Except FlurboError (List Char) := do
  let n ← number kind value
  if kind.bits < bits n then
    .error (.invalidInput s!"Value out of range for {kind.text}.")
  else
    return wordHex n

def encodeCall (name : FunctionName) (args : List Arg) : Except FlurboError (List Char) := do
  let kinds := name.signature
  if args.length ≠ kinds.length then
    .error (.invalidInput s!"{name.text} takes {kinds.length} arguments.")
  else
    return name.selector ++ (← (kinds.zip args).mapM fun (kind, arg) => word kind arg).flatten

-- The word of an argument, and its place.
def readArg (body : List Char) : Kind × ℕ → Except FlurboError U256
  | (kind, i) => do
    let v ← unwrap (fromHex (slice body i))
    if kind.bits < bits v then .error (.invalidInput "Non-canonical calldata.") else return v

def isTopic (s : List Char) : Bool :=
  s.length = 66 && ['0', 'x'].isPrefixOf s && (s.drop 2).all isAsciiHexdigit

section

variable (toLowercase : List Char → List Char)

def lowerHex (data : List Char) : Option (List Char) :=
  let d := toLowercase data
  if ['0', 'x'].isPrefixOf d && (d.drop 2).all isAsciiHexdigit then some d else none

def decodeCall (data : List Char) : Except FlurboError (FunctionName × List U256) :=
  match (lowerHex toLowercase data).filter (10 ≤ ·.length) with
  | none      => .error (.invalidInput "Invalid calldata.")
  | some data =>
    match FunctionName.selectors.find? fun name => name.selector = data.take 10 with
    | none      => .error (.invalidInput "Unsupported function.")
    | some name =>
      let kinds := name.signature
      let body := data.drop 10
      if body.length ≠ kinds.length * 64 then
        .error (.invalidInput "Invalid calldata length.")
      else do
        return (name, ← kinds.zipIdx.mapM (readArg body))

def decodeWords (data : List Char) (count : ℕ) : Except FlurboError (List U256) :=
  match lowerHex toLowercase data with
  | none   => .error (.invalidResponse "Unexpected contract return data.")
  | some d =>
    if d.length ≠ 2 + count * 64 then
      .error (.invalidResponse "Unexpected contract return data.")
    else
      (List.range count).mapM fun i => unwrap (fromHex ((d.drop (2 + i * 64)).take 64))

-- `?` on an error returns `None`, but a panic remains one.
def words? (data : List Char) (count : ℕ) : Except FlurboError (Option (List U256)) :=
  match decodeWords toLowercase data count with
  | .ok ws           => .ok (some ws)
  | .error .panicked => .error .panicked
  | .error _         => .ok none

def decodePoolLog (log : RawLog) : Except FlurboError (Option (DecodedEvent U256)) :=
  match log.topics.map toLowercase with
  | [t₀, t₁, t₂, t₃] =>
    if ¬ [t₀, t₁, t₂, t₃].all isTopic then
      .ok none
    else
      match fromHex t₁, fromHex t₂, fromHex t₃ with
      | some who, some scope, some mask =>
        if 160 < bits who ∨ 32 < bits scope then
          .ok none
        else
          let address := toLowercase log.address
          match toU64 scope with
          | none       => .ok none
          | some scope =>
            -- `as u32`
            let scope := scope % 2 ^ 32
            if t₀ = topicTraded then do
              match ← words? toLowercase log.data 3 with
              | some [isBuy, quantity, amount] =>
                if 1 < bits isBuy ∨ 128 < bits quantity ∨ 128 < bits amount then
                  return none
                else
                  return do
                    some (.traded address (addressText who) scope mask (!isBuy.isZero) (← toU128 quantity)
                      (← toU128 amount))
              | _                              => return none
            else if t₀ = topicRedeemed then do
              match ← words? toLowercase log.data 2 with
              | some [quantity, amount] =>
                if 128 < bits quantity ∨ 128 < bits amount then
                  return none
                else
                  return do
                    some (.redeemed address (addressText who) scope mask (← toU128 quantity) (← toU128 amount))
              | _                       => return none
            else
              .ok none
      | _, _, _                         => .ok none
  | _                => .ok none

end

end Rust

namespace Cpp

open U256

-- What an argument may be given as. The literal -1 is an `int`.
inductive Literal
  | u256 (v : U256)
  | u128 (v : BitVec 128)
  | uint64 (v : BitVec 64)
  | unsigned (v : BitVec 32)
  | int (v : BitVec 32)
  | string (s : List Char)
  | boolean (b : Bool)
  deriving DecidableEq

-- The constructors of `Arg`. A cast of an `int` extends its sign.
def arg : Literal → Arg
  | .u256 v     => .uint v
  | .u128 v     => .uint (fromU128 v.toNat)
  | .uint64 v   => .uint (fromU128 (v.zeroExtend 128).toNat)
  | .unsigned v => .uint (fromU128 (v.zeroExtend 128).toNat)
  | .int v      => .uint (fromU128 (v.signExtend 128).toNat)
  | .string s   => .text s
  | .boolean b  => .bool b

def isAddress (s : List Char) : Bool :=
  s.length = 42 && ['0', 'x'].isPrefixOf s && (s.drop 2).all (0 ≤ hexval ·)

def toU128 (v : U256) : Option ℕ := if 128 < bits v then none else some (Words.value 256 (v.bytes.drop 16))

def addressText (v : U256) : List Char := ['0', 'x'] ++ (wordHex v).drop 24

def number (kind : Kind) (value : Arg) : Except FlurboError U256 :=
  match kind, value with
  | .address, .text s => if isAddress s then unwrap (fromHex s) else .error (.invalidInput "Invalid address.")
  | .address, _       => .error (.invalidInput "Invalid address.")
  | .bool, .bool b    => .ok (fromU128 (if b then 1 else 0))
  | .bool, _          => .error (.invalidInput "Invalid boolean.")
  | _, .uint n        => .ok n
  | _, .text s        =>
    match fromDec s with
    | some n => .ok n
    | none   =>
      if isDigits s && s[0]? ≠ some '0' then
        .error (.invalidInput s!"Value out of range for {kind.text}.")
      else
        .error (.invalidInput s!"Invalid {kind.text}.")
  | _, .bool _        => .error (.invalidInput s!"Invalid {kind.text}.")

def word (kind : Kind) (value : Arg) : Except FlurboError (List Char) := do
  let n ← number kind value
  if kind.bits < bits n then
    .error (.invalidInput s!"Value out of range for {kind.text}.")
  else
    return wordHex n

def encodeCall (name : FunctionName) (args : List Arg) : Except FlurboError (List Char) := do
  let kinds := name.signature
  if args.length ≠ kinds.length then
    .error (.invalidInput s!"{name.text} takes {kinds.length} arguments.")
  else
    return name.selector ++ (← (kinds.zip args).mapM fun (kind, arg) => word kind arg).flatten

-- `std::tolower` of each byte, which changes those of ASCII only.
def lower (s : List Char) : List Char := s.map Char.toLower

def readArg (body : List Char) : Kind × ℕ → Except FlurboError U256
  | (kind, i) => do
    let v ← unwrap (fromHex (slice body i))
    if kind.bits < bits v then .error (.invalidInput "Non-canonical calldata.") else return v

def hexData (d : List Char) : Bool := ['0', 'x'].isPrefixOf d && (d.drop 2).all (0 ≤ hexval ·)

def decodeCall (data : List Char) : Except FlurboError (FunctionName × List U256) :=
  let d := lower data
  if ¬ hexData d ∨ d.length < 10 then
    .error (.invalidInput "Invalid calldata.")
  else
    match FunctionName.selectors.foldl (fun name f => if f.selector = d.take 10 then some f else name) none with
    | none      => .error (.invalidInput "Unsupported function.")
    | some name =>
      let kinds := name.signature
      let body := d.drop 10
      if body.length ≠ kinds.length * 64 then
        .error (.invalidInput "Invalid calldata length.")
      else do
        return (name, ← kinds.zipIdx.mapM (readArg body))

def decodeWords (data : List Char) (count : ℕ) : Except FlurboError (List U256) :=
  let d := lower data
  if ¬ hexData d ∨ d.length ≠ 2 + count * 64 then
    .error (.invalidResponse "Unexpected contract return data.")
  else
    (List.range count).mapM fun i => unwrap (fromHex ((d.drop (2 + i * 64)).take 64))

-- An `Error` is caught.
def words? (data : List Char) (count : ℕ) : Except FlurboError (Option (List U256)) :=
  match decodeWords data count with
  | .ok ws           => .ok (some ws)
  | .error .panicked => .error .panicked
  | .error _         => .ok none

def decodePoolLog (log : RawLog) : Except FlurboError (Option (DecodedEvent U256)) :=
  match log.topics.map lower with
  | [t₀, t₁, t₂, t₃] =>
    if ¬ [t₀, t₁, t₂, t₃].all fun t => t.length = 66 && hexData t then
      .ok none
    else do
      let who ← unwrap (fromHex t₁)
      let scope ← unwrap (fromHex t₂)
      let mask ← unwrap (fromHex t₃)
      if 160 < bits who ∨ 32 < bits scope then
        return none
      else
        let address := lower log.address
        -- A cast to `unsigned`.
        let scope := (← unwrap (toU128 scope)) % 2 ^ 32
        if t₀ = topicTraded then
          match ← words? log.data 3 with
          | some [isBuy, quantity, amount] =>
            if 1 < bits isBuy ∨ 128 < bits quantity ∨ 128 < bits amount then
              return none
            else
              return some (.traded address (addressText who) scope mask (!isBuy.isZero) (← unwrap (toU128 quantity))
                (← unwrap (toU128 amount)))
          | _                              => return none
        else if t₀ = topicRedeemed then
          match ← words? log.data 2 with
          | some [quantity, amount] =>
            if 128 < bits quantity ∨ 128 < bits amount then
              return none
            else
              return some (.redeemed address (addressText who) scope mask (← unwrap (toU128 quantity))
                (← unwrap (toU128 amount)))
          | _                       => return none
        else
          return none
  | _                => .ok none

end Cpp

end Sdk
