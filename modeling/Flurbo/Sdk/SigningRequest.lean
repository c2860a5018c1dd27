import Flurbo.Sdk.Abi
import Flurbo.Sdk.Claims

-- The transactions that a runtime signs, built and then validated on their bytes, in the three languages.

open Except

namespace Sdk

def collateralText : List Char := "0xa9012a055bd4e0edff8ce09f960291c09d5322dc".toList

def serviceMax : ℕ := 100_000_000

def refuse (message : String) : FlurboError := .invalidInput s!"Refusing to sign: {message}."

def refuseWhen (c : Prop) [Decidable c] (message : String) : Except FlurboError Unit :=
  if c then .error (refuse message) else .ok ()

namespace Ts

-- A number that is not finite is `none`.
structure ClaimRef where
  scope : Option ℚ
  mask  : ℤ
  deriving DecidableEq

inductive Intent
  | buy (claim : ClaimRef) (quantityAtoms limitAtoms : ℤ) (deadline : Option ℚ)
  | sell (claim : ClaimRef) (quantityAtoms limitAtoms : ℤ) (deadline : Option ℚ)
  | redeem (claim : ClaimRef) (quantityAtoms : ℤ)
  | approve (amountAtoms : ℤ)
  deriving DecidableEq

def Intent.action : Intent → FunctionName
  | buy ..     => .buy
  | sell ..    => .sell
  | redeem ..  => .redeem
  | approve .. => .approve

structure Deployment where
  chainId    : ℚ
  pool       : List Char
  closesAt   : ℚ
  eventCount : ℚ

structure TransactionRequest where
  chainId   : Option ℚ
  sender    : List Char
  recipient : List Char
  data      : List Char
  value     : ℤ
  deriving DecidableEq

-- `BigInt(x)`, which throws for what is not an integer.
def bigInt (x : Option ℚ) : Except FlurboError ℤ :=
  match x with
  | some x => if x.den = 1 then .ok x.num else .error .panicked
  | none   => .error .panicked

-- `/^0x[0-9a-f]{40}$/`
def isPool (s : List Char) : Bool :=
  ['0', 'x'].isPrefixOf s && (s.drop 2).length = 40 && (s.drop 2).all isLowerHexdigit

-- `assertClaim`, for a claim of chain 10143.
def assertClaim (pool : List Char) (scope mask : ℕ) (eventCount : ℚ) : Except FlurboError Unit :=
  if ¬ isPool pool then
    .error (.unsupportedClaim "Invalid pool address.")
  else if mask = 0 then
    .error (.unsupportedClaim "A claim must win in some outcomes and lose in others.")
  else if ¬ (eventCount ∈ [2, 3, 4] ∧ validateClaim ⟨scope, mask⟩ eventCount.num.toNat) then
    .error (.unsupportedClaim "This claim is not supported in this pool.")
  else
    .ok ()

section

variable (toLowerCase : List Char → List Char)

-- The checks of the claim and of the quantity, and for a trade of the limit and the deadline.
def validateClaimCall (d : Deployment) (claim : ClaimRef) (quantityAtoms : ℤ) :
    List ℕ → Except FlurboError (List ℕ)
  | scope :: mask :: quantity :: rest => do
    refuseWhen (claim.scope ≠ some scope ∨ claim.mask ≠ mask ∨ quantityAtoms ≠ quantity)
      "the claim or quantity differs from the intent"
    assertClaim d.pool scope mask d.eventCount
    refuseWhen (quantity < 1 ∨ serviceMax < quantity) "the quantity is outside the service limit"
    return rest
  | _                                 => .error .panicked

def validateTradeTerms (d : Deployment) (isBuy : Bool) (limitAtoms : ℤ) (deadline : Option ℚ) :
    List ℕ → Except FlurboError Unit
  | [limit, when] => do
    refuseWhen (limitAtoms ≠ limit ∨ serviceMax < limit ∨ (isBuy ∧ limit = 0))
      "the limit differs from the intent or the service limit"
    let deadline ← bigInt deadline
    refuseWhen (deadline ≠ when ∨ d.closesAt ≤ deadline) "the deadline differs from the intent or is after the close"
  | _             => .error .panicked

def validateTransaction (tx : TransactionRequest) (intent : Intent) (d : Deployment) (wallet : List Char) :
    Except FlurboError Unit := do
  refuseWhen (tx.chainId ≠ some 10143 ∨ d.chainId ≠ 10143) "not Monad testnet"
  refuseWhen (tx.value ≠ 0) "value must be zero"
  refuseWhen (toLowerCase tx.sender ≠ toLowerCase wallet) "the signer is not the agent wallet"
  let (name, args) ← decodeCall toLowerCase tx.data
  refuseWhen (name ≠ intent.action) "the method differs from the intent"
  match intent with
  | .approve amountAtoms =>
    refuseWhen (toLowerCase tx.recipient ≠ collateralText) "approvals are only for test AUSD"
    match args with
    | [spender, amount] =>
      refuseWhen (addressFromWord spender ≠ d.pool) "the spender is not the pool"
      refuseWhen (amountAtoms ≠ amount ∨ amount = 0 ∨ serviceMax < amount)
        "the approval amount is outside the service limit"
    | _                 => .error .panicked
  | .redeem claim quantityAtoms =>
    refuseWhen (toLowerCase tx.recipient ≠ d.pool) "the contract is not the published pool"
    let _ ← validateClaimCall d claim quantityAtoms args
  | .buy claim quantityAtoms limitAtoms deadline =>
    refuseWhen (toLowerCase tx.recipient ≠ d.pool) "the contract is not the published pool"
    validateTradeTerms d true limitAtoms deadline (← validateClaimCall d claim quantityAtoms args)
  | .sell claim quantityAtoms limitAtoms deadline =>
    refuseWhen (toLowerCase tx.recipient ≠ d.pool) "the contract is not the published pool"
    validateTradeTerms d false limitAtoms deadline (← validateClaimCall d claim quantityAtoms args)

-- The recipient and the calldata for an intent.
def callFor (d : Deployment) : Intent → Except FlurboError (List Char × List Char)
  | .approve amountAtoms => do
    return (collateralText, ← encodeCall .approve [.string d.pool, .bigint amountAtoms])
  | .redeem claim quantityAtoms => do
    return (d.pool, ← encodeCall .redeem [.number claim.scope, .bigint claim.mask, .bigint quantityAtoms])
  | .buy claim quantityAtoms limitAtoms deadline => do
    let deadline ← bigInt deadline
    return (d.pool, ← encodeCall .buy
      [.number claim.scope, .bigint claim.mask, .bigint quantityAtoms, .bigint limitAtoms, .bigint deadline])
  | .sell claim quantityAtoms limitAtoms deadline => do
    let deadline ← bigInt deadline
    return (d.pool, ← encodeCall .sell
      [.number claim.scope, .bigint claim.mask, .bigint quantityAtoms, .bigint limitAtoms, .bigint deadline])

def buildTransaction (intent : Intent) (d : Deployment) (wallet : List Char) :
    Except FlurboError TransactionRequest := do
  let (recipient, data) ← callFor d intent
  let request : TransactionRequest := { chainId := some 10143, sender := toLowerCase wallet, recipient, data, value := 0 }
  validateTransaction toLowerCase request intent d wallet
  return request

end

end Ts

-- The records of the Rust and of the C++ runtime.

structure Selection where
  scope : BitVec 32
  mask  : BitVec 32
  deriving DecidableEq

structure PoolDeployment where
  chainId    : BitVec 64
  pool       : List Char
  closesAt   : BitVec 64
  eventCount : BitVec 32

structure UnsignedCall where
  chainId   : BitVec 64
  sender    : List Char
  recipient : List Char
  data      : List Char
  value     : BitVec 128
  deriving DecidableEq

-- `validate_claim`
def checkClaim (scope : ℤ) (mask : List Char) (events : ℤ) : Except FlurboError (List ℕ) :=
  if ¬ (2 ≤ events ∧ events ≤ 4) ∨ mask = [] ∨ 3 < mask.length ∨ mask.head? = some '0' ∨ ¬ mask.all Char.isDigit then
    .error (.unsupportedClaim "Invalid claim.")
  else if scope ≤ 0 ∨ 16 ≤ scope then
    .error (.unsupportedClaim "Invalid claim scope.")
  else
    let legs := (List.range 4).filter fun i => scope.toNat &&& 1 <<< i ≠ 0
    if (1 <<< events.toNat : ℕ) ≤ scope.toNat ∨ 3 < legs.length ∨ 1 <<< (1 <<< legs.length) - 1 ≤ Digits.value mask then
      .error (.unsupportedClaim "Unsupported claim.")
    else
      .ok legs

-- `eq`, of a word and an `i128`.
def equals (word : U256) (v : BitVec 128) : Bool := 0 ≤ v.toInt && word = U256.fromU128 v.toNat

namespace Rust

open U256

inductive Intent
  | approve (amountAtoms : BitVec 128)
  | buy (claim : Selection) (quantityAtoms limitAtoms : BitVec 128) (deadline : BitVec 64)
  | sell (claim : Selection) (quantityAtoms limitAtoms : BitVec 128) (deadline : BitVec 64)
  | redeem (claim : Selection) (quantityAtoms : BitVec 128)
  deriving DecidableEq

def Intent.action : Intent → FunctionName
  | approve .. => .approve
  | buy ..     => .buy
  | sell ..    => .sell
  | redeem ..  => .redeem

-- `amount`, of an `i128`.
def amount (v : BitVec 128) : Except FlurboError Arg :=
  if v.toInt < 0 then .error (refuse "negative amount") else .ok (.uint (fromU128 v.toNat))

def gt (v w : U256) : Bool := cmp v w = .gt

-- The checks of the claim and of the quantity, and for a trade of the limit and the deadline.
def validateClaimCall (d : PoolDeployment) (claim : Selection) (quantityAtoms : BitVec 128) :
    List U256 → Except FlurboError (List U256)
  | scope :: mask :: quantity :: rest => do
    refuseWhen (scope ≠ fromU128 claim.scope.toNat ∨ mask ≠ fromU128 claim.mask.toNat ∨ ¬ equals quantity quantityAtoms)
      "the claim or quantity differs from the intent"
    refuseWhen (¬ (checkClaim claim.scope.toNat (Nat.toDigits 10 claim.mask.toNat) d.eventCount.toNat).isOk)
      "the claim is not supported in this pool"
    refuseWhen (quantity.isZero ∨ gt quantity (fromU128 serviceMax)) "the quantity is outside the service limit"
    return rest
  | _                                 => .error .panicked

def validateTradeTerms (d : PoolDeployment) (isBuy : Bool) (limitAtoms : BitVec 128) (deadline : BitVec 64) :
    List U256 → Except FlurboError Unit
  | limit :: when :: _ => do
    refuseWhen (¬ equals limit limitAtoms ∨ gt limit (fromU128 serviceMax) ∨ (isBuy ∧ limit.isZero))
      "the limit differs from the intent or the service limit"
    refuseWhen (when ≠ fromU128 deadline.toNat ∨ d.closesAt ≤ deadline)
      "the deadline differs from the intent or is after the close"
  | _                  => .error .panicked

section

variable (toLowercase : List Char → List Char)

def validateTransaction (tx : UnsignedCall) (intent : Intent) (d : PoolDeployment) (wallet : List Char) :
    Except FlurboError Unit := do
  refuseWhen (tx.chainId ≠ 10143 ∨ d.chainId ≠ 10143) "not Monad testnet"
  refuseWhen (tx.value ≠ 0) "value must be zero"
  refuseWhen (toLowercase tx.sender ≠ toLowercase wallet) "the signer is not the agent wallet"
  let (name, args) ← decodeCall toLowercase tx.data
  refuseWhen (name ≠ intent.action) "the method differs from the intent"
  match intent with
  | .approve amountAtoms =>
    refuseWhen (toLowercase tx.recipient ≠ collateralText) "approvals are only for test AUSD"
    match args with
    | spender :: amount :: _ =>
      refuseWhen (addressText spender ≠ d.pool) "the spender is not the pool"
      refuseWhen (¬ equals amount amountAtoms ∨ amount.isZero ∨ gt amount (fromU128 serviceMax))
        "the approval amount is outside the service limit"
    | _                      => .error .panicked
  | .redeem claim quantityAtoms =>
    refuseWhen (toLowercase tx.recipient ≠ d.pool) "the contract is not the published pool"
    let _ ← validateClaimCall d claim quantityAtoms args
  | .buy claim quantityAtoms limitAtoms deadline =>
    refuseWhen (toLowercase tx.recipient ≠ d.pool) "the contract is not the published pool"
    validateTradeTerms d true limitAtoms deadline (← validateClaimCall d claim quantityAtoms args)
  | .sell claim quantityAtoms limitAtoms deadline =>
    refuseWhen (toLowercase tx.recipient ≠ d.pool) "the contract is not the published pool"
    validateTradeTerms d false limitAtoms deadline (← validateClaimCall d claim quantityAtoms args)

-- The recipient and the calldata for an intent.
def callFor (d : PoolDeployment) : Intent → Except FlurboError (List Char × List Char)
  | .approve amountAtoms => do
    return (collateralText, ← encodeCall .approve [.text d.pool, ← amount amountAtoms])
  | .redeem claim quantityAtoms => do
    return (d.pool, ← encodeCall .redeem
      [.uint (fromU128 claim.scope.toNat), .uint (fromU128 claim.mask.toNat), ← amount quantityAtoms])
  | .buy claim quantityAtoms limitAtoms deadline => do
    return (d.pool, ← encodeCall .buy
      [.uint (fromU128 claim.scope.toNat), .uint (fromU128 claim.mask.toNat), ← amount quantityAtoms,
        ← amount limitAtoms, .uint (fromU128 deadline.toNat)])
  | .sell claim quantityAtoms limitAtoms deadline => do
    return (d.pool, ← encodeCall .sell
      [.uint (fromU128 claim.scope.toNat), .uint (fromU128 claim.mask.toNat), ← amount quantityAtoms,
        ← amount limitAtoms, .uint (fromU128 deadline.toNat)])

def buildTransaction (intent : Intent) (d : PoolDeployment) (wallet : List Char) :
    Except FlurboError UnsignedCall := do
  let (recipient, data) ← callFor d intent
  let tx : UnsignedCall := { chainId := 10143, sender := toLowercase wallet, recipient, data, value := 0 }
  validateTransaction toLowercase tx intent d wallet
  return tx

end

end Rust

namespace Cpp

open U256

-- The action is one of approve, buy, sell and redeem. The limit of an approval is its amount.
structure Intent where
  action        : String
  claim         : Selection
  quantityAtoms : BitVec 128
  limitAtoms    : BitVec 128
  deadline      : BitVec 64
  deriving DecidableEq

def amount (v : BitVec 128) : Except FlurboError Arg :=
  if v.toInt < 0 then .error (refuse "negative amount") else .ok (arg (.u128 v))

def validateTransaction (tx : UnsignedCall) (intent : Intent) (d : PoolDeployment) (wallet : List Char) :
    Except FlurboError Unit := do
  refuseWhen (tx.chainId ≠ 10143 ∨ d.chainId ≠ 10143) "not Monad testnet"
  refuseWhen (tx.value ≠ 0) "value must be zero"
  refuseWhen (lower tx.sender ≠ lower wallet) "the signer is not the agent wallet"
  let (name, args) ← decodeCall tx.data
  refuseWhen (name.text ≠ intent.action) "the method differs from the intent"
  if intent.action = "approve" then
    refuseWhen (lower tx.recipient ≠ collateralText) "approvals are only for test AUSD"
    match args with
    | spender :: amount :: _ =>
      refuseWhen (addressText spender ≠ d.pool) "the spender is not the pool"
      refuseWhen (¬ equals amount intent.limitAtoms ∨ amount.isZero ∨ gt amount (fromU128 serviceMax))
        "the approval amount is outside the service limit"
    | _                      => .error .panicked
  else
    refuseWhen (lower tx.recipient ≠ d.pool) "the contract is not the published pool"
    match args with
    | scope :: mask :: quantity :: rest =>
      refuseWhen (scope ≠ fromU128 intent.claim.scope.toNat ∨ mask ≠ fromU128 intent.claim.mask.toNat ∨
        ¬ equals quantity intent.quantityAtoms) "the claim or quantity differs from the intent"
      refuseWhen (¬ (checkClaim intent.claim.scope.toNat (Nat.toDigits 10 intent.claim.mask.toNat)
        d.eventCount.toNat).isOk) "the claim is not supported in this pool"
      refuseWhen (quantity.isZero ∨ gt quantity (fromU128 serviceMax)) "the quantity is outside the service limit"
      if intent.action = "buy" ∨ intent.action = "sell" then
        match rest with
        | limit :: when :: _ =>
          refuseWhen (¬ equals limit intent.limitAtoms ∨ gt limit (fromU128 serviceMax) ∨
            (intent.action = "buy" ∧ limit.isZero)) "the limit differs from the intent or the service limit"
          refuseWhen (when ≠ fromU128 intent.deadline.toNat ∨ d.closesAt ≤ intent.deadline)
            "the deadline differs from the intent or is after the close"
        | _                  => .error .panicked
    | _                                 => .error .panicked

-- The recipient and the calldata for an intent.
def callFor (d : PoolDeployment) (intent : Intent) : Except FlurboError (List Char × List Char) :=
  if intent.action = "approve" then do
    return (collateralText, ← encodeCall .approve [arg (.string d.pool), ← amount intent.limitAtoms])
  else if intent.action = "redeem" then do
    return (d.pool, ← encodeCall .redeem
      [arg (.unsigned intent.claim.scope), arg (.unsigned intent.claim.mask), ← amount intent.quantityAtoms])
  else if intent.action = "buy" then do
    return (d.pool, ← encodeCall .buy
      [arg (.unsigned intent.claim.scope), arg (.unsigned intent.claim.mask), ← amount intent.quantityAtoms,
        ← amount intent.limitAtoms, arg (.uint64 intent.deadline)])
  else if intent.action = "sell" then do
    return (d.pool, ← encodeCall .sell
      [arg (.unsigned intent.claim.scope), arg (.unsigned intent.claim.mask), ← amount intent.quantityAtoms,
        ← amount intent.limitAtoms, arg (.uint64 intent.deadline)])
  else
    .error (refuse "unknown action")

def buildTransaction (intent : Intent) (d : PoolDeployment) (wallet : List Char) :
    Except FlurboError UnsignedCall := do
  let (recipient, data) ← callFor d intent
  let tx : UnsignedCall := { chainId := 10143, sender := lower wallet, recipient, data, value := 0 }
  validateTransaction tx intent d wallet
  return tx

end Cpp

end Sdk
