import Flurbo.Contracts.Resolvers.PilotResolver
import Flurbo.Library.Words

-- The resolver that only lets members dispute who hold a claim on the event.

open Evm Except Resolvers

namespace AccountPilotResolver

variable {D : Dependencies}

structure Eligibility where
  accountCommitment : ℕ
  challenger        : Address
  holder            : Address
  scope             : ℕ
  mask              : ℕ
  wrapped           : Bool
  nonce             : ℕ
  deadline          : ℕ

-- The hash function, the digest of a struct's hash in the domain of the contract, and the account that signed a
-- digest.
structure Cryptography where
  keccak256       : List UInt8 → ℕ
  hashTypedDataV4 : (structHash : ℕ) → ℕ
  recover         : (digest : ℕ) → (signature : List UInt8) → Sol Address

-- `uint8(outcome)`
def outcomeCode : Outcome → ℕ
  | .unset => 0
  | .no    => 1
  | .yes   => 2
  | .void  => 3

-- `abi.encode` of values that take a word each.
def abiEncode (words : List ℕ) : List UInt8 := (words.flatMap (Words.fixed 256 32)).map UInt8.ofNat

namespace Cryptography

variable (crypto : Cryptography)

def eligibilityTypehash : ℕ :=
  crypto.keccak256 ("Eligibility(bytes32 accountCommitment,address challenger,address holder,uint32 scope," ++
    "uint256 mask,bool wrapped,uint256 nonce,uint64 deadline,uint8 eventIndex,uint8 alternative," ++
    "bytes32 evidenceHash,bytes32 evidenceURIHash)").toUTF8.toList

def eligibilityWords (d : Challenge) (e : Eligibility) : List ℕ :=
  [crypto.eligibilityTypehash, e.accountCommitment, e.challenger, e.holder, e.scope, e.mask, e.wrapped.toNat, e.nonce,
    e.deadline, d.eventIndex, outcomeCode d.alternative, d.evidenceHash, crypto.keccak256 d.evidenceURI]

def eligibilityDigest (d : Challenge) (e : Eligibility) : ℕ :=
  crypto.hashTypedDataV4 (crypto.keccak256 (abiEncode (crypto.eligibilityWords d e)))

end Cryptography

abbrev UsedEligibility := ℕ → Bool

def construct (chain : Chain) (self sender : Address) (rulesHash : ℕ) (c : Config) (authority : Address) :
    Sol Resolver := do
  revertIf (authority = 0 ∨ authority = sender) .invalidConfig
  Resolvers.construct [0, authority] chain self sender rulesHash c

-- The number of events in the scope, and the bit of the event in local states.
def localBitOf (eventCount eventIndex scope : ℕ) : ℕ × ℕ :=
  (List.range eventCount).foldl (fun (width, localBit) i =>
    if scope &&& 1 <<< i ≠ 0 then
      (width + 1, if i = eventIndex then 1 <<< width else localBit)
    else
      (width, localBit)) (0, 0)

-- Whether the claim pays differently if only the event changes.
def isDependent (width localBit mask : ℕ) : Bool :=
  (List.range (1 <<< width)).any fun state =>
    (mask >>> state) &&& 1 ≠ (mask >>> (state ^^^ localBit)) &&& 1

section Shares

variable {ε : Type} (site : Site) (w : World D ε)

def tokenAddress (scope mask : ℕ) : Address :=
  match w.pool.baseTokens ⟨scope, mask⟩ with
  | some token => token.address
  | none       => 0

-- `IERC20(token).balanceOf(holder) > 0` for a receipt of the pool.
def holdsReceipt (holder : Address) (scope mask : ℕ) : Bool :=
  match w.pool.baseTokens ⟨scope, mask⟩ with
  | some token => token.address ≠ 0 ∧ D.receipt.balanceOf token.state holder > 0
  | none       => false

def hasQualifyingShares (holder : Address) (eventIndex scope mask : ℕ) (wrapped : Bool) : Sol Bool :=
  let r := site.resolver
  if w.resolver.pool = none ∨ holder = 0 ∨ holder = site.pool.self ∨ holder = r.self ∨
      eventIndex ≥ r.eventCount ∨ scope >>> r.eventCount ≠ 0 ∨ scope &&& 1 <<< eventIndex = 0 then
    return false
  else do
    let _ ← FactoredPositions.key scope mask
    let (width, localBit) := localBitOf r.eventCount eventIndex scope
    if ¬ isDependent width localBit mask then
      return false
    else if holder = tokenAddress w (1 <<< eventIndex) 2 ∨ holder = tokenAddress w (1 <<< eventIndex) 1 then
      return false
    else if wrapped then
      if scope ≠ 1 <<< eventIndex ∨ (mask ≠ 1 ∧ mask ≠ 2) then
        return false
      else
        return holdsReceipt w holder scope mask
    else do
      let held ← FactoredPositions.balance w.pool.positions holder scope mask
      return held > 0

end Shares

section Variant

variable (crypto : Cryptography) (eligibilitySigner : Address)

-- The eligibility is for this dispute, is fresh and unused, was signed by the authority, and names
-- a holder. The checks are made one after another.
def check (site : Site) (tx : Tx site) (w : World D UsedEligibility) (d : Challenge) (c : Case)
    (permit : Eligibility × List UInt8) : Sol UsedEligibility := do
  let e := permit.1
  revertIf (e.challenger ≠ tx.sender ∨ e.accountCommitment = 0 ∨ e.deadline ≤ tx.timestamp) .invalidEligibility
  let latest ← checkedAdd 256 tx.timestamp 120
  revertIf (e.deadline > latest ∨ e.deadline > c.challengeUntil ∨ w.resolver.ext e.nonce)
    .invalidEligibility
  let signer ← crypto.recover (crypto.eligibilityDigest d e) permit.2
  revertIf (signer ≠ eligibilitySigner) .invalidEligibility
  let qualifies ← hasQualifyingShares site w e.holder d.eventIndex e.scope e.mask e.wrapped
  revertIf (¬ qualifies) .invalidEligibility
  return Function.update w.resolver.ext e.nonce true

def variant : Variant D UsedEligibility (Eligibility × List UInt8) where
  check := check crypto eligibilitySigner

end Variant

end AccountPilotResolver
