import Flurbo.Library.Fallible

-- Claims on a cluster of one to three events: one bit for each terminal state that they pay in.

inductive PayoffError
  | unsupportedEventCount | invalidEvent | invalidState | outOfRangeMask | differentStateSpaces
  | constantClaim | invalidPartition
  deriving DecidableEq, Repr

namespace Payoff

def stateCountOf (events : ℕ) : ℕ := 1 <<< events

def fullMaskOf (events : ℕ) : BitVec 8 :=
  ((1#16 <<< stateCountOf events) - 1#16).truncate 8

end Payoff

structure Payoff where
  events  : ℕ
  mask    : BitVec 8
  count   : 1 ≤ events ∧ events ≤ 3
  inRange : mask &&& ~~~Payoff.fullMaskOf events = 0#8
  deriving DecidableEq

namespace Payoff

def new (events : ℕ) (mask : BitVec 8) : Except PayoffError Payoff :=
  if hc : 1 ≤ events ∧ events ≤ 3 then
    if hr : mask &&& ~~~fullMaskOf events = 0#8 then .ok ⟨events, mask, hc, hr⟩
    else .error .outOfRangeMask
  else .error .unsupportedEventCount

def stateCount (p : Payoff) : ℕ := stateCountOf p.events

def fullMask (p : Payoff) : BitVec 8 := fullMaskOf p.events

def ensureSameSpace (p q : Payoff) : Except PayoffError Unit :=
  if p.events ≠ q.events then .error .differentStateSpaces else .ok ()

def union (p q : Payoff) : Except PayoffError Payoff := do
  p.ensureSameSpace q
  new p.events (p.mask ||| q.mask)

def validateTradable (p : Payoff) : Except PayoffError Unit :=
  if p.mask = 0#8 ∨ p.mask = p.fullMask then .error .constantClaim else .ok ()

-- Bit `x` is set iff the claim pays one unit in state `x`.
def pays (mask : BitVec 8) (x : ℕ) : Bool :=
  mask &&& (1#8 <<< x) ≠ 0#8

variable {p q r : Payoff} {events : ℕ} {mask : BitVec 8}

theorem new_eq_ok (h : new events mask = .ok p) : p.events = events ∧ p.mask = mask := by
  unfold new at h
  split at h
  case isFalse => cases h
  case isTrue  =>
    split at h
    case isTrue  => cases h; exact ⟨rfl, rfl⟩
    case isFalse => cases h

-- Claims of another event count are on other states.
theorem union_eq_ok (h : p.union q = .ok r) : p.events = q.events := by
  simp only [union, Except.bind_eq_ok] at h
  obtain ⟨_, hs, _⟩ := h
  unfold ensureSameSpace at hs
  split at hs
  case isTrue     => cases hs
  case isFalse he => exact not_ne_iff.mp he

theorem validateTradable_eq_ok :
    p.validateTradable = .ok () ↔ p.mask ≠ 0#8 ∧ p.mask ≠ p.fullMask := by
  unfold validateTradable
  split
  case isTrue h  => exact iff_of_false (by simp) fun ⟨h₀, h₁⟩ => h.elim h₀ h₁
  case isFalse h => exact iff_of_true rfl <| not_or.mp h

end Payoff
