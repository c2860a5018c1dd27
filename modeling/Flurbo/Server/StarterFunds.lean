import Flurbo.Contracts.Evm
import Flurbo.Library.Account
import Flurbo.Library.Run

-- The service that pays new members test funds. Any number of calls run at once; every Redis command
-- and every answer of the chain is one step. Logins and targets are addresses, and other strings are
-- refused before the first step.

open Evm Except

namespace StarterFunds

structure Config where
  amount     : ℕ
  dailyLimit : ℕ

def lowBalance : ℕ := 10 ^ 17

def Config.low (cfg : Config) : ℕ := if lowBalance < cfg.amount then lowBalance else cfg.amount

-- Signed bytes. They stand for their own hash.
structure Payment where
  target : Address
  value  : ℕ
  nonce  : ℕ
  fees   : ℕ
  deriving DecidableEq, Repr

inductive Record
  | reserved (target : Address)
  | sent (wallet : Address) (hash : Payment) (time : ℤ)
  deriving DecidableEq, Repr

-- The keys of the service in Redis.
structure Store where
  account : Address → Option Record
  wallet  : Address → Option Address
  unsent  : Address → Option Payment
  day     : ℤ → ℤ

inductive Refusal
  | wrongNetwork | hasMon | alreadySent | walletPaid | dailyLimit | notSent | unavailable
  deriving DecidableEq, Repr

-- What a call of `send` does next, with the day that it counts for and the bytes that it has at hand.
inductive Phase
  | network
  | balance
  | reserveAccount
  | reserveWallet
  | dropAccount
  | increment
  | expireDay (day : ℤ) (count : ℤ)
  | decrement (day : ℤ)
  | refuse
  | getKept (day : ℤ)
  | lookKept (day : ℤ) (saved : Payment)
  | countKept (day : ℤ) (saved : Payment)
  | dropKept (day : ℤ)
  | prepare (day : ℤ)
  | broadcast (day : ℤ) (raw : Payment)
  | arrive (day : ℤ) (raw : Payment) (looks : ℕ)
  | keep (day : ℤ) (raw : Payment)
  | release (day : ℤ)
  | uncount (day : ℤ)
  | forget (hash : Payment)
  | record (hash : Payment)
  | paid (hash : Payment)
  | refused (reason : Refusal)
  deriving DecidableEq, Repr

structure Call where
  login  : Address
  target : Address
  phase  : Phase
  deriving DecidableEq, Repr

-- `sent` are the bytes that were broadcast, each with the login of the call that did so.
structure State where
  store : Store
  chain : Account Payment
  sent  : List (Address × Payment)
  calls : ℕ → Option Call

def State.initial (first : ℕ) : State :=
  ⟨⟨fun _ => none, fun _ => none, fun _ => none, fun _ => 0⟩, ⟨first, []⟩, [], fun _ => none⟩

-- A command or a broadcast succeeds, or fails, or takes effect although it seems to fail.
inductive Fate
  | done | failed | lost
  deriving DecidableEq, Repr

-- Events carry the number of the call and what it is answered. Answers of the chain may be missing.
inductive Event
  | send (n : ℕ) (login target : Address)
  | network (n : ℕ) (chainId : Option ℕ)
  | balance (n : ℕ) (wei : Option ℕ)
  | command (n : ℕ) (fate : Fate) (now : ℤ)
  | lookup (n : ℕ) (found : Bool)
  | latest (n : ℕ) (count : Option ℕ)
  | prepare (n : ℕ) (request : Option (ℕ × ℕ))
  | broadcast (n : ℕ) (fate : Fate)
  | crash (n : ℕ)
  | expire (target : Address)
  | mine (tx : Option Payment)
  deriving DecidableEq, Repr

namespace Store

variable (st : Store)

def setAccount (login : Address) (record : Option Record) : Store :=
  { st with account := Function.update st.account login record }

def setWallet (target : Address) (login : Option Address) : Store :=
  { st with wallet := Function.update st.wallet target login }

def setUnsent (target : Address) (raw : Option Payment) : Store :=
  { st with unsent := Function.update st.unsent target raw }

def add (day n : ℤ) : Store := { st with day := Function.update st.day day (st.day day + n) }

end Store

def dayOf (now : ℤ) : ℤ := now / 86_400_000

-- The Redis command of a phase: the store after it, what follows, and what follows if it throws.
def command (cfg : Config) (st : Store) (c : Call) (now : ℤ) : Phase → Option (Store × Phase × Phase)
  | .reserveAccount      =>
    if st.account c.login = none then
      some (st.setAccount c.login (some (.reserved c.target)), .reserveWallet, .refused .unavailable)
    else some (st, .refused .alreadySent, .refused .unavailable)
  | .reserveWallet       =>
    if st.wallet c.target = none then
      some (st.setWallet c.target (some c.login), .increment, .refused .unavailable)
    else some (st, .dropAccount, .refused .unavailable)
  | .dropAccount         => some (st.setAccount c.login none, .refused .walletPaid, .refused .unavailable)
  | .increment           =>
    let day := dayOf now
    some (st.add day 1, .expireDay day (st.day day + 1), .refused .unavailable)
  | .expireDay day count =>
    some (st, if count > cfg.dailyLimit then .decrement day else .getKept day, .refused .unavailable)
  | .decrement day       => some (st.add day (-1), .refuse, .refused .unavailable)
  | .refuse              =>
    some ((st.setAccount c.login none).setWallet c.target none, .refused .dailyLimit, .refused .unavailable)
  | .getKept day         =>
    some (st, (st.unsent c.target).elim (.prepare day) (.lookKept day), .release day)
  | .dropKept day        => some (st.setUnsent c.target none, .prepare day, .release day)
  | .keep day raw        => some (st.setUnsent c.target (some raw), .release day, .refused .unavailable)
  | .release day         =>
    some ((st.setAccount c.login none).setWallet c.target none, .uncount day, .refused .unavailable)
  | .uncount day         => some (st.add day (-1), .refused .notSent, .refused .unavailable)
  | .forget hash         => some (st.setUnsent c.target none, .record hash, .refused .unavailable)
  | .record hash         =>
    some (st.setAccount c.login (some (.sent c.target hash now)), .paid hash, .refused .unavailable)
  | _                    => none

namespace State

variable (s : State)

def set (n : ℕ) (c : Option Call) : State := { s with calls := Function.update s.calls n c }

def enter (n : ℕ) (c : Call) (phase : Phase) : State := s.set n (some { c with phase })

end State

section Step

variable (cfg : Config)

-- What an answer of the chain leads to.
def answer (c : Call) : Phase → Event → Option Phase
  | .network, .network _ id            =>
    some <| match id with
      | none    => .refused .unavailable
      | some id => if id ≠ 10143 then .refused .wrongNetwork else .balance
  | .balance, .balance _ wei           =>
    some <| match wei with
      | none     => .refused .unavailable
      | some wei => if wei ≥ cfg.low then .refused .hasMon else .reserveAccount
  | .lookKept day saved, .lookup _ found =>
    some <| if found then .forget saved else .countKept day saved
  | .countKept day saved, .latest _ count =>
    some <| match count with
      | none       => .release day
      | some count => if count > saved.nonce then .dropKept day else .broadcast day saved
  | .prepare day, .prepare _ request   =>
    some <| match request with
      | none               => .release day
      | some (nonce, fees) => .broadcast day ⟨c.target, cfg.amount, nonce, fees⟩
  | .arrive day raw looks, .lookup _ found =>
    some <| if found then .forget raw else if looks ≤ 1 then .keep day raw else .arrive day raw (looks - 1)
  | _, _                               => none

def Event.call : Event → ℕ
  | send n .. | network n _ | balance n _ | command n .. | lookup n _ | latest n _ | prepare n _
  | broadcast n _ | crash n => n
  | expire _ | mine _       => 0

-- After a failed broadcast the bytes are looked for four times.
def next (s : State) (n : ℕ) (c : Call) : Event → Except Unit State
  | .command _ fate now =>
    match command cfg s.store c now c.phase with
    | none                          => .error ()
    | some (store, answered, thrown) =>
      return { s.enter n c (if fate = .done then answered else thrown) with
               store := if fate = .failed then s.store else store }
  | .broadcast _ fate   =>
    match c.phase with
    | .broadcast day raw =>
      return { s.enter n c (if fate = .done then .forget raw else .arrive day raw 4) with
               sent := if fate = .failed then s.sent else (c.login, raw) :: s.sent }
    | _                  => .error ()
  | event               =>
    match answer cfg c c.phase event with
    | none       => .error ()
    | some phase => return s.enter n c phase

def step (s : State) : Event → Except Unit State
  | .send n login target =>
    if (s.calls n).isSome then .error () else return s.set n (some ⟨login, target, .network⟩)
  | .crash n             => return s.set n none
  | .expire target       => return { s with store := s.store.setUnsent target none }
  | .mine tx             =>
    if tx.any fun raw => raw ∉ s.sent.map (·.2) ∨ raw.nonce ≠ s.chain.count then .error ()
    else return { s with chain := s.chain.mine tx }
  | event                =>
    match s.calls event.call with
    | none   => .error ()
    | some c => next cfg s event.call c event

end Step

end StarterFunds
