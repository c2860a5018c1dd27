import Flurbo.Contracts.Evm
import Flurbo.Library.Program

-- The wallets of runtime agents and the wallets that accounts link for manual trading, on one origin
-- with Redis. A request that does not get a lock ends; its token is its number.

open Evm

namespace AgentWallets

structure Holder where
  owner   : Address
  agentId : ℕ
  deriving DecidableEq, Repr

-- An entry of `walletHistory`.
structure Association where
  address   : Address
  fromTime  : ℤ
  untilTime : Option ℤ
  deriving DecidableEq, Repr

structure Profile where
  archived      : Bool
  wallet        : Option Address
  walletHistory : List Association
  deriving DecidableEq, Repr

structure LinkChallenge where
  login   : Address
  wallet  : Address
  session : ℕ
  expires : ℤ
  deriving DecidableEq, Repr

structure WalletChallenge where
  account : Address
  agentId : ℕ
  wallet  : Address
  session : ℕ
  expires : ℤ
  deriving DecidableEq, Repr

-- The keys in Redis, how many random ids were drawn, and whose profiles were ever written.
structure Store where
  profile         : Holder → Option Profile
  index           : Address → List ℕ
  archived        : Address → List ℕ
  lock            : Address → Option ℕ
  agentWallet     : Address → Option Holder
  linkOwner       : Address → Option Address
  linked          : Address → List Address
  linkChallenge   : ℕ → Option LinkChallenge
  walletChallenge : ℕ → Option WalletChallenge
  drawn           : ℕ
  agents          : List Holder

def Store.empty : Store where
  profile _         := none
  index _           := []
  archived _        := []
  lock _            := none
  agentWallet _     := none
  linkOwner _       := none
  linked _          := []
  linkChallenge _   := none
  walletChallenge _ := none
  drawn             := 0
  agents            := []

-- `claimKeyUnless` names the time that its caller read; Redis does not look at it.
inductive Command
  | now
  | randomId
  | verifyMessage (wallet : Address)
  | countChallenges (session : ℕ)
  | lock (account : Address) (token : ℕ)
  | unlock (account : Address) (token : ℕ)
  | getIndex (account : Address)
  | setIndex (account : Address) (ids : List ℕ)
  | getArchived (account : Address)
  | setArchived (account : Address) (ids : List ℕ)
  | getProfile (h : Holder)
  | setProfile (h : Holder) (p : Profile)
  | getAgentWallet (wallet : Address)
  | claimKeyUnless (wallet : Address) (h : Holder) (time : ℤ)
  | releaseKey (wallet : Address) (h : Holder)
  | getLinkOwner (wallet : Address)
  | link (login wallet : Address)
  | setLinkChallenge (id : ℕ) (c : LinkChallenge)
  | takeLinkChallenge (id : ℕ)
  | putChallenge (id : ℕ) (c : WalletChallenge)
  | takeChallenge (id : ℕ)

@[reducible]
def Reply : Command → Type
  | .now                 => ℤ
  | .randomId            => ℕ
  | .verifyMessage _     => Bool
  | .countChallenges _   => ℕ
  | .lock ..             => Bool
  | .getIndex _          => List ℕ
  | .getArchived _       => List ℕ
  | .getProfile _        => Option Profile
  | .getAgentWallet _    => Option Holder
  | .claimKeyUnless ..   => ℤ
  | .getLinkOwner _      => Option Address
  | .link ..             => ℤ
  | .takeLinkChallenge _ => Option LinkChallenge
  | .takeChallenge _     => Option WalletChallenge
  | _                    => Unit

namespace Store

variable (s : Store)

def setProfile (h : Holder) (p : Profile) : Store :=
  { s with profile := Function.update s.profile h (some p), agents := s.agents.insert h }

def setLock (account : Address) (token : Option ℕ) : Store :=
  { s with lock := Function.update s.lock account token }

def setAgentWallet (wallet : Address) (h : Option Holder) : Store :=
  { s with agentWallet := Function.update s.agentWallet wallet h }

def addLink (login wallet : Address) : Store :=
  { s with linkOwner := Function.update s.linkOwner wallet (some login)
           linked    := Function.update s.linked login ((s.linked login).insert wallet) }

-- The answer of the script that links a wallet.
def linkCode (login wallet : Address) : ℤ :=
  if (s.agentWallet wallet).isSome then -3
  else if (s.linkOwner wallet).any (· ≠ login) then -1
  else if wallet ∉ s.linked login ∧ (s.linked login).length ≥ 20 then -2
  else 1

def claimCode (wallet : Address) (h : Holder) : ℤ :=
  if (s.linkOwner wallet).isSome then -1
  else if (s.agentWallet wallet).any (· ≠ h) then 0
  else 1

-- The store after a command, and its reply. Times, signatures and rate limits are answered by the
-- environment, with `answer`.
def perform : (c : Command) → Reply c → Store × Reply c
  | .now, answer                 => (s, answer)
  | .randomId, _                 => ({ s with drawn := s.drawn + 1 }, s.drawn)
  | .verifyMessage _, answer     => (s, answer)
  | .countChallenges _, answer   => (s, answer)
  | .lock account token, _       =>
    if s.lock account = none then (s.setLock account (some token), true) else (s, false)
  | .unlock account token, _     =>
    if s.lock account = some token then (s.setLock account none, ()) else (s, ())
  | .getIndex account, _         => (s, s.index account)
  | .setIndex account ids, _     => ({ s with index := Function.update s.index account ids }, ())
  | .getArchived account, _      => (s, s.archived account)
  | .setArchived account ids, _  => ({ s with archived := Function.update s.archived account ids }, ())
  | .getProfile h, _             => (s, s.profile h)
  | .setProfile h p, _           => (s.setProfile h p, ())
  | .getAgentWallet wallet, _    => (s, s.agentWallet wallet)
  | .claimKeyUnless wallet h _, _ =>
    (if s.claimCode wallet h = 1 then s.setAgentWallet wallet (some h) else s, s.claimCode wallet h)
  | .releaseKey wallet h, _      =>
    (if s.agentWallet wallet = some h then s.setAgentWallet wallet none else s, ())
  | .getLinkOwner wallet, _      => (s, s.linkOwner wallet)
  | .link login wallet, _        =>
    (if s.linkCode login wallet = 1 then s.addLink login wallet else s, s.linkCode login wallet)
  | .setLinkChallenge id c, _    =>
    ({ s with linkChallenge := Function.update s.linkChallenge id (some c) }, ())
  | .takeLinkChallenge id, _     =>
    ({ s with linkChallenge := Function.update s.linkChallenge id none }, s.linkChallenge id)
  | .putChallenge id c, _        =>
    ({ s with walletChallenge := Function.update s.walletChallenge id (some c) }, ())
  | .takeChallenge id, _         =>
    ({ s with walletChallenge := Function.update s.walletChallenge id none }, s.walletChallenge id)

end Store

inductive Refusal
  | unavailable | busy | agentLimit | notFound | archived | invalidInput | conflict | walletLinked
  | walletInUse | tooMany | rejected | linkedElsewhere | walletLimit
  deriving DecidableEq, Repr

abbrev Action := Program Reply Refusal

open Program (ensure)

def send (c : Command) : Action (Reply c) := Program.call c

def locking (n : ℕ) (account : Address) : ℕ → Action Unit
  | 0            => .fail .busy
  | attempts + 1 => do
    if ← send (.lock account n) then return
    locking n account attempts

-- Mutations of one account take turns.
def locked (n : ℕ) (account : Address) (fn : Action Unit) : Action Unit := do
  locking n account 40
  fn.ensure (send (.unlock account n))

def create (n : ℕ) (account : Address) : Action Unit :=
  locked n account do
    let ids ← send (.getIndex account)
    let archived ← send (.getArchived account)
    if ids.length ≥ 10 then .fail .agentLimit
    else if ids.length + archived.length ≥ 50 then .fail .agentLimit
    else do
      let id ← send .randomId
      send (.setProfile ⟨account, id⟩ ⟨false, none, []⟩)
      send (.setIndex account (ids ++ [id]))

-- An open association ends.
def Association.close (time : ℤ) (w : Association) : Association :=
  if w.untilTime = none then { w with untilTime := some time } else w

def release (h : Holder) : Option Address → Action Unit
  | none        => return
  | some wallet => send (.releaseKey wallet h)

def archive (n : ℕ) (h : Holder) (time : ℤ) : Action Unit :=
  locked n h.owner do
    let ids ← send (.getIndex h.owner)
    match ← send (.getProfile h) with
    | none         => return
    | some profile =>
      if h.agentId ∉ ids then return
      else do
        let history := profile.walletHistory.map (·.close time)
        release h profile.wallet
        send (.setProfile h ⟨true, none, history⟩)
        let archived ← send (.getArchived h.owner)
        send (.setArchived h.owner (archived ++ [h.agentId]))
        send (.setIndex h.owner (ids.filter (· ≠ h.agentId)))

def associateWallet (n : ℕ) (h : Holder) (wallet : Address) (time : ℤ) : Action Unit :=
  locked n h.owner do
    match ← send (.getProfile h) with
    | none         => .fail .notFound
    | some profile =>
      if profile.archived then .fail .archived
      else if profile.wallet = some wallet then return
      else do
        let claimed ← send (.claimKeyUnless wallet h time)
        if claimed = -1 then .fail .walletLinked
        else if claimed ≠ 1 then .fail .walletInUse
        else do
          release h profile.wallet
          let history := profile.walletHistory.map (·.close time) ++ [⟨wallet, time, none⟩]
          send (.setProfile h { profile with wallet := some wallet, walletHistory := history })

section Requests

variable (reserved : Address → Bool)

def walletChallenge (login : Address) (agentId : ℕ) (wallet : Address) (session : ℕ) :
    Action Unit := do
  match ← send (.getProfile ⟨login, agentId⟩) with
  | none         => .fail .notFound
  | some profile =>
    if profile.archived then .fail .archived
    else if wallet = login ∨ reserved wallet then .fail .invalidInput
    else do
      if (← send (.getLinkOwner wallet)).isSome then .fail .invalidInput
      else do
        let holder ← send (.getAgentWallet wallet)
        if holder.any (·.agentId ≠ agentId) then .fail .conflict
        else do
          let id ← send .randomId
          let issued ← send .now
          send (.putChallenge id ⟨login, agentId, wallet, session, issued + 300⟩)

-- The time is read before the lock is taken.
def walletVerify (n : ℕ) (login : Address) (agentId id session : ℕ) : Action Unit := do
  if (← send (.getProfile ⟨login, agentId⟩)).isNone then .fail .notFound
  else match ← send (.takeChallenge id) with
  | none       => .fail .invalidInput
  | some proof =>
    let now ← send .now
    if proof.account ≠ login ∨ proof.agentId ≠ agentId ∨ proof.session ≠ session ∨ proof.expires ≤ now then
      .fail .invalidInput
    else if !(← send (.verifyMessage proof.wallet)) then .fail .invalidInput
    else do
      if (← send (.getLinkOwner proof.wallet)).isSome then .fail .invalidInput
      else do
        let time ← send .now
        associateWallet n ⟨login, agentId⟩ proof.wallet time

def linkChallenge (login wallet : Address) (session : ℕ) : Action Unit := do
  if wallet = login then .fail .invalidInput
  else if (← send (.getAgentWallet wallet)).isSome then .fail .invalidInput
  else if (← send (.countChallenges session)) > 10 then .fail .tooMany
  else do
    let id ← send .randomId
    let now ← send .now
    send (.setLinkChallenge id ⟨login, wallet, session, now + 300000⟩)

def linkVerify (login : Address) (id session : ℕ) : Action Unit := do
  match ← send (.takeLinkChallenge id) with
  | none       => .fail .rejected
  | some proof =>
    let now ← send .now
    if proof.login ≠ login ∨ proof.session ≠ session ∨ proof.expires ≤ now then .fail .rejected
    else if !(← send (.verifyMessage proof.wallet)) then .fail .rejected
    else if (← send (.getAgentWallet proof.wallet)).isSome then .fail .invalidInput
    else do
      let result ← send (.link login proof.wallet)
      if result = -3 then .fail .invalidInput
      else if result = -1 then .fail .linkedElsewhere
      else if result ≠ 1 then .fail .walletLimit

inductive Request
  | create (login : Address)
  | delete (login : Address) (agentId : ℕ)
  | walletChallenge (login : Address) (agentId : ℕ) (wallet : Address) (session : ℕ)
  | walletVerify (login : Address) (agentId id session : ℕ)
  | linkChallenge (login wallet : Address) (session : ℕ)
  | linkVerify (login : Address) (id session : ℕ)
  deriving DecidableEq, Repr

def handle (n : ℕ) : Request → Action Unit
  | .create login                               => create n login
  | .delete login agentId                       => do archive n ⟨login, agentId⟩ (← send .now)
  | .walletChallenge login agentId wallet session =>
    AgentWallets.walletChallenge reserved login agentId wallet session
  | .walletVerify login agentId id session      => AgentWallets.walletVerify n login agentId id session
  | .linkChallenge login wallet session         => AgentWallets.linkChallenge login wallet session
  | .linkVerify login id session                => AgentWallets.linkVerify login id session

def service : Program.Service Store Reply Refusal Request Empty where
  perform := Store.perform
  broken  := .unavailable
  code    := handle reserved
  drift s _ := s

end Requests

-- Whether a wallet was an agent's at a time, by the history of its profile.
def walletAt (history : List Association) (address : Address) (time : ℤ) : Prop :=
  ∃ w ∈ history, w.address = address ∧ w.fromTime ≤ time ∧ ∀ u ∈ w.untilTime, time < u

end AgentWallets
