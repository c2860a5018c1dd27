import Flurbo.Sdk.Evolution

-- The chain that the runtimes of a wallet read and send to. Blocks consume the nonces of the wallet in
-- order and are never undone.

open Evm Except

namespace Sdk

-- A transaction of the wallet in a block, without bytes if the journal has not signed it.
structure Mined where
  tx      : Option SignedTransaction
  success : Bool
  block   : ℕ
  deriving DecidableEq, Repr

-- The wallet had used `first` nonces when its journal began. Bytes that were ever sent may be included
-- by whoever has received them; the pool holds those that the queried node has.
structure Chain where
  head  : Block
  first : ℕ
  mined : List Mined
  sent  : List SignedTransaction
  pool  : List SignedTransaction
  deriving DecidableEq, Repr

namespace Chain

def initial (head : Block) (first : ℕ) : Chain := ⟨head, first, [], [], []⟩

variable (c : Chain)

def latest : ℕ := c.first + c.mined.length

def find (tx : SignedTransaction) : Option Mined := c.mined.find? (·.tx = some tx)

-- A transaction of the head block. Trades revert after their deadline.
def mine (tx : Option SignedTransaction × Bool) : Except Refusal Chain := do
  refuseIf (tx.1.any fun raw => raw ∉ c.sent ∨ raw.nonce ≠ c.latest ∨
    tx.2 ∧ raw.data.deadline?.any (c.head.timestamp > ·)) .outOfTurn
  return { c with mined := c.mined ++ [⟨tx.1, tx.2, c.head.number⟩] }

def extend (timestamp : ℤ) (txs : List (Option SignedTransaction × Bool)) : Except Refusal Chain := do
  refuseIf (timestamp < c.head.timestamp) .outOfTurn
  txs.foldlM mine { c with head := ⟨c.head.number + 1, timestamp⟩ }

end Chain

structure World where
  system : System
  chain  : Chain

inductive Happening
  | runtime (event : Event)
  | block (timestamp : ℤ) (txs : List (Option SignedTransaction × Bool))
  | receive (tx : SignedTransaction)
  | evict (tx : SignedTransaction)

namespace World

def initial (clock : ℤ) (head : Block) (first : ℕ) : World :=
  ⟨System.initial clock, Chain.initial head first⟩

variable (w : World)

-- The signed bytes of the entry that a task is about.
def bytes (n : ℕ) : Option SignedTransaction :=
  (w.system.tasks n).bind (·.entry.rawTransaction)

-- Whether an event carries what the chain answers at this time. A transaction that is mined is found;
-- one that is not may be found if it was ever sent. The pending count may reach over the transactions
-- that follow each other in the pool.
def answers : Event → Bool
  | .sign _ view _ _     => w.chain.latest ≤ view.pending ∧
    ∀ m < view.pending, w.chain.latest ≤ m → w.chain.pool.any (·.nonce = m)
  | .block _ head        => head = w.chain.head
  | .receipt n r         => (w.bytes n).all fun tx =>
    r.map (fun r => (r.success, r.blockNumber)) =
      (w.chain.find tx).map fun m => (m.success, m.block)
  | .transaction n found => (w.bytes n).all fun tx =>
    ((w.chain.find tx).isSome → found) ∧ (found → (w.chain.find tx).isSome ∨ tx ∈ w.chain.sent)
  | .nonce _ latest _ _  => latest = w.chain.latest
  | _                    => true

-- Sending lets bytes out, whatever becomes of the call. Only if it is accepted they are in the pool.
def sending : Event → Chain
  | .send n accepted =>
    { w.chain with sent := (w.bytes n).toList ++ w.chain.sent
                   pool := if accepted then (w.bytes n).toList ++ w.chain.pool else w.chain.pool }
  | _                => w.chain

def step (o : Options) (w : World) : Happening → Except Refusal World
  | .runtime event       => do
    refuseIf (¬ w.answers event) .outOfTurn
    let system ← Sdk.step o w.system event
    return ⟨system, w.sending event⟩
  | .block timestamp txs => do
    return { w with chain := ← w.chain.extend timestamp txs }
  | .receive tx          => do
    refuseIf (tx ∉ w.chain.sent) .outOfTurn
    return { w with chain := { w.chain with pool := tx :: w.chain.pool } }
  | .evict tx            =>
    return { w with chain := { w.chain with pool := w.chain.pool.filter (· ≠ tx) } }

end World

namespace Chain

variable {c c' : Chain} {tx : SignedTransaction} {timestamp : ℤ} {b : Bool}

-- The bytes are in a block, with the given outcome.
def Contains (c : Chain) (tx : SignedTransaction) (success : Bool) : Prop :=
  ∃ m ∈ c.mined, m.tx = some tx ∧ m.success = success

-- The nonces of the journal's transactions follow their order in the blocks.
structure Ordered (c : Chain) : Prop where
  nonce : ∀ (i : ℕ) m tx, c.mined[i]? = some m → m.tx = some tx → tx.nonce = c.first + i

-- What a block may change: it includes bytes under the next nonces, and executes nothing that its
-- timestamp makes revert.
structure Extends (c c' : Chain) (timestamp : ℤ) (txs : List (Option SignedTransaction × Bool)) :
    Prop where
  time    : c.head.timestamp ≤ timestamp
  head    : c'.head.timestamp = timestamp
  first   : c'.first = c.first
  latest  : c.latest ≤ c'.latest
  keeps   : ∀ tx b, c.Contains tx b → c'.Contains tx b
  adds    : ∀ tx b, c'.Contains tx b → c.Contains tx b ∨
              (some tx, b) ∈ txs ∧ c.latest ≤ tx.nonce ∧
                (b → ∀ d, tx.data.deadline? = some d → timestamp ≤ d)
  ordered : c.Ordered → c'.Ordered

theorem Ordered.initial {head : Block} {first : ℕ} : (Chain.initial head first).Ordered :=
  ⟨fun _ _ _ h => by simp [Chain.initial] at h⟩

theorem Ordered.lt (h : c.Ordered) (hc : c.Contains tx b) : tx.nonce < c.latest := by
  obtain ⟨m, hm, ht, _⟩ := hc
  obtain ⟨i, hi, rfl⟩ := List.mem_iff_getElem.mp hm
  have := h.nonce i _ tx (List.getElem?_eq_getElem hi) ht
  rw [latest]
  omega

-- A nonce is used once.
theorem Ordered.unique (h : c.Ordered) {b' : Bool} (hc : c.Contains tx b) (hc' : c.Contains tx b') :
    b = b' := by
  obtain ⟨m, hm, ht, rfl⟩ := hc
  obtain ⟨m', hm', ht', rfl⟩ := hc'
  obtain ⟨i, hi, rfl⟩ := List.mem_iff_getElem.mp hm
  obtain ⟨k, hk, rfl⟩ := List.mem_iff_getElem.mp hm'
  have h₁ := h.nonce i _ tx (List.getElem?_eq_getElem hi) ht
  have h₂ := h.nonce k _ tx (List.getElem?_eq_getElem hk) ht'
  cases (show i = k by omega)
  rfl

theorem find_some {m : Mined} (h : c.find tx = some m) : c.Contains tx m.success :=
  ⟨m, List.mem_of_find?_eq_some h, by simpa using List.find?_some h, rfl⟩

theorem find_none (h : c.find tx = none) : ¬ c.Contains tx b := by
  rintro ⟨m, hm, ht, _⟩
  have := List.find?_eq_none.mp h m hm
  simp [ht] at this

theorem find_isSome (h : c.Contains tx b) : (c.find tx).isSome := by
  by_contra hn
  exact find_none (by simpa using hn) h

theorem mine_extends {txs : List (Option SignedTransaction × Bool)} {m : Option SignedTransaction × Bool}
    {c₀ : Chain} (h₀ : Extends c₀ c timestamp txs) (hm : m ∈ txs) (h : c.mine m = .ok c') :
    Extends c₀ c' timestamp txs := by
  simp only [mine, bind_eq_ok, refuseIf_eq_ok, pure_eq_ok, ok.injEq] at h
  obtain ⟨_, hadm, rfl⟩ := h
  have hlatest : (Chain.latest { c with mined := c.mined ++ [⟨m.1, m.2, c.head.number⟩] }) = c.latest + 1 := by
    simp [latest, Nat.add_assoc]
  have hraw {tx : SignedTransaction} (ht : m.1 = some tx) : tx.nonce = c.latest ∧
      (m.2 → ∀ d, tx.data.deadline? = some d → c.head.timestamp ≤ d) := by
    simp only [ht, Option.any_some, decide_eq_true_eq, not_or, not_not, not_and] at hadm
    refine ⟨hadm.right.left, fun hs d hd => ?_⟩
    have := hadm.right.right hs
    simpa [hd] using this
  refine ⟨h₀.time, h₀.head, h₀.first, by rw [hlatest]; exact h₀.latest.trans (Nat.le_succ _), ?_, ?_, ?_⟩
  · intro tx b hc
    obtain ⟨m', hm', ht, hs⟩ := h₀.keeps tx b hc
    exact ⟨m', List.mem_append_left _ hm', ht, hs⟩
  · rintro tx b ⟨m', hm', ht, hs⟩
    rcases List.mem_append.mp hm' with hm' | hm'
    · exact h₀.adds tx b ⟨m', hm', ht, hs⟩
    · cases List.mem_singleton.mp hm'
      obtain ⟨hn, hd⟩ := hraw ht
      have hmem : (some tx, b) ∈ txs := by rw [← ht, ← hs]; exact hm
      exact .inr ⟨hmem, hn ▸ h₀.latest, fun hb => h₀.head ▸ hd (hs.trans hb)⟩
  · intro ho
    constructor
    intro i m' tx hi ht
    rcases Nat.lt_or_ge i c.mined.length with hlt | hge
    · rw [List.getElem?_append_left hlt] at hi
      exact (h₀.ordered ho).nonce i m' tx hi ht
    · rw [List.getElem?_append_right hge] at hi
      have hz : i = c.mined.length := by
        by_contra hne
        rw [List.getElem?_eq_none (by simp; omega)] at hi
        cases hi
      subst hz
      simp only [Nat.sub_self, List.getElem?_cons_zero, Option.some.injEq] at hi
      rw [← hi] at ht
      exact (hraw ht).left

theorem extend_eq_ok {txs : List (Option SignedTransaction × Bool)}
    (h : c.extend timestamp txs = .ok c') : Extends c c' timestamp txs := by
  simp only [extend, bind_eq_ok, refuseIf_eq_ok, not_lt] at h
  obtain ⟨_, ht, h⟩ := h
  have h₀ : Extends c { c with head := ⟨c.head.number + 1, timestamp⟩ } timestamp txs :=
    ⟨ht, rfl, rfl, le_rfl, fun _ _ h => h, fun _ _ h => .inl h, fun h => ⟨h.nonce⟩⟩
  have hall (l : List (Option SignedTransaction × Bool)) (hl : ∀ m ∈ l, m ∈ txs) (c₁ : Chain)
      (h₁ : Extends c c₁ timestamp txs) (h : l.foldlM mine c₁ = .ok c') : Extends c c' timestamp txs := by
    induction l generalizing c₁
    case nil         => cases h; exact h₁
    case cons m l hi =>
      simp only [List.foldlM_cons, bind_eq_ok] at h
      obtain ⟨c₂, hm, h⟩ := h
      exact hi (fun m hm => hl m (List.mem_cons_of_mem _ hm)) c₂
        (mine_extends h₁ (hl m List.mem_cons_self) hm) h
  exact hall txs (fun _ h => h) _ h₀ h

-- Whatever only changes who has received which bytes.
theorem Extends.of_eq (hh : c'.head = c.head) (hf : c'.first = c.first) (hm : c'.mined = c.mined) :
    Extends c c' c.head.timestamp [] where
  time    := le_rfl
  head    := congrArg _ hh
  first   := hf
  latest  := by rw [Chain.latest, Chain.latest, hf, hm]
  keeps   := by
    intro tx b h
    rw [Contains, hm]
    exact h
  adds    := by
    intro tx b h
    rw [Contains, hm] at h
    exact .inl h
  ordered := fun h => ⟨by rw [hm, hf]; exact h.nonce⟩

theorem extend_sent {txs : List (Option SignedTransaction × Bool)}
    (h : c.extend timestamp txs = .ok c') : c'.sent = c.sent ∧ c'.pool = c.pool := by
  simp only [extend, bind_eq_ok] at h
  obtain ⟨_, _, h⟩ := h
  have hall (l : List (Option SignedTransaction × Bool)) (c₁ : Chain) (h : l.foldlM mine c₁ = .ok c') :
      c'.sent = c₁.sent ∧ c'.pool = c₁.pool := by
    induction l generalizing c₁
    case nil         => cases h; exact ⟨rfl, rfl⟩
    case cons m l hi =>
      simp only [List.foldlM_cons, bind_eq_ok, mine, pure_eq_ok, ok.injEq] at h
      obtain ⟨c₂, ⟨_, _, rfl⟩, h⟩ := h
      have hrest := hi _ h
      exact hrest
  have h := hall txs _ h
  exact h

end Chain

namespace World

variable {o : Options} {w w' : World} {happening : Happening} {event : Event}

theorem sending_extends : w.chain.Extends (w.sending event) w.chain.head.timestamp [] := by
  cases event <;> exact .of_eq rfl rfl rfl

inductive Stepped (o : Options) (w : World) : Happening → World → Prop
  | runtime (event system) (ha : w.answers event) (hs : Sdk.Stepped o w.system event system) :
    Stepped o w (.runtime event) ⟨system, w.sending event⟩
  | block (timestamp txs chain) (hc : w.chain.Extends chain timestamp txs)
    (hs : chain.sent = w.chain.sent ∧ chain.pool = w.chain.pool) :
    Stepped o w (.block timestamp txs) { w with chain }
  | receive (tx) (hs : tx ∈ w.chain.sent) :
    Stepped o w (.receive tx) { w with chain := { w.chain with pool := tx :: w.chain.pool } }
  | evict (tx) :
    Stepped o w (.evict tx) { w with chain := { w.chain with pool := w.chain.pool.filter (· ≠ tx) } }

theorem step_eq_ok (h : w.step o happening = .ok w') : Stepped o w happening w' := by
  cases happening
  case runtime event       =>
    simp only [step, bind_eq_ok, refuseIf_eq_ok, pure_eq_ok, ok.injEq, not_not] at h
    obtain ⟨_, ha, system, hs, rfl⟩ := h
    exact .runtime event system ha (Sdk.step_eq_ok hs)
  case block timestamp txs =>
    simp only [step, bind_eq_ok, pure_eq_ok, ok.injEq] at h
    obtain ⟨chain, hc, rfl⟩ := h
    exact .block _ _ _ (Chain.extend_eq_ok hc) (Chain.extend_sent hc)
  case receive tx          =>
    simp only [step, bind_eq_ok, refuseIf_eq_ok, pure_eq_ok, ok.injEq, not_not] at h
    obtain ⟨_, hs, rfl⟩ := h
    exact .receive tx hs
  case evict tx            =>
    cases h
    exact .evict tx

end World

end Sdk
