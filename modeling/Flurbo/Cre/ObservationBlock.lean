import Flurbo.Library.Fallible

-- The search for the first block at or after the observation time, by header reads.

open Except

namespace PriceFeed

structure BlockRef where
  number    : ℤ
  hash      : ℕ
  timestamp : ℤ
  deriving DecidableEq, Repr

inductive Failure
  | didNotConverge | notFinalized | beforeFirst | bracket | divisionByZero | unavailable
  | rulesHash | closeTime | questionCount | beforeObservation | notFirst | observationCount
  deriving DecidableEq, Repr

inductive At
  | finalized
  | number (n : ℤ)

-- The answer to the read with the given index, or none if the header is unavailable. Nothing says
-- that a read is answered alike twice, or with the block that was asked for.
abbrev Reader := ℕ → At → Option BlockRef

-- A block number with its timestamp, as `nextProbe` takes them.
structure Mark where
  n : ℤ
  t : ℤ

-- Division of `BigInt`s, which truncates.
def divide (a b : ℤ) : Except Failure ℤ :=
  if b = 0 then .error .divisionByZero else .ok (a.tdiv b)

def nextProbe (target : ℤ) (lo hi : Mark) : Except Failure ℤ :=
  if ¬ lo.t < target ∨ ¬ hi.t ≥ target ∨ hi.n - lo.n < 2 then
    .error .bracket
  else do
    let gap := hi.n - lo.n
    let probe ← (if gap ≤ 8 then return lo.n + gap.tdiv 2
      else do return lo.n + (← divide ((target - lo.t) * gap) (hi.t - lo.t)))
    let probe := if probe ≤ lo.n then lo.n + 1 else probe
    return if probe ≥ hi.n then hi.n - 1 else probe

structure Found where
  block : BlockRef
  prev  : BlockRef
  deriving DecidableEq, Repr

-- Where the search is: in its first loop, which steps back until it has a block before the target,
-- or in its second, which narrows the bracket.
inductive Search
  | stepping (hi : BlockRef) (step : ℤ)
  | narrowing (lo hi : BlockRef)

-- What an iteration does before it reads.
inductive Next
  | probe (n : ℤ)
  | done (found : Found)

variable (target : ℤ) (reader : Reader) (maxReads : Option ℕ)

def next : Search → Except Failure Next
  | .stepping hi step =>
    if hi.number ≤ 1 then
      .error .beforeFirst
    else
      .ok (.probe (if hi.number > step then hi.number - step else 1))
  | .narrowing lo hi  =>
    if hi.number - lo.number > 1 then do
      return .probe (← nextProbe target ⟨lo.number, lo.timestamp⟩ ⟨hi.number, hi.timestamp⟩)
    else
      .ok (.done ⟨hi, lo⟩)

-- What an iteration does with the header it has read.
def absorb (header : BlockRef) : Search → Search
  | .stepping hi step =>
    if header.timestamp < target then .narrowing header hi else .stepping header (step * 2)
  | .narrowing lo hi  =>
    if header.timestamp < target then .narrowing header hi else .narrowing lo header

-- `reads` counts the reads so far. Without `maxReads` their number is not limited.
def read (reads : ℕ) (at_ : At) : Except Failure BlockRef :=
  if maxReads.any (reads + 1 > ·) then
    .error .didNotConverge
  else
    match reader (reads + 1) at_ with
    | some header => .ok header
    | none        => .error .unavailable

-- The two loops with fuel for their iterations. `none` is a search that has not ended yet.
def loop : (fuel reads : ℕ) → Search → Option (Except Failure Found)
  | 0, _, _            => none
  | fuel + 1, reads, s =>
    match next target s with
    | .error e            => some (.error e)
    | .ok (.done found)   => some (.ok found)
    | .ok (.probe n)      =>
      match read reader maxReads reads (.number n) with
      | .error e   => some (.error e)
      | .ok header => loop fuel (reads + 1) (absorb target header s)

-- The first step back assumes at most three blocks per second.
def start (head : BlockRef) : Except Failure Search :=
  if head.timestamp < target then
    .error .notFinalized
  else
    .ok (.stepping head (max 8 ((head.timestamp - target + 1) * 3)))

def findObservationBlock (fuel : ℕ) : Option (Except Failure Found) :=
  match read reader maxReads 0 .finalized with
  | .error e => some (.error e)
  | .ok head =>
    match start target head with
    | .error e => some (.error e)
    | .ok s    => loop target reader maxReads fuel 1 s

-- The block numbers that the loops read, with the bracket that each is read in. The first loop has
-- no lower end.
structure Probe where
  lo : Option ℤ
  n  : ℤ
  hi : ℤ

def Search.bracket (n : ℤ) : Search → Probe
  | .stepping hi _   => ⟨none, n, hi.number⟩
  | .narrowing lo hi => ⟨some lo.number, n, hi.number⟩

def probes : (fuel reads : ℕ) → Search → List Probe
  | 0, _, _            => []
  | fuel + 1, reads, s =>
    match next target s with
    | .ok (.probe n) =>
      match read reader maxReads reads (.number n) with
      | .error _   => []
      | .ok header => s.bracket n :: probes fuel (reads + 1) (absorb target header s)
    | _              => []

-- The checks of `buildEvidence` that come before it looks at the observations.
structure Config where
  rulesHash     : ℕ
  closesAt      : ℤ
  eventCount    : ℕ
  observationAt : ℤ
  feeds         : ℕ

structure Pool where
  rulesHash  : ℕ
  closesAt   : ℤ
  eventCount : ℕ

def checkEvidence (config : Config) (pool : Pool) (block prev : BlockRef) (obs : ℕ) : Except Failure Unit :=
  if pool.rulesHash ≠ config.rulesHash then .error .rulesHash
  else if pool.closesAt ≠ config.closesAt then .error .closeTime
  else if pool.eventCount ≠ config.eventCount then .error .questionCount
  else if block.timestamp < config.observationAt then .error .beforeObservation
  else if prev.timestamp ≥ config.observationAt ∨ prev.number + 1 ≠ block.number then .error .notFirst
  else if obs ≠ config.feeds then .error .observationCount
  else .ok ()

section Brackets

variable {target : ℤ} {reader : Reader} {maxReads : Option ℕ} {lo hi : Mark} {s : Search}
  {header head : BlockRef} {found : Found} {n : ℤ} {e : Failure} {fuel reads : ℕ}

-- In a bracket with a block inside, the probe is inside.
theorem nextProbe_inside (h₁ : lo.t < target) (h₂ : target ≤ hi.t) (h₃ : 2 ≤ hi.n - lo.n) :
    ∃ n, nextProbe target lo hi = .ok n ∧ lo.n < n ∧ n < hi.n := by
  have hc : ¬ (¬ lo.t < target ∨ ¬ hi.t ≥ target ∨ hi.n - lo.n < 2) := by omega
  have hd : hi.t - lo.t ≠ 0 := by omega
  rw [nextProbe, if_neg hc]
  have hclamp (m : ℤ) :
      let m := if m ≤ lo.n then lo.n + 1 else m
      lo.n < (if m ≥ hi.n then hi.n - 1 else m) ∧ (if m ≥ hi.n then hi.n - 1 else m) < hi.n := by
    dsimp only
    split <;> split <;> omega
  by_cases hgap : hi.n - lo.n ≤ 8
  case pos => exact ⟨_, by simp only [if_pos hgap]; rfl, hclamp _⟩
  case neg =>
    refine ⟨_, by simp only [if_neg hgap, divide, if_neg hd]; rfl, hclamp _⟩

-- The ends of a bracket are on the two sides of the target.
def Bracketed (target : ℤ) : Search → Prop
  | .stepping hi step => target ≤ hi.timestamp ∧ 0 < step
  | .narrowing lo hi  => lo.timestamp < target ∧ target ≤ hi.timestamp

def Probe.Inside (p : Probe) : Prop := p.n < p.hi ∧ ∀ lo ∈ p.lo, lo < p.n

theorem start_bracketed (h : start target head = .ok s) : Bracketed target s := by
  unfold start at h
  split at h
  case isTrue      => cases h
  case isFalse hge =>
    cases h
    exact ⟨not_lt.mp hge, by omega⟩

theorem Bracketed.absorb (h : Bracketed target s) : Bracketed target (absorb target header s) := by
  cases s
  case stepping hi step =>
    rw [PriceFeed.absorb]
    split
    case isTrue hlt  => exact ⟨hlt, h.left⟩
    case isFalse hge => exact ⟨not_lt.mp hge, by have := h.right; omega⟩
  case narrowing lo hi =>
    rw [PriceFeed.absorb]
    split
    case isTrue hlt  => exact ⟨hlt, h.right⟩
    case isFalse hge => exact ⟨h.left, not_lt.mp hge⟩

-- What an iteration can decide.
theorem Bracketed.next (h : Bracketed target s) :
    (∃ n, next target s = .ok (.probe n) ∧ (s.bracket n).Inside) ∨
    (∃ lo hi, s = .narrowing lo hi ∧ hi.number ≤ lo.number + 1 ∧ next target s = .ok (.done ⟨hi, lo⟩)) ∨
    (∃ hi step, s = .stepping hi step ∧ hi.number ≤ 1 ∧ next target s = .error .beforeFirst) := by
  cases s
  case stepping hi step =>
    by_cases hfirst : hi.number ≤ 1
    case pos => exact .inr <| .inr ⟨hi, step, rfl, hfirst, by rw [PriceFeed.next, if_pos hfirst]⟩
    case neg =>
      refine .inl ⟨_, by rw [PriceFeed.next, if_neg hfirst], ?_, by simp [Search.bracket]⟩
      have := h.right
      simp only [Search.bracket]
      split <;> omega
  case narrowing lo hi =>
    by_cases hgap : hi.number - lo.number > 1
    case pos =>
      have ⟨n, hn, hlo, hhi⟩ := @nextProbe_inside target ⟨lo.number, lo.timestamp⟩
        ⟨hi.number, hi.timestamp⟩ h.left h.right (by omega : 2 ≤ hi.number - lo.number)
      refine .inl ⟨n, by rw [PriceFeed.next, if_pos hgap, hn]; rfl, hhi, ?_⟩
      simpa [Search.bracket] using hlo
    case neg =>
      exact .inr <| .inl ⟨lo, hi, rfl, by omega, by rw [PriceFeed.next, if_neg hgap]⟩

theorem loop_found (h : Bracketed target s) (hl : loop target reader maxReads fuel reads s = some (.ok found)) :
    found.prev.timestamp < target ∧ target ≤ found.block.timestamp ∧
      found.block.number ≤ found.prev.number + 1 := by
  induction fuel generalizing reads s
  case zero         => cases hl
  case succ fuel hi =>
    rw [loop] at hl
    obtain ⟨n, hn, _⟩ | ⟨lo, top, rfl, hle, hn⟩ | ⟨_, _, _, _, hn⟩ := h.next
    · simp only [hn] at hl
      split at hl
      case h_1        => cases hl
      case h_2 header => exact hi h.absorb hl
    · simp only [hn, Option.some.injEq, ok.injEq] at hl
      subst hl
      exact ⟨h.left, h.right, hle⟩
    · simp [hn] at hl

theorem probes_inside (h : Bracketed target s) : ∀ p ∈ probes target reader maxReads fuel reads s, p.Inside := by
  induction fuel generalizing reads s
  case zero         => simp [probes]
  case succ fuel hi =>
    rw [probes]
    obtain ⟨n, hn, hin⟩ | ⟨_, _, _, _, hn⟩ | ⟨_, _, _, _, hn⟩ := h.next
    · simp only [hn]
      split
      case h_1 => simp
      case h_2 => exact List.forall_mem_cons.mpr ⟨hin, hi h.absorb⟩
    · simp [hn]
    · simp [hn]

end Brackets

section Honest

variable {target : ℤ} {reader : Reader} {maxReads : Option ℕ} {s : Search} {header : BlockRef}
  {found : Found} {n : ℤ} {fuel reads : ℕ}

-- Blocks that are asked for by number are answered with that number.
def Reader.Honest (reader : Reader) : Prop :=
  ∀ i n header, reader i (.number n) = some header → header.number = n

theorem read_eq_ok {at_ : At} (h : read reader maxReads reads at_ = .ok header) :
    reader (reads + 1) at_ = some header := by
  unfold read at h
  split at h
  case isTrue  => cases h
  case isFalse =>
    split at h
    case h_1 hr => cases h; exact hr
    case h_2    => cases h

-- A bracket has a block after its lower end.
def Ordered : Search → Prop
  | .stepping ..      => True
  | .narrowing lo hi  => lo.number < hi.number

-- The blocks that may still be read.
def Ahead (n : ℤ) : Search → Prop
  | .stepping hi _    => n < hi.number
  | .narrowing lo hi  => lo.number < n ∧ n < hi.number

theorem ahead_of_inside (h : (s.bracket n).Inside) : Ahead n s := by
  cases s
  case stepping  => exact h.left
  case narrowing => exact ⟨h.right _ rfl, h.left⟩

-- Once read, a block is no longer ahead, and nothing comes ahead that was not.
theorem ahead_absorb (hs : Ordered s) (hn : Ahead header.number s) :
    Ordered (absorb target header s) ∧ ¬ Ahead header.number (absorb target header s) ∧
      ∀ m, Ahead m (absorb target header s) → Ahead m s := by
  cases s
  case stepping hi step =>
    rw [absorb]
    split
    case isTrue  => exact ⟨hn, by simp [Ahead], fun m h => h.right⟩
    case isFalse => exact ⟨trivial, by simp [Ahead], fun m h => lt_trans h hn⟩
  case narrowing lo hi =>
    rw [absorb]
    split
    case isTrue  => exact ⟨hn.right, by simp [Ahead], fun m h => ⟨lt_trans hn.left h.left, h.right⟩⟩
    case isFalse => exact ⟨hn.left, by simp [Ahead], fun m h => ⟨h.left, lt_trans h.right hn.right⟩⟩

theorem loop_adjacent (hr : reader.Honest) (h : Bracketed target s) (ho : Ordered s)
    (hl : loop target reader maxReads fuel reads s = some (.ok found)) :
    found.prev.number + 1 = found.block.number := by
  induction fuel generalizing reads s
  case zero         => cases hl
  case succ fuel hi =>
    rw [loop] at hl
    obtain ⟨n, hn, hin⟩ | ⟨lo, top, rfl, hle, hn⟩ | ⟨_, _, _, _, hn⟩ := h.next
    · simp only [hn] at hl
      split at hl
      case h_1           => cases hl
      case h_2 header hh =>
        obtain rfl := hr _ _ _ (read_eq_ok hh)
        exact hi h.absorb (ahead_absorb ho (ahead_of_inside hin)).left hl
    · simp only [hn, Option.some.injEq, ok.injEq] at hl
      subst hl
      have : lo.number < top.number := ho
      dsimp only
      omega
    · simp [hn] at hl

-- No block is read twice.
theorem probes_nodup (hr : reader.Honest) (h : Bracketed target s) (ho : Ordered s) :
    ((probes target reader maxReads fuel reads s).map (·.n)).Nodup ∧
      ∀ p ∈ probes target reader maxReads fuel reads s, Ahead p.n s := by
  induction fuel generalizing reads s
  case zero         => simp [probes]
  case succ fuel hi =>
    rw [probes]
    obtain ⟨n, hn, hin⟩ | ⟨_, _, _, _, hn⟩ | ⟨_, _, _, _, hn⟩ := h.next
    · simp only [hn]
      split
      case h_1           => simp
      case h_2 header hh =>
        obtain rfl := hr _ _ _ (read_eq_ok hh)
        have hahead := ahead_of_inside hin
        have ⟨ho', hread, hsub⟩ := @ahead_absorb target _ _ ho hahead
        have ⟨hnodup, hall⟩ := @hi _ (reads + 1) h.absorb ho'
        have hnumber : (s.bracket header.number).n = header.number := by cases s <;> rfl
        refine ⟨?_, List.forall_mem_cons.mpr ⟨by rw [hnumber]; exact hahead, fun p hp => hsub _ (hall p hp)⟩⟩
        rw [List.map_cons, List.nodup_cons, hnumber]
        refine ⟨fun hmem => ?_, hnodup⟩
        obtain ⟨p, hp, hpn⟩ := List.mem_map.mp hmem
        exact hread (hpn ▸ hall p hp)
    · simp [hn]
    · simp [hn]

end Honest

section Chain

-- The finalized part of a chain, from block 1 to its head.
structure Chain where
  head     : ℤ
  header   : ℤ → BlockRef
  number   : ∀ n, (header n).number = n
  ordered  : ∀ m n, 1 ≤ m → m ≤ n → n ≤ head → (header m).timestamp ≤ (header n).timestamp

-- The reader answers from the chain.
structure Reader.Serves (reader : Reader) (chain : Chain) : Prop where
  honest    : reader.Honest
  finalized : ∀ i, reader i .finalized = some (chain.header chain.head)
  number    : ∀ i n, 1 ≤ n → n ≤ chain.head → reader i (.number n) = some (chain.header n)

-- The first block at or after the target.
structure Chain.First (chain : Chain) (target b : ℤ) : Prop where
  range  : 1 < b ∧ b ≤ chain.head
  before : (chain.header (b - 1)).timestamp < target
  after  : target ≤ (chain.header b).timestamp

variable {target : ℤ} {reader : Reader} {maxReads : Option ℕ} {chain : Chain} {s : Search}
  {header : BlockRef} {n b b' : ℤ} {fuel reads : ℕ} {r : Except Failure Found}

theorem Chain.First.unique (h : chain.First target b) (h' : chain.First target b') : b' = b := by
  by_contra hne
  rcases lt_or_gt_of_ne hne with hlt | hlt
  · have := chain.ordered b' (b - 1) (by have := h'.range; omega) (by omega) (by have := h.range; omega)
    have := h.before
    have := h'.after
    omega
  · have := chain.ordered b (b' - 1) (by have := h.range; omega) (by omega) (by have := h'.range; omega)
    have := h.after
    have := h'.before
    omega

-- The ends of the bracket are blocks of the chain.
def OnChain (chain : Chain) : Search → Prop
  | .stepping hi _   => 1 ≤ hi.number ∧ hi.number ≤ chain.head ∧ hi = chain.header hi.number
  | .narrowing lo hi => 1 ≤ lo.number ∧ lo.number < hi.number ∧ hi.number ≤ chain.head ∧
      lo = chain.header lo.number ∧ hi = chain.header hi.number

-- What is left to search.
def remaining (chain : Chain) : Search → ℕ
  | .stepping hi _   => (chain.head + hi.number).toNat
  | .narrowing lo hi => (hi.number - lo.number).toNat

-- Probes are blocks of the chain.
theorem OnChain.probe (h : OnChain chain s) (hn : next target s = .ok (.probe n)) (ha : Ahead n s) :
    1 ≤ n ∧ n ≤ chain.head := by
  cases s
  case stepping hi step =>
    have ha : n < hi.number := ha
    have ⟨_, hle, _⟩ := h
    rw [next] at hn
    split at hn <;> cases hn
    split <;> omega
  case narrowing lo hi =>
    have ⟨h₁, _, hle, _⟩ := h
    have ha : lo.number < n ∧ n < hi.number := ha
    omega

-- An iteration leaves less to search.
theorem OnChain.absorb (h : OnChain chain s) (hn : 1 ≤ n ∧ n ≤ chain.head) (ha : Ahead n s) :
    OnChain chain (absorb target (chain.header n) s) ∧
      remaining chain (PriceFeed.absorb target (chain.header n) s) < remaining chain s := by
  have hnum := chain.number n
  cases s
  case stepping hi step =>
    have ha : n < hi.number := ha
    have ⟨h₁, hle, heq⟩ := h
    rw [PriceFeed.absorb]
    split
    case isTrue  =>
      refine ⟨⟨by omega, by omega, hle, by rw [hnum], heq⟩, ?_⟩
      simp only [remaining, hnum]
      omega
    case isFalse =>
      refine ⟨⟨by omega, by omega, by rw [hnum]⟩, ?_⟩
      simp only [remaining, hnum]
      omega
  case narrowing lo hi =>
    have ha : lo.number < n ∧ n < hi.number := ha
    have ⟨h₁, hlt, hle, hlo, hhi⟩ := h
    rw [PriceFeed.absorb]
    split
    case isTrue  =>
      refine ⟨⟨by omega, by omega, hle, by rw [hnum], hhi⟩, ?_⟩
      simp only [remaining, hnum]
      omega
    case isFalse =>
      refine ⟨⟨h₁, by omega, by omega, hlo, by rw [hnum]⟩, ?_⟩
      simp only [remaining, hnum]
      omega

theorem loop_mono {fuel' : ℕ} (hle : fuel ≤ fuel') (h : loop target reader maxReads fuel reads s = some r) :
    loop target reader maxReads fuel' reads s = some r := by
  induction fuel generalizing fuel' reads s
  case zero         => cases h
  case succ fuel hi =>
    obtain ⟨k, rfl⟩ : ∃ k, fuel' = k + 1 := ⟨fuel' - 1, by omega⟩
    rw [loop] at h ⊢
    rcases hn : next target s with e | ⟨n⟩ | ⟨found⟩
    · simpa only [hn] using h
    · simp only [hn] at h ⊢
      rcases hr : read reader maxReads reads (.number n) with e | header
      · simpa only [hr] using h
      · simp only [hr] at h ⊢
        exact hi (by omega) h
    · simpa only [hn] using h

theorem read_serves (hr : reader.Serves chain) (hn : 1 ≤ n ∧ n ≤ chain.head) :
    read reader maxReads reads (.number n) = .ok (chain.header n) ∨
      (maxReads ≠ none ∧ read reader maxReads reads (.number n) = .error .didNotConverge) := by
  rw [read]
  split
  case isTrue h  =>
    refine .inr ⟨?_, rfl⟩
    rintro rfl
    simp at h
  case isFalse h => exact .inl (by rw [hr.number _ _ hn.left hn.right])

-- The search ends at the first block, unless the reads run out.
theorem loop_serves (hr : reader.Serves chain) (hfirst : (chain.header 1).timestamp < target)
    (hs : Bracketed target s) (hc : OnChain chain s) :
    ∃ fuel, (∃ b, chain.First target b ∧
        loop target reader maxReads fuel reads s = some (.ok ⟨chain.header b, chain.header (b - 1)⟩)) ∨
      (maxReads ≠ none ∧ loop target reader maxReads fuel reads s = some (.error .didNotConverge)) := by
  induction hm : remaining chain s using Nat.strong_induction_on generalizing s reads
  case h m hi =>
    obtain ⟨n, hn, hin⟩ | ⟨lo, top, rfl, hle, hn⟩ | ⟨top, step, rfl, hle, hn⟩ := hs.next
    · have hahead := ahead_of_inside hin
      have hrange := hc.probe hn hahead
      have ⟨hc', hlt⟩ := @OnChain.absorb target _ _ _ hc hrange hahead
      obtain hread | ⟨hlimit, hread⟩ := @read_serves reader maxReads _ _ reads hr hrange
      · have ⟨fuel, hf⟩ := @hi _ (hm ▸ hlt) _ (reads + 1) hs.absorb hc' rfl
        exact ⟨fuel + 1, by simpa only [loop, hn, hread] using hf⟩
      · exact ⟨1, .inr ⟨hlimit, by simp only [loop, hn, hread]⟩⟩
    · have ⟨h₁, hlt, hhead, hlo, hhi⟩ := hc
      have heq : lo.number = top.number - 1 := by omega
      have hprev : lo = chain.header (top.number - 1) := heq ▸ hlo
      refine ⟨1, .inl ⟨top.number, ⟨⟨by omega, hhead⟩, hprev ▸ hs.left, hhi ▸ hs.right⟩, ?_⟩⟩
      simp only [loop, hn, ← hprev, ← hhi]
    · -- Block 1 is before the target, so that it never is the upper end.
      have ⟨h₁, _, heq⟩ := hc
      have h₁ : top.number = 1 := by omega
      rw [h₁] at heq
      have hge : target ≤ top.timestamp := hs.left
      rw [heq] at hge
      omega

end Chain

section Result

variable {target : ℤ} {reader : Reader} {maxReads : Option ℕ} {found : Found} {fuel : ℕ} {e : Failure}

-- What holds of the search whatever the reader answers.
structure Sound (target : ℤ) (reader : Reader) (maxReads : Option ℕ) : Prop where
  found  : ∀ fuel found, findObservationBlock target reader maxReads fuel = some (.ok found) →
             found.prev.timestamp < target ∧ target ≤ found.block.timestamp ∧
             found.block.number ≤ found.prev.number + 1 ∧
             (reader.Honest → found.prev.number + 1 = found.block.number)
  fails  : ∀ fuel e, findObservationBlock target reader maxReads fuel = some (.error e) →
             e ≠ .bracket ∧ e ≠ .divisionByZero
  probes : ∀ head s fuel, start target head = .ok s →
             (∀ p ∈ probes target reader maxReads fuel 1 s, p.Inside) ∧
             (reader.Honest → ((probes target reader maxReads fuel 1 s).map (·.n)).Nodup)

theorem start_ordered {head : BlockRef} {s : Search} (h : start target head = .ok s) : Ordered s := by
  unfold start at h
  split at h <;> cases h
  trivial

theorem read_error {reads : ℕ} {at_ : At} (h : read reader maxReads reads at_ = .error e) :
    e ≠ .bracket ∧ e ≠ .divisionByZero := by
  unfold read at h
  split at h
  case isTrue  => cases h; decide
  case isFalse => split at h <;> cases h; decide

theorem loop_error {reads : ℕ} {s : Search} (h : Bracketed target s)
    (hl : loop target reader maxReads fuel reads s = some (.error e)) :
    e ≠ .bracket ∧ e ≠ .divisionByZero := by
  induction fuel generalizing reads s
  case zero         => cases hl
  case succ fuel hi =>
    rw [loop] at hl
    obtain ⟨n, hn, _⟩ | ⟨_, _, _, _, hn⟩ | ⟨_, _, _, _, hn⟩ := h.next
    · simp only [hn] at hl
      rcases hr : read reader maxReads reads (.number n) with e' | header
      · simp only [hr, Option.some.injEq, error.injEq] at hl
        exact hl ▸ read_error hr
      · simp only [hr] at hl
        exact hi h.absorb hl
    · simp [hn] at hl
    · simp only [hn, Option.some.injEq, error.injEq] at hl
      subst hl
      decide

theorem find_cases {r : Except Failure Found} (h : findObservationBlock target reader maxReads fuel = some r) :
    (∃ e, r = .error e ∧ e ≠ .bracket ∧ e ≠ .divisionByZero) ∨
      ∃ s, Bracketed target s ∧ Ordered s ∧ loop target reader maxReads fuel 1 s = some r := by
  unfold findObservationBlock at h
  rcases hr : read reader maxReads 0 .finalized with e | head
  · simp only [hr, Option.some.injEq] at h
    exact .inl ⟨e, h.symm, read_error hr⟩
  · simp only [hr] at h
    rcases hs : start target head with e | s
    · simp only [hs, Option.some.injEq] at h
      refine .inl ⟨e, h.symm, ?_⟩
      unfold start at hs
      split at hs <;> cases hs
      decide
    · simp only [hs] at h
      exact .inr ⟨s, start_bracketed hs, start_ordered hs, h⟩

theorem findObservationBlock_sound : Sound target reader maxReads where
  found := by
    intro fuel found h
    obtain ⟨e, he, _⟩ | ⟨s, hs, ho, hl⟩ := find_cases h
    · cases he
    · have ⟨h₁, h₂, h₃⟩ := loop_found hs hl
      exact ⟨h₁, h₂, h₃, fun hr => loop_adjacent hr hs ho hl⟩
  fails := by
    intro fuel e h
    obtain ⟨e', he, hne⟩ | ⟨s, hs, _, hl⟩ := find_cases h
    · cases he
      exact hne
    · exact loop_error hs hl
  probes := by
    intro head s fuel h
    exact ⟨probes_inside (start_bracketed h), fun hr =>
      (probes_nodup hr (start_bracketed h) (start_ordered h)).left⟩

-- On a chain the search ends at the only block that is the first at or after the target.
structure Complete (target : ℤ) (reader : Reader) (maxReads : Option ℕ) (chain : Chain) (b : ℤ) : Prop where
  first  : chain.First target b
  unique : ∀ b', chain.First target b' → b' = b
  ends   : ∃ fuel, ∀ fuel' ≥ fuel,
             findObservationBlock target reader maxReads fuel' =
               some (.ok ⟨chain.header b, chain.header (b - 1)⟩) ∨
             maxReads ≠ none ∧
               findObservationBlock target reader maxReads fuel' = some (.error .didNotConverge)

theorem start_serves {chain : Chain} (hhead : target ≤ (chain.header chain.head).timestamp) (h₁ : 1 ≤ chain.head) :
    ∃ s, start target (chain.header chain.head) = .ok s ∧ OnChain chain s := by
  refine ⟨_, by rw [start, if_neg (not_lt.mpr hhead)], ?_⟩
  simp only [OnChain, chain.number]
  exact ⟨h₁, le_refl _, trivial⟩

theorem findObservationBlock_complete {chain : Chain} (hr : reader.Serves chain)
    (hfirst : (chain.header 1).timestamp < target)
    (hhead : target ≤ (chain.header chain.head).timestamp) (h₁ : 1 ≤ chain.head) :
    ∃ b, Complete target reader maxReads chain b := by
  have ⟨s, hs, hc⟩ := start_serves hhead h₁
  -- Without a limit the search finds the block, so that there is one.
  have ⟨b, hb⟩ : ∃ b, chain.First target b := by
    have ⟨_, h⟩ := @loop_serves _ _ none _ _ 1 hr hfirst (start_bracketed hs) hc
    obtain ⟨b, hb, _⟩ | ⟨hne, _⟩ := h
    · exact ⟨b, hb⟩
    · exact absurd rfl hne
  refine ⟨b, hb, fun b' h => hb.unique h, ?_⟩
  by_cases hlimit : maxReads.any (0 + 1 > ·)
  case pos =>
    refine ⟨0, fun fuel _ => .inr ⟨?_, by rw [findObservationBlock, read, if_pos hlimit]⟩⟩
    rintro rfl
    cases hlimit
  case neg =>
    have hread : read reader maxReads 0 .finalized = .ok (chain.header chain.head) := by
      rw [read, if_neg hlimit, hr.finalized]
    have hfind (fuel : ℕ) : findObservationBlock target reader maxReads fuel =
        loop target reader maxReads fuel 1 s := by
      simp only [findObservationBlock, hread, hs]
    have ⟨fuel, h⟩ := @loop_serves _ _ maxReads _ _ 1 hr hfirst (start_bracketed hs) hc
    refine ⟨fuel, fun fuel' hle => ?_⟩
    rw [hfind]
    obtain ⟨b', hb', hl⟩ | ⟨hne, hl⟩ := h
    · obtain rfl := hb.unique hb'
      exact .inl (loop_mono hle hl)
    · exact .inr ⟨hne, loop_mono hle hl⟩

-- What the evidence is checked for.
theorem checkEvidence_eq_ok {config : Config} {pool : Pool} {block prev : BlockRef} {obs : ℕ} {u : Unit}
    (h : checkEvidence config pool block prev obs = .ok u) :
    prev.timestamp < config.observationAt ∧ config.observationAt ≤ block.timestamp ∧
      prev.number + 1 = block.number := by
  unfold checkEvidence at h
  grind

end Result

-- The search finds the first block of every chain, and what it returns for any reader whatever is on
-- the two sides of the target. That the two blocks are adjacent rests on the numbers of the answers, and
-- is checked again before there is evidence.
theorem findObservationBlock_exact (target : ℤ) (reader : Reader) (maxReads : Option ℕ) :
    Sound target reader maxReads ∧
    (∀ chain : Chain, reader.Serves chain → (chain.header 1).timestamp < target →
      target ≤ (chain.header chain.head).timestamp → 1 ≤ chain.head →
      ∃ b, Complete target reader maxReads chain b) ∧
    (∀ config pool block prev obs u, checkEvidence config pool block prev obs = .ok u →
      prev.timestamp < config.observationAt ∧ config.observationAt ≤ block.timestamp ∧
        prev.number + 1 = block.number) :=
  ⟨findObservationBlock_sound, fun _ hr hfirst hhead h₁ => findObservationBlock_complete hr hfirst hhead h₁,
    fun _ _ _ _ _ _ h => checkEvidence_eq_ok h⟩

-- A hundred blocks, one every ten seconds.
def Testnet.chain : Chain where
  head           := 100
  header n       := ⟨n, n.toNat, 10 * n⟩
  number _       := rfl
  ordered m n    := by intros; dsimp only; omega

def Testnet.answers : Reader
  | _, .finalized => some (Testnet.chain.header 100)
  | _, .number n  => some (Testnet.chain.header n)

theorem findObservationBlock_exact_testnet : ∃ b, Complete 505 Testnet.answers (some 12) Testnet.chain b :=
  (findObservationBlock_exact 505 Testnet.answers (some 12)).right.left Testnet.chain
    ⟨by rintro _ n _ h; cases h; rfl, fun _ => rfl, fun _ _ _ _ => rfl⟩ (by decide) (by decide) (by decide)

-- A reader which answers every numbered read with block 500.
def misnumbered : Reader
  | _, .finalized => some ⟨100, 0, 2000⟩
  | _, .number _  => some ⟨500, 0, 900⟩

theorem findObservationBlock_misnumbered :
    ¬ ∀ target reader maxReads fuel found, findObservationBlock target reader maxReads fuel = some (.ok found) →
      found.prev.number + 1 = found.block.number := by
  intro h
  have h := h 1000 misnumbered (some 12) 2 ⟨⟨100, 0, 2000⟩, ⟨500, 0, 900⟩⟩ (by decide)
  cases h

end PriceFeed
