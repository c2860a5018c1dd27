import Flurbo.Server.PilotIndex

-- The index has no gaps: a record that is saved holds all events up to its block, whatever the chain
-- does between the reads, if the boundary of the scan is a block of the chain when it is first read.

open Except

namespace PilotIndex

variable {manifest : Manifest} {chainAt : ℕ → Chain} {chain chain' : Chain} {a b lo hi m n t : ℕ}

-- How a chain goes on. A hash commits to all that is before it, and a block that was abandoned never
-- becomes canonical again.
structure History (manifest : Manifest) (chainAt : ℕ → Chain) : Prop where
  commits    : ∀ t t' n, n ≤ (chainAt t).head → n ≤ (chainAt t').head → (chainAt t).hash n = (chainAt t').hash n →
                 ∀ m ≤ n, (chainAt t).hash m = (chainAt t').hash m ∧ (chainAt t).logs m = (chainAt t').logs m
  stays      : ∀ t₁ t₂ t₃ n h, t₁ ≤ t₂ → t₂ ≤ t₃ → (chainAt t₁).header n = some h →
                 (chainAt t₃).header n = some h → (chainAt t₂).header n = some h
  distinct   : ∀ t m n, m ≤ (chainAt t).head → n ≤ (chainAt t).head →
                 (chainAt t).hash m = (chainAt t).hash n → m = n
  wellFormed : ∀ t n, n ≤ (chainAt t).head → ∀ l ∈ (chainAt t).logs n, l.removed = false ∧
                 (l.address = manifest.pool ∨ l.address = manifest.resolver) ∧ l.blockNumber = n ∧
                 l.blockHash = (chainAt t).hash n ∧ l.transactionHash.isSome
  ordered    : ∀ t n, n ≤ (chainAt t).head → ((chainAt t).logs n).Pairwise fun l l' => l.logIndex < l'.logIndex

theorem header_eq_some {h : ℕ} : chain.header n = some h ↔ n ≤ chain.head ∧ chain.hash n = h := by
  rw [Chain.header]
  split
  case isTrue hn  => simp [hn]
  case isFalse hn => simp [hn]

section Logs

-- A log that the ABI decodes.
def toLog (l : RawLog) : Option Log :=
  match l.transactionHash, l.decoded with
  | some hash, some (name, args) => some ⟨l.address, l.blockNumber, l.blockHash, hash, l.logIndex, name, args⟩
  | _, _                         => none

-- The decodable logs of a block, and of the blocks after one up to another.
def logsOf (chain : Chain) (n : ℕ) : List Log := (chain.logs n).filterMap toLog

def between (chain : Chain) (a b : ℕ) : List Log := (List.range' (a + 1) (b - a)).flatMap (logsOf chain)

theorem between_self : between chain a a = [] := by simp [between]

theorem between_append (hab : a ≤ b) (hbn : b ≤ n) : between chain a b ++ between chain b n = between chain a n := by
  rw [between, between, between, ← List.flatMap_append]
  congr 1
  have h : n - a = (b - a) + (n - b) := by omega
  rw [h, ← List.range'_append]
  congr 2
  omega

theorem between_congr (h : ∀ k, a < k → k ≤ b → chain.logs k = chain'.logs k) :
    between chain a b = between chain' a b := by
  refine List.flatMap_congr fun k hk => ?_
  rw [List.mem_range'_1] at hk
  rw [logsOf, logsOf, h k (by omega) (by omega)]

theorem readLog_eq {l : RawLog} (hr : l.removed = false)
    (ha : l.address = manifest.pool ∨ l.address = manifest.resolver) (hlo : lo ≤ l.blockNumber)
    (hhi : l.blockNumber ≤ hi) (ht : l.transactionHash.isSome) : readLog manifest lo hi l = .ok (toLog l) := by
  obtain ⟨hash, ht⟩ := Option.isSome_iff_exists.mp ht
  have hvalid : ¬ (l.removed = true ∨ l.address ≠ manifest.pool ∧ l.address ≠ manifest.resolver) := by
    rw [hr]
    tauto
  have hrange : ¬ (l.blockNumber < lo ∨ l.blockNumber > hi) := by omega
  simp only [readLog, ht, if_neg hvalid, if_neg hrange, toLog]
  cases l.decoded <;> rfl

-- What a scan reads of a window that is on the chain.
theorem readLogs_eq (h : History manifest chainAt) (hab : a ≤ b) (hb : b ≤ (chainAt t).head) :
    readLogs manifest (a + 1) b ((chainAt t).logsIn (a + 1) b) = .ok (between (chainAt t) a b) := by
  have hread : ((chainAt t).logsIn (a + 1) b).mapM (readLog manifest (a + 1) b) =
      .ok (((chainAt t).logsIn (a + 1) b).map toLog) := by
    rw [mapM_eq_ok]
    refine List.forall₂_map_right_iff.mpr (List.forall₂_same.mpr fun l hl => ?_)
    have ⟨k, hk, hl⟩ := List.mem_flatMap.mp hl
    rw [List.mem_range'_1] at hk
    have ⟨hr, ha, hn, _, ht⟩ := h.wellFormed t k (by omega) l hl
    exact readLog_eq hr ha (by omega) (by omega) ht
  have hrange : min b (chainAt t).head + 1 - (a + 1) = b - a := by omega
  have hreduce (ls : List (Option Log)) : ls.reduceOption = ls.filterMap id := rfl
  rw [readLogs, hread, between, Chain.logsIn, hrange, ok_bind, hreduce]
  simp only [pure_eq_ok, List.filterMap_map, List.filterMap_flatMap]
  rfl

end Logs

section Order

variable {l : Log}

theorem mem_logsOf (h : History manifest chainAt) (hn : n ≤ (chainAt t).head) (hl : l ∈ logsOf (chainAt t) n) :
    l.block = n ∧ l.blockHash = (chainAt t).hash n := by
  have ⟨raw, hraw, htoLog⟩ := List.mem_filterMap.mp hl
  have ⟨_, _, hblock, hhash, _⟩ := h.wellFormed t n hn raw hraw
  unfold toLog at htoLog
  split at htoLog <;> cases htoLog
  exact ⟨hblock, hhash⟩

theorem pairwise_logsOf (h : History manifest chainAt) (hn : n ≤ (chainAt t).head) :
    (logsOf (chainAt t) n).Pairwise fun l l' => l.index < l'.index := by
  refine List.pairwise_filterMap.mpr ((h.ordered t n hn).imp fun {raw raw'} hlt l hl l' hl' => ?_)
  have hindex {raw : RawLog} {l : Log} (hl : toLog raw = some l) : l.index = raw.logIndex := by
    unfold toLog at hl
    split at hl <;> cases hl
    rfl
  rw [hindex hl, hindex hl']
  exact hlt

-- A relation between the logs of each block, and from block to block, is one between all of them.
theorem pairwise_between {R : Log → Log → Prop}
    (hin : ∀ k, a < k → k ≤ b → (logsOf chain k).Pairwise R)
    (hout : ∀ j k, a < j → j < k → k ≤ b → ∀ l ∈ logsOf chain j, ∀ l' ∈ logsOf chain k, R l l') :
    (between chain a b).Pairwise R := by
  rw [between, List.pairwise_flatMap]
  constructor
  · intro k hk
    rw [List.mem_range'_1] at hk
    exact hin k (by omega) (by omega)
  · refine (List.pairwise_lt_range' (s := a + 1) (n := b - a)).imp_of_mem fun hj hk hjk => ?_
    rw [List.mem_range'_1] at hj hk
    exact hout _ _ (by omega) hjk (by omega)

-- Neither the sort nor the map changes what is already in order.
theorem merge_between (h : History manifest chainAt) (hab : a ≤ b) (hbn : b ≤ n) (hn : n ≤ (chainAt t).head) :
    merge (between (chainAt t) a b) (between (chainAt t) b n) = between (chainAt t) a n := by
  have hsorted : (between (chainAt t) a n).Pairwise before := by
    refine pairwise_between (fun k _ hk => ?_) fun j k _ hjk hk l hl l' hl' => ?_
    · refine (pairwise_logsOf h (hk.trans hn)).imp_of_mem fun hl hl' hlt => .inr ⟨?_, hlt.le⟩
      rw [(mem_logsOf h (hk.trans hn) hl).left, (mem_logsOf h (hk.trans hn) hl').left]
    · left
      rw [(mem_logsOf h (by omega) hl).left, (mem_logsOf h (hk.trans hn) hl').left]
      exact hjk
  have hkeys : ((between (chainAt t) a n).map fun l => (l.blockHash, l.index)).Nodup := by
    refine List.pairwise_map.mpr <| pairwise_between (fun k _ hk => ?_) fun j k _ hjk hk l hl l' hl' heq => ?_
    · exact (pairwise_logsOf h (hk.trans hn)).imp fun hlt heq => hlt.ne (congrArg Prod.snd heq)
    · have heq := congrArg Prod.fst heq
      dsimp only at heq
      rw [(mem_logsOf h (by omega) hl).right, (mem_logsOf h (hk.trans hn) hl').right] at heq
      exact hjk.ne (h.distinct t j k (by omega) (hk.trans hn) heq)
  rw [merge, between_append hab hbn, hsorted.insertionSort_eq, Records.values_eq hkeys]

end Order

section Records

variable {r : Record} {t₁ t₂ : ℕ} {h₀ : ℕ}

-- The decodable logs of all blocks after the anchor up to the block of the record, each once and in order.
structure Exact (manifest : Manifest) (chain : Chain) (r : Record) : Prop where
  anchored : manifest.verifiedBlock ≤ r.through
  logs     : r.logs = between chain manifest.verifiedBlock r.through

-- The record is exact on the chain that has its block.
def Record.Faithful (manifest : Manifest) (chainAt : ℕ → Chain) (r : Record) : Prop :=
  ∀ t, (chainAt t).header r.through = some r.hash → Exact manifest (chainAt t) r

def Valid (manifest : Manifest) (chainAt : ℕ → Chain) (r : Record) : Prop :=
  (∃ t, (chainAt t).header r.through = some r.hash) ∧ r.Faithful manifest chainAt

theorem initial_faithful : (initial manifest).Faithful manifest chainAt :=
  fun _ _ => ⟨le_refl _, between_self.symm⟩

-- Two times at which a block is on the chain agree up to the block.
theorem History.agree (h : History manifest chainAt) (h₁ : (chainAt t₁).header n = some h₀)
    (h₂ : (chainAt t₂).header n = some h₀) {m : ℕ} (hm : m ≤ n) :
    (chainAt t₁).hash m = (chainAt t₂).hash m ∧ (chainAt t₁).logs m = (chainAt t₂).logs m := by
  have ⟨hn₁, he₁⟩ := header_eq_some.mp h₁
  have ⟨hn₂, he₂⟩ := header_eq_some.mp h₂
  exact h.commits t₁ t₂ n hn₁ hn₂ (he₁.trans he₂.symm) m hm

theorem Valid.of_exact (h : History manifest chainAt) (hon : (chainAt t).header r.through = some r.hash)
    (he : Exact manifest (chainAt t) r) : Valid manifest chainAt r := by
  refine ⟨⟨t, hon⟩, fun t' hon' => ⟨he.anchored, ?_⟩⟩
  rw [he.logs]
  exact between_congr fun k _ hk => (h.agree hon hon' hk).right

end Records

section Safe

variable {k process targetEnd through : ℕ} {s s' : Site} {c : Command} {α : Type} {tb hb : ℕ}

-- A scan relies on nothing but time. That the boundary is a block of the chain when it is first read is
-- what the runs are restricted to.
def discipline (manifest : Manifest) (chainAt : ℕ → Chain) : Program.Discipline Site Command where
  invariant s     := (∀ r, s.stored = some r → Valid manifest chainAt r) ∧ ∀ process, 1 ≤ s.windowSize process
  rely _ s s'     := s.time ≤ s'.time
  permitted s c   := ∀ n, c = .boundary n → n ≤ (chainAt s.time).head
  refl _ _        := le_refl _
  trans _ _ _ _ h := h.trans

abbrev Gives (manifest : Manifest) (chainAt : ℕ → Chain) (k : ℕ) (p : Action α) (q : α → Site → Prop) (s : Site) :
    Prop :=
  Program.Safe (service manifest chainAt) (discipline manifest chainAt) k p (Program.Returns q) s

theorem perform_time (r : Reply c) : (s.perform chainAt c r).1.time = s.time := by
  cases c
  case logs      => cases r <;> rfl
  case save      => rw [Site.perform]; split <;> rfl
  all_goals rfl

theorem grows : (service manifest chainAt).Grows (discipline manifest chainAt) fun s s' => s.time ≤ s'.time where
  refl _          := le_refl _
  trans _ _ _ h   := h.trans
  rely _ _ _      := id
  perform _ _ r   := (perform_time r).ge

-- What a reply says of the chain at the time of the command.
def Answered (manifest : Manifest) (chainAt : ℕ → Chain) (t : ℕ) : (c : Command) → Reply c → Prop
  | .get, r        => ∀ saved, r = some saved → Valid manifest chainAt saved
  | .header n, r   => r = (chainAt t).header n
  | .boundary n, r => r = (chainAt t).header n ∧ n ≤ (chainAt t).head
  | .logs lo hi, r => r = none ∨ r = some ((chainAt t).logsIn lo hi)
  | _, _           => True

theorem perform_answered (hi : (discipline manifest chainAt).invariant s)
    (hp : (discipline manifest chainAt).permitted s c) (r : Reply c) :
    Answered manifest chainAt s.time c (s.perform chainAt c r).2 := by
  cases c
  case get        => exact hi.left
  case header     => rfl
  case boundary n => exact ⟨rfl, hp n rfl⟩
  case logs       =>
    cases r
    case none => exact .inl rfl
    case some => exact .inr rfl
  all_goals trivial

-- The commands that change something.
def Command.writes : Command → Bool
  | .save .. | .setWindowSize .. => true
  | _                            => false

theorem perform_reads (hc : c.writes = false) (r : Reply c) :
    (s.perform chainAt c r).1 = s := by
  cases c
  case logs          => cases r <;> rfl
  case save          => cases hc
  case setWindowSize => cases hc
  all_goals rfl

-- A command that writes nothing is answered at some time from now on.
theorem gives_send (hc : c.writes = false) :
    Gives manifest chainAt k (send c)
      (fun r s' => ∃ t, s.time ≤ t ∧ t ≤ s'.time ∧ Answered manifest chainAt t c r) s := by
  refine Program.Safe.returns_call (fun s' r _ hi _ => ⟨?_, fun m _ => ?_⟩) (fun s' r hr hi hp => ?_)
    fun r s₁ s₂ hr ⟨t, h₁, h₂, h₃⟩ => ⟨t, h₁, le_trans h₂ hr, h₃⟩
  · change (discipline manifest chainAt).invariant (s'.perform chainAt c r).1
    rw [perform_reads hc r]
    exact hi
  · exact (perform_time r).ge
  · exact ⟨s'.time, hr, (perform_time r).ge, perform_answered hi hp r⟩

theorem gives_setWindowSize {size : ℕ} (hs : 1 ≤ size) :
    Gives manifest chainAt k (send (.setWindowSize process size)) (fun _ _ => True) s := by
  refine Program.Safe.returns_call (fun s' r _ hi _ => ⟨⟨hi.left, fun other => ?_⟩, fun m _ => ?_⟩)
    (fun _ _ _ _ _ => trivial) fun _ _ _ _ _ => trivial
  · by_cases he : other = process
    · subst he
      exact (Function.update_self other size s'.windowSize).ge.trans' hs
    · exact (Function.update_of_ne he size s'.windowSize).ge.trans' (hi.right other)
  · exact le_refl _

theorem gives_bind {β : Type} {p : Action α} {f : α → Action β} {q : α → Site → Prop} {q' : β → Site → Prop}
    (hp : Gives manifest chainAt k p q s)
    (hf : ∀ a s', s.time ≤ s'.time → q a s' → Gives manifest chainAt k (f a) q' s') :
    Gives manifest chainAt k (p >>= f) q' s :=
  Program.Safe.returns_bind grows hp fun a s' hs _ hq => hf a s' hs hq

theorem gives_pure {a : α} {q : α → Site → Prop} (hq : ∀ s', s.time ≤ s'.time → q a s') :
    Gives manifest chainAt k (pure a) q s := Program.Safe.returns_pure hq

theorem gives_fail {e : Failure} {q : α → Site → Prop} : Gives manifest chainAt k (.fail e) q s :=
  Program.Safe.returns_fail

theorem gives_hasTime {started : ℤ} {p : Progress} :
    Gives manifest chainAt k (hasTime through started p) (fun _ _ => True) s := by
  rw [hasTime]
  split
  case isTrue  => exact gives_pure fun _ _ => trivial
  case isFalse =>
    exact gives_bind (gives_send rfl) fun _ _ _ _ => gives_pure fun _ _ => trivial

theorem gives_checkBlocks {logs : List Log} {blocks : List ℕ} :
    Gives manifest chainAt k (checkBlocks logs blocks) (fun _ _ => True) s := by
  induction blocks generalizing s
  case nil           => exact gives_pure fun _ _ => trivial
  case cons n ns hi =>
    refine gives_bind (gives_send rfl) fun _ _ _ _ => ?_
    split
    case isTrue  => exact gives_fail
    case isFalse => exact hi

-- What a scan has collected since it read the boundary at `tb`, if the boundary stays: the logs of the
-- chain of then.
structure Progress.Good (p : Progress) (chainAt : ℕ → Chain) (tb hb through targetEnd time : ℕ) : Prop where
  reached : through ≤ p.last
  within  : p.last ≤ targetEnd
  logs    : ∀ t ≥ time, (chainAt t).header targetEnd = some hb → p.logs = between (chainAt tb) through p.last

theorem Progress.Good.mono {p : Progress} {time time' : ℕ} (h : p.Good chainAt tb hb through targetEnd time)
    (hle : time ≤ time') : p.Good chainAt tb hb through targetEnd time' :=
  ⟨h.reached, h.within, fun t ht => h.logs t (hle.trans ht)⟩

-- The window that a scan reads next, at a time `tw` after the boundary.
theorem Progress.Good.window {p : Progress} {tw time size : ℕ} {logs : List Log} {before : Option ℕ}
    (h : History manifest chainAt) (hp : p.Good chainAt tb hb through targetEnd time)
    (hhb : (chainAt tb).header targetEnd = some hb) (htb : tb ≤ time) (htw : time ≤ tw)
    (hlogs : readLogs manifest (p.last + 1) (min targetEnd (p.last + 1 + size - 1))
      ((chainAt tw).logsIn (p.last + 1) (min targetEnd (p.last + 1 + size - 1))) = .ok logs) :
    Progress.Good ⟨min targetEnd (p.last + 1 + size - 1), before, p.logs ++ logs⟩ chainAt tb hb through targetEnd tw := by
  have hwithin := hp.within
  have hle : p.last ≤ min targetEnd (p.last + 1 + size - 1) := by omega
  have hle' : min targetEnd (p.last + 1 + size - 1) ≤ targetEnd := min_le_left _ _
  generalize min targetEnd (p.last + 1 + size - 1) = hi at *
  refine ⟨hp.reached.trans hle, hle', fun t ht hon => ?_⟩
  -- The boundary was there when the window was read, and with it all blocks below.
  have hthere := h.stays tb tw t targetEnd hb (htb.trans htw) ht hhb hon
  rw [readLogs_eq h hle (hle'.trans (header_eq_some.mp hthere).left), ok.injEq] at hlogs
  dsimp only
  rw [hp.logs t (htw.trans ht) hon, ← hlogs, ← between_append hp.reached hle]
  congr 1
  exact between_congr fun k _ hk => (h.agree hthere hhb (hk.trans hle')).right

theorem gives_windows {started : ℤ} {attempts : ℕ} {p : Progress} (h : History manifest chainAt)
    (hhb : (chainAt tb).header targetEnd = some hb) (htb : tb ≤ s.time)
    (hp : p.Good chainAt tb hb through targetEnd s.time) :
    Gives manifest chainAt k (windows manifest process through targetEnd started attempts p)
      (fun p s' => p.Good chainAt tb hb through targetEnd s'.time) s := by
  induction attempts generalizing p s
  case zero             => exact gives_pure fun _ hs => hp.mono hs
  case succ attempts hi =>
    rw [windows]
    split
    case isFalse => exact gives_pure fun _ hs => hp.mono hs
    refine gives_bind gives_hasTime fun _ s₁ hs₁ _ => ?_
    split
    case isFalse => exact gives_pure fun _ hs => hp.mono (hs₁.trans hs)
    refine gives_bind (gives_send rfl) fun size s₂ hs₂ _ => ?_
    refine gives_bind (gives_send rfl) fun before s₃ hs₃ _ => ?_
    refine gives_bind (gives_send rfl) fun batch s₄ hs₄ ⟨tw, htw, htw', hbatch⟩ => ?_
    have hs := (hs₁.trans hs₂).trans hs₃
    split
    case h_1 =>
      split
      case isTrue  => exact gives_fail
      case isFalse =>
        refine gives_bind (gives_setWindowSize (by split <;> omega)) fun _ s₅ hs₅ _ => ?_
        have hs := (hs.trans hs₄).trans hs₅
        exact hi (htb.trans hs) (hp.mono hs)
    case h_2 =>
      split
      case isTrue  => exact gives_fail
      case isFalse =>
        split
        case h_1           => exact gives_fail
        case h_2 logs hlogs =>
          obtain hnone | hsome := hbatch
          · cases hnone
          · cases hsome
            exact hi ((htb.trans hs).trans hs₄) ((Progress.Good.window h hp hhb htb (hs.trans htw) hlogs).mono htw')

-- A record that is put together from a faithful one and what was collected is valid.
theorem valid_next {saved : Record} {p : Progress} {t₁ te ta tz hash : ℕ} {target : ℤ}
    (h : History manifest chainAt) (hf : saved.Faithful manifest chainAt) (h₁ : t₁ ≤ tb) (htb : tb ≤ te)
    (hte : te ≤ ta) (hta : ta ≤ tz) (hold : (chainAt t₁).header saved.through = some saved.hash)
    (hhb : (chainAt tb).header targetEnd = some hb)
    (hp : p.Good chainAt tb hb saved.through targetEnd te)
    (hend : (chainAt te).header p.last = some hash) (hafter : (chainAt ta).header targetEnd = some hb)
    (hold' : (chainAt tz).header saved.through = some saved.hash) :
    Valid manifest chainAt ⟨p.last, hash, some target, merge saved.logs p.logs⟩ := by
  have hexact := hf tb (h.stays t₁ tb tz _ _ h₁ (by omega) hold hold')
  have hthere := h.stays tb te ta _ _ htb hte hhb hafter
  have hlast : (chainAt tb).header p.last = some hash := by
    have ⟨hle, _⟩ := header_eq_some.mp hhb
    have heq := (h.agree hhb hthere hp.within).left
    exact header_eq_some.mpr ⟨hp.within.trans hle, heq.trans (header_eq_some.mp hend).right⟩
  have hmerge : merge saved.logs p.logs = between (chainAt tb) manifest.verifiedBlock p.last := by
    rw [hexact.logs, hp.logs ta hte hafter]
    exact merge_between h hexact.anchored hp.reached (header_eq_some.mp hlast).left
  exact .of_exact h hlast ⟨hexact.anchored.trans hp.reached, hmerge⟩

theorem gives_store {prior : Option Record} {target : ℤ} {next : Record} (hv : Valid manifest chainAt next) :
    Gives manifest chainAt k (store prior target next) (fun _ _ => True) s := by
  rw [store]
  split
  case isTrue  => exact gives_fail
  case isFalse =>
    refine gives_bind (q := fun _ _ => True) (Program.Safe.returns_call (fun s' r _ hi _ => ?_) ?_ ?_) fun saved _ _ _ => ?_
    · refine ⟨?_, fun m _ => (@perform_time chainAt s' _ r).ge⟩
      change (discipline manifest chainAt).invariant (s'.perform chainAt (.save prior next) r).1
      rw [Site.perform]
      split
      case isTrue  => exact ⟨by rintro _ ⟨⟩; exact hv, hi.right⟩
      case isFalse => exact hi
    · exact fun _ _ _ _ _ => trivial
    · exact fun _ _ _ _ _ => trivial
    · split
      case isTrue  => exact gives_pure fun _ _ => trivial
      case isFalse => exact gives_fail

theorem gives_conclude {prior : Option Record} {saved : Record} {target : ℤ} {p : Progress} {t₁ : ℕ}
    (h : History manifest chainAt) (hf : saved.Faithful manifest chainAt) (h₁ : t₁ ≤ tb) (htb : tb ≤ s.time)
    (hold : (chainAt t₁).header saved.through = some saved.hash)
    (hhb : (chainAt tb).header targetEnd = some hb)
    (hp : p.Good chainAt tb hb saved.through targetEnd s.time) :
    Gives manifest chainAt k (conclude prior saved target targetEnd (some hb) p) (fun _ _ => True) s := by
  refine gives_bind (gives_send rfl) fun endBlock s₁ hs₁ ⟨te, hte, hte', hend⟩ => ?_
  split
  case isTrue => exact gives_fail
  refine gives_bind (gives_send rfl) fun after s₂ hs₂ ⟨ta, hta, hta', hafter⟩ => ?_
  split
  case isTrue => exact gives_fail
  case isFalse hsame =>
    refine gives_bind (gives_send rfl) fun old s₃ hs₃ ⟨tz, htz, htz', hold'⟩ => ?_
    split
    case isTrue => exact gives_fail
    case isFalse hkept =>
      cases endBlock
      case none      => exact gives_fail
      case some hash =>
        refine gives_store (valid_next h hf h₁ (htb.trans hte) (hte'.trans hta) (hta'.trans htz) hold hhb
          (hp.mono hte) ?_ ?_ ?_)
        · exact hend.symm
        · exact hafter.symm.trans (not_not.mp hsame)
        · exact hold'.symm.trans (not_not.mp hkept)

theorem gives_index {prior : Option Record} {saved : Record} {target : ℤ} {t₁ : ℕ}
    (h : History manifest chainAt) (hf : saved.Faithful manifest chainAt) (h₁ : t₁ ≤ s.time)
    (hold : (chainAt t₁).header saved.through = some saved.hash) (hle : saved.through ≤ targetEnd) :
    Gives manifest chainAt k (index manifest process prior saved target targetEnd) (fun _ _ => True) s := by
  refine gives_bind (gives_send rfl) fun boundary s₁ hs₁ ⟨tb, htb, htb', hb, hhead⟩ => ?_
  have hhb : (chainAt tb).header targetEnd = some ((chainAt tb).hash targetEnd) := header_eq_some.mpr ⟨hhead, rfl⟩
  rw [hhb] at hb
  subst hb
  refine gives_bind (gives_send rfl) fun started s₂ hs₂ _ => ?_
  have hstart : Progress.Good ⟨saved.through, none, []⟩ chainAt tb ((chainAt tb).hash targetEnd)
      saved.through targetEnd s₂.time :=
    ⟨le_refl _, hle, fun _ _ _ => between_self.symm⟩
  refine gives_bind (gives_windows h hhb (htb'.trans hs₂) hstart) fun p s₃ hs₃ hp => ?_
  refine gives_bind gives_checkBlocks fun _ s₄ hs₄ _ => ?_
  exact gives_conclude h hf (h₁.trans htb) ((htb'.trans hs₂).trans (hs₃.trans hs₄)) hold hhb (hp.mono hs₄)

-- The record that a scan goes on from is on the chain, or it is the empty one.
theorem resumed {prior : Option Record} {checkpoint : Option ℕ} {t₀ t₁ time : ℕ}
    (hprior : ∀ saved, prior = some saved → Valid manifest chainAt saved) (h₀ : t₀ ≤ time) (h₁ : t₁ ≤ time)
    (hanchor : (chainAt t₀).header manifest.verifiedBlock = some manifest.verifiedBlockHash)
    (hcheckpoint : checkpoint = (chainAt t₁).header (prior.getD (initial manifest)).through) :
    let saved := if checkpoint = some (prior.getD (initial manifest)).hash then prior.getD (initial manifest)
      else initial manifest
    saved.Faithful manifest chainAt ∧ ∃ t ≤ time, (chainAt t).header saved.through = some saved.hash := by
  intro saved
  by_cases hsame : checkpoint = some (prior.getD (initial manifest)).hash
  case neg =>
    have heq : saved = initial manifest := if_neg hsame
    rw [heq]
    exact ⟨initial_faithful, t₀, h₀, hanchor⟩
  case pos =>
    have heq : saved = prior.getD (initial manifest) := if_pos hsame
    rw [heq]
    refine ⟨?_, t₁, h₁, hcheckpoint.symm.trans hsame⟩
    cases prior
    case none   => exact initial_faithful
    case some r => exact (hprior r rfl).right

theorem gives_scan (h : History manifest chainAt) :
    Gives manifest chainAt k (scan manifest process) (fun _ _ => True) s := by
  refine gives_bind (gives_send rfl) fun prior s₁ hs₁ ⟨_, _, _, hprior⟩ => ?_
  refine gives_bind (gives_send rfl) fun anchor s₂ hs₂ ⟨t₀, _, ht₀, hanchor⟩ => ?_
  split
  case isTrue => exact gives_fail
  case isFalse hsame =>
    refine gives_bind (gives_send rfl) fun checkpoint s₃ hs₃ ⟨t₁, _, ht₁, hcheckpoint⟩ => ?_
    extract_lets saved
    have hres : saved.Faithful manifest chainAt ∧ ∃ t ≤ s₃.time, (chainAt t).header saved.through = some saved.hash :=
      resumed hprior (ht₀.trans hs₃) ht₁ (hanchor.symm.trans (not_not.mp hsame)) hcheckpoint
    clear_value saved
    have ⟨hf, t, ht, hon⟩ := hres
    refine gives_bind (gives_send rfl) fun head s₄ hs₄ _ => ?_
    extract_lets target targetEnd
    split
    case isTrue      => exact gives_pure fun _ _ => trivial
    case isFalse hlt => exact gives_index h hf (ht.trans hs₄) hon (by omega)

theorem service_obeys (h : History manifest chainAt) :
    (service manifest chainAt).Obeys (discipline manifest chainAt) where
  code k process s _ := by
    have hscan : Gives manifest chainAt k (scan manifest process >>= fun _ => pure ()) (fun _ _ => True) s :=
      gives_bind (gives_scan h) fun _ _ _ _ => gives_pure fun _ _ => trivial
    exact hscan.weaken fun _ _ _ _ => trivial
  drift s _ hi := ⟨hi, fun _ => Nat.le_succ s.time⟩

end Safe

end PilotIndex
