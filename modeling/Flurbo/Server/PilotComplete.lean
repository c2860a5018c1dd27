import Flurbo.Server.PilotExact

-- Once head and rejections are stable, refreshes complete the index, unless a window or the record is too
-- large for it.

open Except

namespace PilotIndex

variable {manifest : Manifest} {chain : Chain} {rejects : ℕ → ℕ → Bool} {process : ℕ}

-- What the provider of a chain that stays as it is may answer. Which ranges it rejects is fixed, and the
-- clock shows any time.
def Stable (rejects : ℕ → ℕ → Bool) (_ : Site) : (c : Command) → Reply c → Prop
  | .logs lo hi, r => r = none ↔ rejects lo hi
  | _, _           => True

abbrev Ends {α : Type} (manifest : Manifest) (chain : Chain) (rejects : ℕ → ℕ → Bool) (p : Action α)
    (post : Except Failure α → Site → Prop) (s : Site) : Prop :=
  Program.Ends (service manifest fun _ => chain) (Stable rejects) p post s

-- A process refreshes its index again and again, until a scan ends as it should.
def EndsWithin (manifest : Manifest) (chain : Chain) (rejects : ℕ → ℕ → Bool) (process : ℕ)
    (goal : Except Failure Outcome → Prop) : ℕ → Site → Prop
  | 0, _     => False
  | k + 1, s =>
    Ends manifest chain rejects (scan manifest process) (fun r s' =>
      goal r ∨ EndsWithin manifest chain rejects process goal k s') s

def Complete (r : Except Failure Outcome) : Prop := ∃ o, r = .ok o ∧ o.complete

-- More logs in a window, or in all, than the index is made for.
def Exceeds (r : Except Failure Outcome) : Prop := r = .error .windowExceeded ∨ r = .error .capacityReached

section Alone

variable {s : Site} {α β : Type} {c : Command} {p : Progress} {saved : Record} {through targetEnd attempts : ℕ}

-- What each command comes to on a chain that stays as it is.
section Commands

variable {post : Except Failure β → Site → Prop} {n lo hi size : ℕ}

theorem ends_get {f : Option Record → Action β} (h : Ends manifest chain rejects (f s.stored) post s) :
    Ends manifest chain rejects (send .get >>= f) post s := fun _ _ => h

theorem ends_header {f : Option ℕ → Action β} (h : Ends manifest chain rejects (f (chain.header n)) post s) :
    Ends manifest chain rejects (send (.header n) >>= f) post s := fun _ _ => h

theorem ends_boundary {f : Option ℕ → Action β} (h : Ends manifest chain rejects (f (chain.header n)) post s) :
    Ends manifest chain rejects (send (.boundary n) >>= f) post s := fun _ _ => h

theorem ends_latest {f : ℕ → Action β} (h : Ends manifest chain rejects (f chain.head) post s) :
    Ends manifest chain rejects (send .latest >>= f) post s := fun _ _ => h

theorem ends_now {f : ℤ → Action β} (h : ∀ time, Ends manifest chain rejects (f time) post s) :
    Ends manifest chain rejects (send .now >>= f) post s := fun time _ => h time

theorem ends_windowSize {f : ℕ → Action β}
    (h : Ends manifest chain rejects (f (s.windowSize process)) post s) :
    Ends manifest chain rejects (send (.windowSize process) >>= f) post s := fun _ _ => h

theorem ends_setWindowSize {f : Unit → Action β} (h : Ends manifest chain rejects (f ()) post
      { s with windowSize := Function.update s.windowSize process size }) :
    Ends manifest chain rejects (send (.setWindowSize process size) >>= f) post s := fun _ _ => h

theorem ends_logs {f : Option (List RawLog) → Action β}
    (hnone : rejects lo hi → Ends manifest chain rejects (f none) post s)
    (hsome : Ends manifest chain rejects (f (some (chain.logsIn lo hi))) post s) :
    Ends manifest chain rejects (send (.logs lo hi) >>= f) post s := by
  intro r hr
  cases r
  case none => exact hnone (hr.mp rfl)
  case some => exact hsome

theorem ends_save {prior : Option Record} {next : Record} {f : Bool → Action β} (hp : s.stored = prior)
    (h : Ends manifest chain rejects (f true) post { s with stored := some next }) :
    Ends manifest chain rejects (send (.save prior next) >>= f) post s := by
  intro r _
  have hsave : s.perform (fun _ => chain) (.save prior next) r = ({ s with stored := some next }, true) := by
    rw [Site.perform, if_pos hp]
  change Ends manifest chain rejects (f (s.perform (fun _ => chain) (.save prior next) r).2) post
    (s.perform (fun _ => chain) (.save prior next) r).1
  rw [hsave]
  exact h

end Commands

-- The progress of a scan on a chain that stays as it is.
structure Progress.Fixed (p : Progress) (chain : Chain) (through targetEnd : ℕ) : Prop where
  reached : through ≤ p.last
  within  : p.last ≤ targetEnd
  logs    : p.logs = between chain through p.last
  last    : through < p.last → p.endBefore = chain.header p.last

-- The rejections that windows of a size can still meet.
def rank (size : ℕ) : ℕ := if size = 1 then 0 else if size = 100 then 2 else 1

theorem ends_hasTime {started : ℤ} {f : Bool → Action β} {post : Except Failure β → Site → Prop}
    (h : ∀ b, (p.last = through → b = true) → Ends manifest chain rejects (f b) post s) :
    Ends manifest chain rejects (hasTime through started p >>= f) post s := by
  rw [hasTime]
  split
  case isTrue he  => exact h true fun _ => rfl
  case isFalse he => exact ends_now fun time => h (decide (time - started < 8000)) fun he' => absurd he' he

-- The next window, on a chain that stays as it is.
theorem Progress.Fixed.window {size : ℕ} (h : History manifest fun _ => chain) (ht : targetEnd ≤ chain.head)
    (hp : p.Fixed chain through targetEnd) (hlast : p.last < targetEnd) (hsize : 1 ≤ size) :
    let hi := min targetEnd (p.last + 1 + size - 1)
    readLogs manifest (p.last + 1) hi (chain.logsIn (p.last + 1) hi) = .ok (between chain p.last hi) ∧
      Progress.Fixed ⟨hi, chain.header hi, p.logs ++ between chain p.last hi⟩ chain through targetEnd ∧
      through < hi := by
  intro hi
  have hlt : p.last < hi := by omega
  have hle : hi ≤ targetEnd := min_le_left _ _
  refine ⟨readLogs_eq (t := 0) h hlt.le (hle.trans ht), ⟨hp.reached.trans hlt.le, hle, ?_, fun _ => rfl⟩,
    hp.reached.trans_lt hlt⟩
  rw [hp.logs, between_append hp.reached hlt.le]

theorem rank_lt {size : ℕ} (h : size ≠ 1) : rank (if size = 100 then 10 else 1) < rank size := by
  simp only [rank, if_neg h]
  split <;> decide

theorem ends_windows {started : ℤ} (h : History manifest fun _ => chain) (hrejects : ∀ n, rejects n n = false)
    (ht : targetEnd ≤ chain.head) (hlt : through < targetEnd) (hp : p.Fixed chain through targetEnd)
    (hsize : 1 ≤ s.windowSize process) (hrank : p.last = through → rank (s.windowSize process) < attempts) :
    Ends manifest chain rejects (windows manifest process through targetEnd started attempts p) (fun r s' =>
      s'.stored = s.stored ∧ 1 ≤ s'.windowSize process ∧
        ((∃ p : Progress, r = .ok p ∧ p.Fixed chain through targetEnd ∧ through < p.last) ∨
          r = .error .windowExceeded)) s := by
  induction attempts generalizing p s
  case zero             =>
    refine ⟨rfl, hsize, .inl ⟨p, rfl, hp, lt_of_le_of_ne hp.reached fun he => ?_⟩⟩
    exact absurd (hrank he.symm) (Nat.not_lt_zero _)
  case succ attempts hi =>
    rw [windows]
    split
    case isFalse hge =>
      exact ⟨rfl, hsize, .inl ⟨p, rfl, hp, by omega⟩⟩
    case isTrue hlast =>
      refine ends_hasTime fun b hb => ?_
      split
      case isFalse hb' =>
        exact ⟨rfl, hsize, .inl ⟨p, rfl, hp, lt_of_le_of_ne hp.reached fun he => hb' (hb he.symm)⟩⟩
      case isTrue =>
        obtain ⟨hread, hfixed, hmoved⟩ := hp.window h ht hlast hsize
        refine ends_windowSize <| ends_header <| ends_logs (fun hrejected => ?_) ?_
        case refine_1 =>
          dsimp only
          split
          case isTrue hone  =>
            -- A single block is not rejected.
            have hone : s.windowSize process = 1 := hone
            have hsingle : min targetEnd (p.last + 1 + s.windowSize process - 1) = p.last + 1 := by omega
            rw [hsingle, hrejects] at hrejected
            cases hrejected
          case isFalse hne =>
            have hself : Function.update s.windowSize process (if s.windowSize process = 100 then 10 else 1) process =
                if s.windowSize process = 100 then 10 else 1 := Function.update_self ..
            let narrowed : Site := { s with
              windowSize := Function.update s.windowSize process (if s.windowSize process = 100 then 10 else 1) }
            refine ends_setWindowSize <| hi (s := narrowed) hp ?_ fun he => ?_
            · exact hself.ge.trans' (by split <;> omega)
            · have := hrank he
              have := rank_lt hne
              change rank (Function.update s.windowSize process _ process) < attempts
              rw [hself]
              omega
        case refine_2 =>
          dsimp only
          split
          case isTrue  => exact ⟨rfl, hsize, .inr rfl⟩
          case isFalse =>
            rw [hread]
            exact hi hfixed hsize fun he => absurd he hmoved.ne'

theorem ends_checkBlocks {logs : List Log} {blocks : List ℕ}
    (h : ∀ l ∈ logs, chain.header l.block = some l.blockHash) :
    Ends manifest chain rejects (checkBlocks logs blocks) (fun r s' => r = .ok () ∧ s' = s) s := by
  induction blocks
  case nil           => exact ⟨rfl, rfl⟩
  case cons n ns hi =>
    refine ends_header ?_
    have hnone : ¬ (logs.any fun l => l.block = n ∧ some l.blockHash ≠ chain.header n) = true := by
      simp only [List.any_eq_true, decide_eq_true_eq, not_exists, not_and, not_not]
      rintro l hl rfl
      exact (h l hl).symm
    rw [if_neg hnone]
    exact hi

theorem mem_between {l : Log} {a b : ℕ} (h : History manifest fun _ => chain) (hb : b ≤ chain.head)
    (hl : l ∈ between chain a b) : chain.header l.block = some l.blockHash := by
  have ⟨k, hk, hl⟩ := List.mem_flatMap.mp hl
  rw [List.mem_range'_1] at hk
  have hle : k ≤ chain.head := by omega
  have ⟨hblock, hhash⟩ := mem_logsOf (t := 0) h hle hl
  rw [hblock, hhash]
  exact header_eq_some.mpr ⟨hle, rfl⟩

-- A scan ends with a record that is further on the chain, or finds too much for its index.
def Advances (chain : Chain) (through process : ℕ) (r : Except Failure Outcome) (s : Site) : Prop :=
  1 ≤ s.windowSize process ∧
    (r = .error .windowExceeded ∨ r = .error .capacityReached ∨
      ∃ o, r = .ok o ∧ s.stored = some o.record ∧ through < o.record.through ∧
        chain.header o.record.through = some o.record.hash)

theorem ends_conclude {prior : Option Record} {target : ℤ} (hstored : s.stored = prior)
    (hsize : 1 ≤ s.windowSize process) (ht : targetEnd ≤ chain.head)
    (hon : chain.header saved.through = some saved.hash) (hp : p.Fixed chain saved.through targetEnd)
    (hmoved : saved.through < p.last) :
    Ends manifest chain rejects (conclude prior saved target targetEnd (chain.header targetEnd) p)
      (Advances chain saved.through process) s := by
  have hend : chain.header p.last = some (chain.hash p.last) := header_eq_some.mpr ⟨hp.within.trans ht, rfl⟩
  refine ends_header ?_
  rw [if_neg (not_not.mpr (hp.last hmoved).symm)]
  refine ends_header ?_
  rw [if_neg (not_not.mpr rfl)]
  refine ends_header ?_
  rw [if_neg (not_not.mpr hon), hend]
  dsimp only
  rw [store]
  split
  case isTrue  => exact ⟨hsize, .inr <| .inl rfl⟩
  case isFalse => exact ends_save hstored ⟨hsize, .inr <| .inr ⟨_, rfl, rfl, hmoved, hend⟩⟩

theorem ends_index {prior : Option Record} {target : ℤ} (h : History manifest fun _ => chain)
    (hrejects : ∀ n, rejects n n = false) (hstored : s.stored = prior) (hsize : 1 ≤ s.windowSize process)
    (ht : targetEnd ≤ chain.head) (hlt : saved.through < targetEnd)
    (hon : chain.header saved.through = some saved.hash) :
    Ends manifest chain rejects (index manifest process prior saved target targetEnd)
      (Advances chain saved.through process) s := by
  refine ends_boundary <| ends_now fun started => Program.Ends.bind ?_
  have hstart : Progress.Fixed ⟨saved.through, none, []⟩ chain saved.through targetEnd :=
    ⟨le_refl _, hlt.le, between_self.symm, fun he => absurd he (lt_irrefl _)⟩
  have hrank : rank (s.windowSize process) < 12 := by
    rw [rank]
    split
    case isTrue => decide
    split <;> decide
  refine (ends_windows h hrejects ht hlt hstart hsize fun _ => hrank).mono ?_
  rintro r s' ⟨hsame, hsize', ⟨p, rfl, hp, hmoved⟩ | rfl⟩
  · refine Program.Ends.bind <| (ends_checkBlocks fun l hl => ?_).mono ?_
    · rw [hp.logs] at hl
      exact mem_between h (hp.within.trans ht) hl
    · rintro _ _ ⟨rfl, rfl⟩
      exact ends_conclude (hsame.trans hstored) hsize' ht hon hp hmoved
  · exact ⟨hsize', .inl rfl⟩

-- The record that a scan of the chain goes on from.
def resume (manifest : Manifest) (chain : Chain) (prior : Option Record) : Record :=
  if chain.header (prior.getD (initial manifest)).through = some (prior.getD (initial manifest)).hash then
    prior.getD (initial manifest)
  else
    initial manifest

theorem targetOf_le {tip : ℤ} : targetOf saved tip ≤ tip := by
  rw [targetOf]
  split
  case h_1 => split <;> simp
  case h_2 => exact le_refl _

-- A scan that finds its anchor returns the record that it goes on from, or indexes what follows.
theorem ends_scan_index {post : Except Failure Outcome → Site → Prop}
    (hanchor : chain.header manifest.verifiedBlock = some manifest.verifiedBlockHash)
    (hdone : targetOf (resume manifest chain s.stored) (chain.head - 2) ≤ (resume manifest chain s.stored).through →
      post (.ok ⟨resume manifest chain s.stored, targetOf (resume manifest chain s.stored) (chain.head - 2), true⟩) s)
    (hindex : ∀ target targetEnd, target = targetOf (resume manifest chain s.stored) (chain.head - 2) →
      targetEnd = (min target ((resume manifest chain s.stored).through + 1000)).toNat →
      (resume manifest chain s.stored).through < targetEnd → targetEnd ≤ chain.head →
      Ends manifest chain rejects
        (index manifest process s.stored (resume manifest chain s.stored) target targetEnd) post s) :
    Ends manifest chain rejects (scan manifest process) post s := by
  refine ends_get <| ends_header ?_
  rw [if_neg (not_not.mpr hanchor)]
  refine ends_header <| ends_latest ?_
  change Ends manifest chain rejects
    (if min (targetOf (resume manifest chain s.stored) (chain.head - 2)) ((resume manifest chain s.stored).through + 1000) ≤
        (resume manifest chain s.stored).through then
      pure ⟨resume manifest chain s.stored, targetOf (resume manifest chain s.stored) (chain.head - 2),
        decide (((resume manifest chain s.stored).through : ℤ) ≥ targetOf (resume manifest chain s.stored) (chain.head - 2))⟩
    else
      index manifest process s.stored (resume manifest chain s.stored)
        (targetOf (resume manifest chain s.stored) (chain.head - 2))
        (min (targetOf (resume manifest chain s.stored) (chain.head - 2))
          ((resume manifest chain s.stored).through + 1000)).toNat) _ s
  have htip := @targetOf_le (resume manifest chain s.stored) (chain.head - 2)
  generalize resume manifest chain s.stored = saved at *
  split
  case isTrue hle =>
    have hle : targetOf saved (chain.head - 2) ≤ saved.through := by omega
    have hok := hdone hle
    rw [← decide_eq_true hle] at hok
    exact hok
  case isFalse    => exact hindex _ _ rfl rfl (by omega) (by omega)

theorem ends_scan (h : History manifest fun _ => chain) (hrejects : ∀ n, rejects n n = false)
    (hanchor : chain.header manifest.verifiedBlock = some manifest.verifiedBlockHash)
    (hsize : 1 ≤ s.windowSize process) :
    Ends manifest chain rejects (scan manifest process) (fun r s' =>
      (∃ o, r = .ok o ∧ o.complete) ∨ Advances chain (resume manifest chain s.stored).through process r s') s := by
  have hon : chain.header (resume manifest chain s.stored).through = some (resume manifest chain s.stored).hash := by
    rw [resume]
    split
    case isTrue hsame => exact hsame
    case isFalse      => exact hanchor
  refine ends_scan_index hanchor (fun _ => .inl ⟨_, rfl, rfl⟩) fun target targetEnd _ _ hlt ht => ?_
  exact (ends_index h hrejects rfl hsize ht hlt hon).mono fun _ _ => .inr

-- A first window with too many logs makes a scan fail, and leaves everything as it was.
theorem ends_exceeds {prior : Option Record} {target : ℤ} (hlt : saved.through < targetEnd)
    (hlogs : (chain.logsIn (saved.through + 1)
      (min targetEnd (saved.through + 1 + s.windowSize process - 1))).length > 2000) :
    Ends manifest chain (fun _ _ => false) (index manifest process prior saved target targetEnd)
      (fun r s' => r = .error .windowExceeded ∧ s' = s) s := by
  refine ends_boundary <| ends_now fun started => Program.Ends.bind ?_
  rw [windows, if_pos hlt]
  refine ends_hasTime fun b hb => ?_
  rw [if_pos (hb rfl)]
  refine ends_windowSize <| ends_header <| ends_logs (by simp) ?_
  dsimp only
  rw [if_pos hlogs]
  exact ⟨rfl, rfl⟩

-- What the first window of the next scan has.
def Crowded (manifest : Manifest) (chain : Chain) (process : ℕ) (s : Site) : Prop :=
  let saved := resume manifest chain s.stored
  let target := targetOf saved (chain.head - 2)
  let targetEnd := (min target (saved.through + 1000)).toNat
  saved.through < target ∧ (chain.logsIn (saved.through + 1)
    (min targetEnd (saved.through + 1 + s.windowSize process - 1))).length > 2000

theorem never_completes (hanchor : chain.header manifest.verifiedBlock = some manifest.verifiedBlockHash)
    (hs : Crowded manifest chain process s) (k : ℕ) :
    ¬ EndsWithin manifest chain (fun _ _ => false) process Complete k s := by
  have ⟨hlt, hlogs⟩ := hs
  have hfails : Ends manifest chain (fun _ _ => false) (scan manifest process)
      (fun r s' => r = .error .windowExceeded ∧ s' = s) s := by
    refine ends_scan_index hanchor (fun hle => absurd hle (not_le.mpr hlt)) fun target targetEnd ht he hlt' _ => ?_
    subst ht he
    exact ends_exceeds hlt' hlogs
  have hanswers (s : Site) (c : Command) : ∃ r, Stable (fun _ _ => false) s c r := by
    cases c
    case logs => exact ⟨some [], by simp [Stable]⟩
    all_goals exact ⟨default, trivial⟩
  induction k
  case zero      => exact id
  case succ k hi =>
    intro h
    obtain ⟨_, _, ⟨o, rfl, _⟩ | hnext, he, rfl⟩ := Program.Ends.exists hanswers h hfails
    · cases he
    · exact hi hnext

theorem endsWithin (h : History manifest fun _ => chain) (hrejects : ∀ n, rejects n n = false)
    (hanchor : chain.header manifest.verifiedBlock = some manifest.verifiedBlockHash) {k : ℕ}
    (hk : chain.head - (resume manifest chain s.stored).through < k) (hsize : 1 ≤ s.windowSize process) :
    EndsWithin manifest chain rejects process (fun r => Complete r ∨ Exceeds r) k s := by
  induction k generalizing s
  case zero       => exact absurd hk (Nat.not_lt_zero _)
  case succ k hi  =>
    refine (ends_scan h hrejects hanchor hsize).mono ?_
    rintro r s' (hdone | ⟨hsize', rfl | rfl | ⟨o, rfl, hstored, hmoved, hon⟩⟩)
    · exact .inl <| .inl hdone
    · exact .inl <| .inr <| .inl rfl
    · exact .inl <| .inr <| .inr rfl
    · refine .inr <| hi ?_ hsize'
      have hresume : resume manifest chain s'.stored = o.record := by
        rw [hstored]
        exact if_pos hon
      have hle := (header_eq_some.mp hon).left
      rw [hresume]
      omega

end Alone

-- In every run in which the boundary of a scan is a block of the chain when it is first read, every
-- record is exact. From every store that is reached, refreshes of a chain that stays as it is complete the
-- index, or find more logs than it is made for.
theorem index_exact {chainAt : ℕ → Chain} (h : History manifest chainAt) {es : List (Program.Event Reply ℕ Unit)}
    (hp : Run.Along (service manifest chainAt).step (discipline manifest chainAt).Permits (.initial Site.empty) es) :
    let site := (Run.run (service manifest chainAt).step (.initial Site.empty) es).store
    (∀ r, site.stored = some r → Valid manifest chainAt r) ∧
    (∀ chain rejects process, (History manifest fun _ => chain) → (∀ n, rejects n n = false) →
      chain.header manifest.verifiedBlock = some manifest.verifiedBlockHash →
      ∃ k, EndsWithin manifest chain rejects process (fun r => Complete r ∨ Exceeds r) k site) := by
  intro site
  have hempty : (discipline manifest chainAt).invariant Site.empty := ⟨nofun, fun _ => by norm_num [Site.empty]⟩
  have hs := ((Program.World.Sound.initial hempty).run (service_obeys h) hp).invariant
  exact ⟨hs.left, fun chain rejects process hc hr ha =>
    ⟨_, endsWithin hc hr ha (Nat.lt_succ_self _) (hs.right process)⟩⟩

section Testnet

def Testnet.pilot : Manifest := ⟨7, 8, 0, 0⟩

def Testnet.event (hash index : ℕ) : RawLog := ⟨false, 7, 1, hash, some 5, index, some ("Funded", "\x7b\x7d")⟩

-- A chain that loses its blocks for others twice, and then has a block of the given number last. Block 1
-- of the third one has an event.
def Testnet.reorganized (last t : ℕ) : Chain where
  head   := if t = 0 then 5 else if t = 1 then 1 else last
  hash n := if n = 0 then 0 else 10 * (min t 2 + 1) + n
  logs n := if 2 ≤ t ∧ n = 1 then [Testnet.event 31 0] else []

variable {last : ℕ}

theorem Testnet.reorganized_eq {t t' : ℕ} (h : min t 2 = min t' 2) :
    Testnet.reorganized last t = Testnet.reorganized last t' := by
  have h₀ : t = 0 ↔ t' = 0 := by omega
  have h₁ : t = 1 ↔ t' = 1 := by omega
  have h₂ : 2 ≤ t ↔ 2 ≤ t' := by omega
  simp only [Testnet.reorganized, h, h₀, h₁, h₂]

theorem Testnet.reorganized_time {t t' n : ℕ} (hn : n ≠ 0)
    (h : (Testnet.reorganized last t).hash n = (Testnet.reorganized last t').hash n) : min t 2 = min t' 2 := by
  simp only [Testnet.reorganized, if_neg hn] at h
  omega

theorem History.still {chainAt : ℕ → Chain} (h : History manifest chainAt) (t : ℕ) :
    History manifest fun _ => chainAt t where
  commits _ _ n h₁ h₂ he := h.commits t t n h₁ h₂ he
  stays                  := by
    intro _ _ _ _ _ _ _ h₁ _
    exact h₁
  distinct _             := h.distinct t
  wellFormed _           := h.wellFormed t
  ordered _              := h.ordered t

theorem Testnet.reorganized_history : History Testnet.pilot (Testnet.reorganized last) where
  commits    := by
    intro t t' n _ _ h m hm
    by_cases hn : n = 0
    · obtain rfl : m = 0 := by omega
      exact ⟨rfl, by simp [Testnet.reorganized]⟩
    · rw [Testnet.reorganized_eq (Testnet.reorganized_time hn h)]
      exact ⟨rfl, rfl⟩
  stays      := by
    intro t₁ t₂ t₃ n h₀ h₁₂ h₂₃ h₁ h₃
    by_cases hn : n = 0
    · subst hn
      exact header_eq_some.mpr ⟨Nat.zero_le _, (header_eq_some.mp h₁).right⟩
    · have h := Testnet.reorganized_time hn
        ((header_eq_some.mp h₁).right.trans (header_eq_some.mp h₃).right.symm)
      rw [← Testnet.reorganized_eq (by omega : min t₁ 2 = min t₂ 2)]
      exact h₁
  distinct   := by
    intro t m n _ _ h
    simp only [Testnet.reorganized] at h
    split at h <;> split at h <;> omega
  wellFormed := by
    intro t n _ l hl
    simp only [Testnet.reorganized] at hl
    split at hl
    case isFalse => cases hl
    case isTrue hn =>
      obtain ⟨ht, rfl⟩ := hn
      obtain rfl := List.mem_singleton.mp hl
      have hmin : min t 2 = 2 := by omega
      exact ⟨rfl, .inl rfl, rfl, by simp [Testnet.reorganized, Testnet.event, hmin], rfl⟩
  ordered    := by
    intro t n _
    simp only [Testnet.reorganized]
    split <;> simp

def Testnet.answer (time : ℤ) (accepted : Bool) : (c : Command) → Reply c
  | .get              => none
  | .header _         => none
  | .boundary _       => none
  | .latest           => 0
  | .logs ..          => if accepted then some [] else none
  | .now              => time
  | .windowSize _     => 0
  | .setWindowSize .. => ()
  | .save ..          => false

-- The scan of one process, with the time that the clock shows and whether ranges are accepted.
def Testnet.proceed (steps : ℕ) (time : ℤ) (accepted : Bool) : List (Program.Event Reply ℕ Unit) :=
  List.replicate steps (.proceed 0 .done (Testnet.answer time accepted))

def Testnet.shrinking : List (Program.Event Reply ℕ Unit) :=
  .start 0 0 :: Testnet.proceed 4 0 true ++ .drift () :: Testnet.proceed 10 0 false ++
    Testnet.proceed 3 0 true ++ .drift () :: Testnet.proceed 4 0 true ++ Testnet.proceed 5 9000 true

-- A chain with all its events in one block.
def Testnet.crowded (events : ℕ) : Chain where
  head   := 10
  hash n := n
  logs n := if n = 1 then (List.range events).map (Testnet.event 1) else []

theorem Testnet.crowded_history {events : ℕ} : History Testnet.pilot fun _ => Testnet.crowded events where
  commits    := by
    intro _ _ _ _ _ _ _ _
    exact ⟨rfl, rfl⟩
  stays      := by
    intro _ _ _ _ _ _ _ h _
    exact h
  distinct   := by
    intro _ _ _ _ _ h
    exact h
  wellFormed := by
    intro _ n _ l hl
    simp only [Testnet.crowded] at hl
    split at hl
    case isFalse => cases hl
    case isTrue hn =>
      subst hn
      have ⟨i, _, hi⟩ := List.mem_map.mp hl
      subst hi
      exact ⟨rfl, .inl rfl, rfl, rfl, rfl⟩
  ordered    := by
    intro _ n _
    simp only [Testnet.crowded]
    split
    case isFalse => exact .nil
    case isTrue  => exact List.pairwise_map.mpr List.pairwise_lt_range

theorem Testnet.crowded_length {events : ℕ} : events ≤ ((Testnet.crowded events).logsIn 1 8).length := by
  have hlogs : (Testnet.crowded events).logs 1 = (List.range events).map (Testnet.event 1) := by
    simp [Testnet.crowded]
  change events ≤ ((1 :: List.range' 2 7).flatMap (Testnet.crowded events).logs).length
  rw [List.flatMap_cons, List.length_append, hlogs, List.length_map, List.length_range]
  exact Nat.le_add_right _ _

-- A scan whose boundary is missing at both of its reads can save a record that misses an
-- event, and a chain with a crowded block is never indexed.
theorem index_gap :
    (∃ r, (Run.run (service Testnet.pilot (Testnet.reorganized 2)).step (.initial Site.empty)
      Testnet.shrinking).store.stored = some r ∧ ¬ Valid Testnet.pilot (Testnet.reorganized 2) r) ∧
    (History Testnet.pilot fun _ => Testnet.crowded 2001) ∧
    ¬ ∃ k, EndsWithin Testnet.pilot (Testnet.crowded 2001) (fun _ _ => false) 0 Complete k Site.empty := by
  refine ⟨⟨⟨2, 32, some 3, []⟩, by rfl, fun hv => ?_⟩, Testnet.crowded_history, fun ⟨k, hk⟩ => ?_⟩
  · have h := (hv.right 2 rfl).logs
    cases h
  · exact never_completes rfl ⟨by decide, Testnet.crowded_length.trans_lt' (by decide)⟩ k hk

instance decidablePermitted {chainAt : ℕ → Chain} (s : Site) :
    ∀ c, Decidable ((discipline manifest chainAt).permitted s c)
  | .boundary n => decidable_of_iff (n ≤ (chainAt s.time).head) ⟨fun h _ he => (by cases he; exact h), fun h => h n rfl⟩
  | .get | .header _ | .latest | .logs .. | .now | .windowSize _ | .setWindowSize .. | .save .. => .isTrue nofun

-- A scan before the reorganizations, and one after them that replaces its record.
def Testnet.replacing : List (Program.Event Reply ℕ Unit) :=
  .start 0 0 :: Testnet.proceed 14 0 true ++ [.crash 0, .drift (), .drift (), .start 0 0] ++
    Testnet.proceed 15 0 true

theorem index_exact_testnet :
    let site := (Run.run (service Testnet.pilot (Testnet.reorganized 6)).step (.initial Site.empty)
      Testnet.replacing).store
    (∃ r, (Run.run (service Testnet.pilot (Testnet.reorganized 6)).step (.initial Site.empty)
      (.start 0 0 :: Testnet.proceed 14 0 true)).store.stored = some r ∧ r.hash = 13) ∧
    site.stored = some ⟨4, 34, some 4, [⟨7, 1, 31, 5, 0, "Funded", "\x7b\x7d"⟩]⟩ ∧
    (∀ r, site.stored = some r → Valid Testnet.pilot (Testnet.reorganized 6) r) ∧
    ∃ k, EndsWithin Testnet.pilot (Testnet.reorganized 6 2) (fun lo hi => lo < hi) 0
      (fun r => Complete r ∨ Exceeds r) k site := by
  have ⟨hvalid, hcompletes⟩ := @index_exact _ _ (@Testnet.reorganized_history 6) Testnet.replacing (by decide +kernel)
  exact ⟨⟨_, rfl, rfl⟩, by decide +kernel, hvalid,
    hcompletes (Testnet.reorganized 6 2) _ 0 (Testnet.reorganized_history.still 2) (by simp) rfl⟩

end Testnet

end PilotIndex
