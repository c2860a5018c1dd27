import Flurbo.Server.PayoutIndex

-- The index misses no payout: every record holds the redemptions up to its block, and repeated scans of
-- a head complete it.

open Except

namespace PayoutIndex

variable {manifest : Manifest} {chain last : Chain} {lo hi m n b target : ℕ}

-- A chain on which the pool is resolved once after the anchor, and then owes less by what it pays. Logs
-- come in the order of their indices, and a transaction is in one block.
structure History (manifest : Manifest) (chain : Chain) : Prop where
  anchor       : chain.resolved manifest.verifiedBlock = false
  once         : ∀ m n, m ≤ n → n ≤ chain.head → chain.resolved m → chain.resolved n
  decreases    : ∀ n, n + 1 ≤ chain.head → chain.resolved n →
                   chain.requiredCollateral (n + 1) + ((chain.logs (n + 1)).map (·.collateralAmount)).sum =
                     chain.requiredCollateral n
  wellFormed   : ∀ n ≤ chain.head, ∀ l ∈ chain.logs n, l.removed = false ∧ l.address = manifest.pool ∧
                   l.blockNumber = n ∧ l.blockHash = (chain.header n).hash
  ordered      : ∀ n ≤ chain.head, (chain.logs n).Pairwise fun l l' => l.logIndex < l'.logIndex
  transactions : ∀ m n, m < n → n ≤ chain.head → ∀ l ∈ chain.logs m, ∀ l' ∈ chain.logs n,
                   l.transactionHash ≠ l'.transactionHash

-- The payouts of a block, and of the blocks from one to another.
def paid (chain : Chain) (n : ℕ) : List Log :=
  ((chain.logs n).map (toLog chain n)).filter (0 < ·.collateralAmount)

def paidBetween (chain : Chain) (b n : ℕ) : List Log := (List.range' b (n + 1 - b)).flatMap (paid chain)

-- The block of the resolution.
structure Resolution (manifest : Manifest) (chain : Chain) (b : ℕ) : Prop where
  after    : manifest.verifiedBlock < b
  resolved : chain.resolved b
  first    : ∀ m < b, chain.resolved m = false

-- The record holds the payouts from the resolution up to its block, each once and in chain order, and
-- what the pool still owes there.
structure Exact (manifest : Manifest) (chain : Chain) (r : Record) (b : ℕ) : Prop where
  resolution : Resolution manifest chain b
  reached    : b ≤ r.through
  logs       : r.logs = paidBetween chain b r.through
  liability  : r.liability = chain.requiredCollateral r.through

section Search

variable {p : ℕ → Bool}

theorem first_spec (hle : lo ≤ hi) (hp : p hi) (hmono : ∀ m n, lo ≤ m → m ≤ n → n ≤ hi → p m → p n) :
    lo ≤ first lo hi p ∧ first lo hi p ≤ hi ∧ p (first lo hi p) ∧
      ∀ m, lo ≤ m → m < first lo hi p → p m = false := by
  fun_induction first lo hi p
  case case1 lo hi hlt mid hmid ih =>
    have ⟨h₁, h₂, h₃, h₄⟩ := ih (by omega) hmid fun m n hm hmn hn => hmono m n hm hmn (by omega)
    exact ⟨h₁, by omega, h₃, h₄⟩
  case case2 lo hi hlt mid hmid ih =>
    have ⟨h₁, h₂, h₃, h₄⟩ := ih (by omega) hp fun m n hm hmn hn => hmono m n (by omega) hmn hn
    refine ⟨by omega, h₂, h₃, fun m hm hlt => ?_⟩
    by_cases hle : m ≤ mid
    · by_contra hpm
      exact hmid (hmono m mid hm hle (by omega) (by simpa using hpm))
    · exact h₄ m (by omega) hlt
  case case3 lo hi hge =>
    have : lo = hi := by omega
    subst this
    exact ⟨le_refl _, le_refl _, hp, by omega⟩

end Search

section Payouts

theorem events_eq (h : History manifest chain) (hn : n ≤ chain.head) :
    events manifest chain n = .ok (paid chain n) := by
  have hread : (chain.logs n).mapM (readLog manifest chain n) = .ok ((chain.logs n).map (toLog chain n)) := by
    rw [mapM_eq_ok]
    refine List.forall₂_map_right_iff.mpr (List.forall₂_same.mpr fun l hl => ?_)
    have ⟨hr, ha, hb, hh⟩ := h.wellFormed n hn l hl
    simp [readLog, hr, ha, hb, hh]
  rw [events, hread]
  rfl

theorem sum_filter_pos {l : List Log} :
    ((l.filter (0 < ·.collateralAmount)).map (·.collateralAmount)).sum = (l.map (·.collateralAmount)).sum := by
  induction l
  case nil         => rfl
  case cons a l hi =>
    by_cases ha : 0 < a.collateralAmount
    · simp [ha, hi]
    · simp [hi, Nat.eq_zero_of_not_pos ha]

theorem sum_paid : ((paid chain n).map (·.collateralAmount)).sum =
    ((chain.logs n).map (·.collateralAmount)).sum := by
  rw [paid, sum_filter_pos, List.map_map]
  rfl

theorem History.paid (h : History manifest chain) (hn : n + 1 ≤ chain.head) (hr : chain.resolved n) :
    chain.requiredCollateral (n + 1) + ((paid chain (n + 1)).map (·.collateralAmount)).sum =
      chain.requiredCollateral n := by
  rw [sum_paid]
  exact h.decreases n hn hr

theorem History.required_le (h : History manifest chain) (hmn : m ≤ n) (hn : n ≤ chain.head)
    (hr : chain.resolved m) : chain.requiredCollateral n ≤ chain.requiredCollateral m := by
  induction n, hmn using Nat.le_induction
  case base           => exact le_refl _
  case succ n hmn hi =>
    have := h.decreases n hn (h.once m n hmn (by omega) hr)
    have := hi (by omega)
    omega

-- If the pool owes the same before and after, nothing is paid in between.
theorem History.quiet (h : History manifest chain) (hn : n ≤ chain.head)
    (hr : chain.resolved m) (heq : chain.requiredCollateral n = chain.requiredCollateral m) {k : ℕ}
    (hk : m < k) (hkn : k ≤ n) : PayoutIndex.paid chain k = [] := by
  obtain ⟨k, rfl⟩ : ∃ j, k = j + 1 := ⟨k - 1, by omega⟩
  have hrk := h.once m k (by omega) (by omega) hr
  have h₁ := h.paid (n := k) (by omega) hrk
  have h₂ := h.required_le (by omega : m ≤ k) (by omega) hr
  have h₃ := h.required_le hkn hn (h.once m (k + 1) (by omega) (by omega) hr)
  have hzero : ((PayoutIndex.paid chain (k + 1)).map (·.collateralAmount)).sum = 0 := by omega
  refine List.eq_nil_iff_forall_not_mem.mpr fun l hl => ?_
  have hpos : 0 < l.collateralAmount := by simpa using List.of_mem_filter hl
  have := List.single_le_sum (fun _ _ => Nat.zero_le _) _ (List.mem_map_of_mem (f := (·.collateralAmount)) hl)
  omega

theorem paidBetween_append (hbm : b ≤ m + 1) (hmn : m ≤ n) :
    paidBetween chain b n = paidBetween chain b m ++ (List.range' (m + 1) (n - m)).flatMap (paid chain) := by
  rw [paidBetween, paidBetween, ← List.flatMap_append]
  congr 1
  have h : n + 1 - b = (m + 1 - b) + (n - m) := by omega
  rw [h, ← List.range'_append]
  congr 2
  omega

theorem paidBetween_quiet (hbm : b ≤ m + 1) (hmn : m ≤ n) (hq : ∀ k, m < k → k ≤ n → paid chain k = []) :
    paidBetween chain b n = paidBetween chain b m := by
  have hnil : (List.range' (m + 1) (n - m)).flatMap (paid chain) = [] := by
    refine List.flatMap_eq_nil_iff.mpr fun k hk => ?_
    rw [List.mem_range'_1] at hk
    exact hq k (by omega) (by omega)
  rw [paidBetween_append hbm hmn, hnil, List.append_nil]

end Payouts

section Order

variable {l : Log}

theorem mem_paid (hl : l ∈ paid chain n) : ∃ raw ∈ chain.logs n, l = toLog chain n raw := by
  have ⟨raw, hraw, heq⟩ := List.mem_map.mp (List.mem_filter.mp hl).left
  exact ⟨raw, hraw, heq.symm⟩

-- The payouts of a block in the order of their indices.
theorem History.pairwise_paid (h : History manifest chain) (hn : n ≤ chain.head) :
    (PayoutIndex.paid chain n).Pairwise fun l l' => l.index < l'.index :=
  List.Pairwise.filter _ (List.pairwise_map.mpr (h.ordered n hn))

-- A relation between the payouts of each block, and from block to block, is one between all of them.
theorem pairwise_paidBetween {R : Log → Log → Prop}
    (hin : ∀ k, b ≤ k → k ≤ n → (PayoutIndex.paid chain k).Pairwise R)
    (hout : ∀ j k, b ≤ j → j < k → k ≤ n → ∀ l ∈ PayoutIndex.paid chain j, ∀ l' ∈ PayoutIndex.paid chain k, R l l') :
    (paidBetween chain b n).Pairwise R := by
  rw [paidBetween, List.pairwise_flatMap]
  constructor
  · intro k hk
    rw [List.mem_range'_1] at hk
    exact hin k (by omega) (by omega)
  · refine (List.pairwise_lt_range' (s := b) (n := n + 1 - b)).imp_of_mem fun hj hk hjk => ?_
    rw [List.mem_range'_1] at hj hk
    exact hout _ _ (by omega) hjk (by omega)

theorem History.sorted (h : History manifest chain) (hn : n ≤ chain.head) :
    (paidBetween chain b n).Pairwise before := by
  refine pairwise_paidBetween (fun k _ hk => ?_) fun j k _ hjk hk l hl l' hl' => ?_
  · refine (h.pairwise_paid (hk.trans hn)).imp_of_mem fun hl hl' hlt => ?_
    obtain ⟨_, _, rfl⟩ := mem_paid hl
    obtain ⟨_, _, rfl⟩ := mem_paid hl'
    exact .inr ⟨rfl, hlt.le⟩
  · obtain ⟨_, _, rfl⟩ := mem_paid hl
    obtain ⟨_, _, rfl⟩ := mem_paid hl'
    exact .inl hjk

theorem History.distinct (h : History manifest chain) (hn : n ≤ chain.head) :
    ((paidBetween chain b n).map fun l => (l.hash, l.index)).Nodup := by
  refine List.pairwise_map.mpr <| pairwise_paidBetween (fun k _ hk => ?_) fun j k _ hjk hk l hl l' hl' heq => ?_
  · refine (h.pairwise_paid (hk.trans hn)).imp fun hlt heq => ?_
    exact hlt.ne (congrArg Prod.snd heq)
  · obtain ⟨raw, hraw, rfl⟩ := mem_paid hl
    obtain ⟨raw', hraw', rfl⟩ := mem_paid hl'
    exact h.transactions j k hjk (hk.trans hn) raw hraw raw' hraw' (congrArg Prod.fst heq)

-- Neither the map nor the sort changes what is already in order.
theorem History.unique (h : History manifest chain) (hn : n ≤ chain.head) :
    (Records.values (fun l : Log => (l.hash, l.index)) (paidBetween chain b n)).insertionSort before =
      paidBetween chain b n := by
  rw [Records.values_eq (h.distinct hn)]
  exact (h.sorted hn).insertionSort_eq

end Order

section Advance

variable {s s' : Progress} {budget : ℕ}

-- Cursor, liability and logs agree.
structure Progress.At (s : Progress) (chain : Chain) (b target : ℕ) : Prop where
  reached   : b ≤ s.cursor
  within    : s.cursor ≤ target
  liability : s.liability = chain.requiredCollateral s.cursor
  logs      : s.logs = paidBetween chain b s.cursor

-- The next block with a payout, and all that is paid up to it.
theorem Progress.At.next (h : History manifest chain) (hr : Resolution manifest chain b) (ht : target ≤ chain.head)
    (hs : s.At chain b target) (hlt : chain.requiredCollateral target < s.liability) :
    let next := first (s.cursor + 1) target fun n => chain.requiredCollateral n < s.liability
    next ≤ target ∧ chain.requiredCollateral next < s.liability ∧
      ((paid chain next).map (·.collateralAmount)).sum + chain.requiredCollateral next = s.liability ∧
      Progress.At ⟨next, chain.requiredCollateral next, s.logs ++ paid chain next⟩ chain b target := by
  have ⟨hb, hc, hl, hlogs⟩ := hs
  have hres (k : ℕ) (hk : b ≤ k) (hk' : k ≤ target) : chain.resolved k := h.once b k hk (by omega) hr.resolved
  have hcursor : s.cursor < target := by
    rcases hc.lt_or_eq with hc | hc
    · exact hc
    · rw [hl, hc] at hlt
      exact absurd hlt (lt_irrefl _)
  have ⟨h₁, h₂, h₃, h₄⟩ := @first_spec (s.cursor + 1) target (fun n => chain.requiredCollateral n < s.liability)
    hcursor (by simpa using hlt) fun m n hm hmn hn hp => by
      have := h.required_le hmn (hn.trans ht) (hres m (by omega) (by omega))
      simp only [decide_eq_true_eq] at hp ⊢
      omega
  generalize first (s.cursor + 1) target (fun n => chain.requiredCollateral n < s.liability) = next at h₁ h₂ h₃ h₄
  simp only [decide_eq_true_eq, decide_eq_false_iff_not, not_lt] at h₃ h₄
  obtain ⟨next, rfl⟩ : ∃ k, next = k + 1 := ⟨next - 1, by omega⟩
  have hle := h.required_le (by omega : s.cursor ≤ next) (by omega) (hres _ hb hc)
  -- Nothing changes before the next block.
  have heq : chain.requiredCollateral next = chain.requiredCollateral s.cursor := by
    rcases (by omega : s.cursor ≤ next).lt_or_eq with hlt | hlt
    · have := h₄ next (by omega) (by omega)
      omega
    · rw [hlt]
  have hpaid := h.paid (by omega : next + 1 ≤ chain.head) (hres next (by omega) (by omega))
  have hbefore : paidBetween chain b next = paidBetween chain b s.cursor :=
    paidBetween_quiet (by omega) (by omega) fun k hk hk' =>
      h.quiet (by omega) (hres _ hb hc) heq hk hk'
  have hreached : b ≤ next + 1 := by omega
  refine ⟨h₂, h₃, by omega, hreached, h₂, rfl, ?_⟩
  dsimp only
  rw [hlogs, ← hbefore, paidBetween_append (by omega : b ≤ next + 1) (by omega : next ≤ next + 1)]
  simp

theorem advance_spec (h : History manifest chain) (hr : Resolution manifest chain b) (ht : target ≤ chain.head)
    (hs : s.At chain b target) :
    ∃ s', advance manifest chain target (chain.requiredCollateral target) budget s = .ok s' ∧
      s'.At chain b target ∧ s'.liability ≤ s.liability ∧
      (0 < budget → chain.requiredCollateral target < s.liability → s'.liability < s.liability) := by
  induction budget generalizing s
  case zero            => exact ⟨s, rfl, hs, le_refl _, by omega⟩
  case succ budget hi  =>
    rw [advance]
    by_cases hlt : s.liability > chain.requiredCollateral target
    case neg => exact ⟨s, by rw [if_neg hlt], hs, le_refl _, fun _ h => absurd h hlt⟩
    case pos =>
      have ⟨hle, hless, hsum, hat⟩ := hs.next h hr ht hlt
      have ⟨s', hok, hat', hle', _⟩ := hi hat
      rw [if_pos hlt]
      simp only [events_eq h (hle.trans ht), ok_bind]
      generalize first (s.cursor + 1) target (fun n => chain.requiredCollateral n < s.liability) = next at *
      have hcheck : ¬ ((((paid chain next).map (·.collateralAmount)).sum : ℕ) : ℤ) ≠
          s.liability - chain.requiredCollateral next := by omega
      rw [if_neg hcheck]
      exact ⟨s', hok, hat', hle'.trans hless.le, fun _ _ => hle'.trans_lt hless⟩

end Advance

section Scan

variable {prior : Option Record} {r : Record} {s : Progress}

-- The two chains have the same blocks up to a number.
def Agree (chain chain' : Chain) (n : ℕ) : Prop :=
  ∀ m ≤ n, chain.header m = chain'.header m ∧ chain.resolved m = chain'.resolved m ∧
    chain.requiredCollateral m = chain'.requiredCollateral m ∧ chain.logs m = chain'.logs m

-- The hash of a block commits to all that is before it.
def Commits (chain chain' : Chain) : Prop :=
  ∀ n, n ≤ chain.head → n ≤ chain'.head → (chain.header n).hash = (chain'.header n).hash → Agree chain chain' n

-- The record is on the chain.
def Record.On (r : Record) (chain : Chain) : Prop :=
  r.through ≤ chain.head ∧ (chain.header r.through).hash = r.hash

def Fits (manifest : Manifest) (chain : Chain) (prior : Option Record) : Prop :=
  ∀ r, prior = some r → r.On chain → ∃ b, Exact manifest chain r b

-- The failures of a scan that are not its own: of the provider, of a chain without the anchor or that
-- has moved on, and of a record that is too long.
def Refused (e : Failure) : Prop :=
  e = .unavailable ∨ e = .anchorChanged ∨ e = .snapshotChanged ∨ e = .capacityReached

def savedAt (chain : Chain) (target : ℕ) (prior : Option Record) : Option Record :=
  prior.filter fun saved => saved.through ≤ target ∧ (chain.header saved.through).hash = saved.hash

theorem start_spec (h : History manifest chain) (ht : target ≤ chain.head) (hv : manifest.verifiedBlock ≤ chain.head)
    (hf : Fits manifest chain prior) (hres : chain.resolved target) :
    ∃ s b, start manifest chain target (savedAt chain target prior) = .ok s ∧
      Resolution manifest chain b ∧ s.At chain b target := by
  rcases hs : savedAt chain target prior with _ | r
  case none =>
    have hanchor : ¬ chain.resolved manifest.verifiedBlock := by simp [h.anchor]
    have hlt : manifest.verifiedBlock < target := by
      by_contra hge
      exact hanchor (h.once _ _ (not_lt.mp hge) hv hres)
    have ⟨h₁, h₂, h₃, h₄⟩ := @first_spec _ _ chain.resolved hlt hres fun m n _ hmn hn =>
      h.once m n hmn (hn.trans ht)
    generalize hb : first (manifest.verifiedBlock + 1) target chain.resolved = b at h₁ h₂ h₃ h₄
    refine ⟨⟨b, chain.requiredCollateral b, paid chain b⟩, b, ?_, ⟨h₁, h₃, fun m hm => ?_⟩, le_refl _, h₂, rfl, ?_⟩
    · simp only [start, hb, if_neg hanchor, events_eq h (h₂.trans ht), ok_bind]
      rfl
    · by_cases hle : manifest.verifiedBlock + 1 ≤ m
      · exact h₄ m hle hm
      · by_contra hm'
        exact hanchor (h.once m _ (by omega) hv (by simpa using hm'))
    · simp [paidBetween]
  case some =>
    have ⟨hprior, hsaved⟩ := Option.filter_eq_some_iff.mp hs
    simp only [decide_eq_true_eq] at hsaved
    have ⟨b, hr, hreached, hlogs, hliability⟩ := hf r hprior ⟨hsaved.left.trans ht, hsaved.right⟩
    exact ⟨_, b, rfl, hr, hreached, hsaved.left, hliability, hlogs⟩

-- A scan that finds its anchor and a resolved pool concludes from blocks, liability and logs that agree,
-- having moved on unless there is nothing left.
theorem scan_resolved (h : History manifest chain) (hf : Fits manifest chain prior)
    (hv : manifest.verifiedBlock ≤ chain.head)
    (ha : (chain.header manifest.verifiedBlock).hash = manifest.verifiedBlockHash) (h₂ : 2 ≤ chain.head)
    (hres : chain.resolved (chain.head - 2)) :
    ∃ s s' b, start manifest chain (chain.head - 2) (savedAt chain (chain.head - 2) prior) = .ok s ∧
      Resolution manifest chain b ∧ s'.At chain b (chain.head - 2) ∧
      (s'.liability = chain.requiredCollateral (chain.head - 2) ∨ s'.liability < s.liability) ∧
      ∀ last, scan manifest chain last prior =
        conclude manifest chain last (chain.head - 2) (chain.requiredCollateral (chain.head - 2)) s' := by
  have ht : chain.head - 2 ≤ chain.head := Nat.sub_le _ _
  have ⟨s, b, hs, hr, hat⟩ := start_spec h ht hv hf hres
  have ⟨s', hs', hat', hle, hlt⟩ := @advance_spec _ _ _ _ _ 4 h hr ht hat
  have hbound : chain.requiredCollateral (chain.head - 2) ≤ s.liability := by
    rw [hat.liability]
    exact h.required_le hat.within ht (h.once b _ hat.reached (hat.within.trans ht) hr.resolved)
  refine ⟨s, s', b, hs, hr, hat', ?_, fun last => ?_⟩
  · rcases hbound.lt_or_eq with hb | hb
    · exact .inr (hlt (by omega) hb)
    · have := h.required_le hat'.within ht (h.once b _ hat'.reached (hat'.within.trans ht) hr.resolved)
      rw [← hat'.liability] at this
      exact .inl (by omega)
  · rw [savedAt] at hs
    simp only [scan, if_neg (not_lt.mpr hv), if_neg (not_not.mpr ha), if_neg (not_lt.mpr h₂),
      if_neg (not_not.mpr hres), hs, ok_bind, if_neg (not_lt.mpr hbound), hs']

theorem conclude_spec {next : Record} {complete : Bool} {t : ℕ} (h : History manifest chain) (hc : Commits chain last)
    (hr : Resolution manifest chain b) (ht : target ≤ chain.head) (hs : s.At chain b target)
    (hok : conclude manifest chain last target (chain.requiredCollateral target) s = .ok (.indexed next complete t)) :
    Exact manifest chain next b ∧ next.On chain ∧ next.On last ∧ next.through ≤ target ∧
      next.length ≤ 750000 ∧ next.liability = s.liability ∧
      (complete ↔ s.liability = chain.requiredCollateral target) := by
  unfold conclude at hok
  by_cases hhead : last.head < target ∨ last.head < manifest.verifiedBlock
  case pos =>
    rw [if_pos hhead] at hok
    cases hok
  by_cases hsnap : (last.header target).hash ≠ (chain.header target).hash ∨
      (last.header manifest.verifiedBlock).hash ≠ (chain.header manifest.verifiedBlock).hash
  case pos =>
    rw [if_neg hhead, if_pos hsnap] at hok
    cases hok
  rw [if_neg hhead, if_neg hsnap] at hok
  have hagree : Agree chain last target :=
    hc target ht (by omega) (by_contra fun hne => hsnap (.inl (Ne.symm hne)))
  have hunique := h.unique (b := b) (hs.within.trans ht)
  rw [hs.logs, hunique] at hok
  have hres := h.once b _ hs.reached (hs.within.trans ht) hr.resolved
  by_cases hcomplete : s.liability = chain.requiredCollateral target
  case neg =>
    simp only [hcomplete, if_false] at hok
    split at hok
    case isTrue       => cases hok
    case isFalse hlen =>
      cases hok
      have hhash : (last.header s.cursor).hash = (chain.header s.cursor).hash := by
        rw [(hagree _ hs.within).left]
      exact ⟨⟨hr, hs.reached, rfl, hs.liability⟩, ⟨hs.within.trans ht, hhash.symm⟩,
        ⟨by have := hs.within; dsimp only; omega, rfl⟩, hs.within, not_lt.mp hlen, rfl, by simp [hcomplete]⟩
  case pos =>
    simp only [hcomplete, if_true] at hok
    split at hok
    case isTrue       => cases hok
    case isFalse hlen =>
      cases hok
      have hhash : (last.header target).hash = (chain.header target).hash := by
        rw [(hagree _ (le_refl _)).left]
      -- Nothing is paid after the cursor.
      have hlogs : paidBetween chain b target = paidBetween chain b s.cursor := by
        refine paidBetween_quiet (hs.reached.trans (Nat.le_succ _)) hs.within fun k hk hk' => ?_
        exact h.quiet ht hres (by rw [← hs.liability, hcomplete]) hk hk'
      exact ⟨⟨hr, hs.reached.trans hs.within, hlogs.symm, rfl⟩, ⟨ht, hhash.symm⟩,
        ⟨by dsimp only; omega, rfl⟩, le_refl _, not_lt.mp hlen, hcomplete.symm, by simp [hcomplete]⟩

theorem conclude_cases {k : ℕ} : (∃ e, conclude manifest chain last target k s = .error e ∧ Refused e) ∨
    ∃ next complete, conclude manifest chain last target k s = .ok (.indexed next complete target) := by
  rw [conclude]
  by_cases hhead : last.head < target ∨ last.head < manifest.verifiedBlock
  case pos => exact .inl ⟨_, by rw [if_pos hhead], .inl rfl⟩
  by_cases hsnap : (last.header target).hash ≠ (chain.header target).hash ∨
      (last.header manifest.verifiedBlock).hash ≠ (chain.header manifest.verifiedBlock).hash
  case pos => exact .inl ⟨_, by rw [if_neg hhead, if_pos hsnap], .inr <| .inr <| .inl rfl⟩
  rw [if_neg hhead, if_neg hsnap]
  extract_lets unique next
  by_cases hlen : next.length > 750000
  case pos => exact .inl ⟨_, by rw [if_pos hlen], .inr <| .inr <| .inr rfl⟩
  case neg => exact .inr ⟨next, _, by rw [if_neg hlen]⟩

-- A scan ends in a refusal, or finds the pool unresolved, or concludes.
theorem scan_cases (h : History manifest chain) (hf : Fits manifest chain prior) (last : Chain) :
    (∃ e, scan manifest chain last prior = .error e ∧ Refused e) ∨
    (∃ t, scan manifest chain last prior = .ok (.unresolved t t)) ∨
    (∃ s b, Resolution manifest chain b ∧ s.At chain b (chain.head - 2) ∧
      scan manifest chain last prior =
        conclude manifest chain last (chain.head - 2) (chain.requiredCollateral (chain.head - 2)) s) := by
  by_cases hv : chain.head < manifest.verifiedBlock
  case pos => exact .inl ⟨.unavailable, by simp only [scan, if_pos hv]; rfl, .inl rfl⟩
  by_cases ha : (chain.header manifest.verifiedBlock).hash ≠ manifest.verifiedBlockHash
  case pos =>
    exact .inl ⟨.anchorChanged, by simp only [scan, if_neg hv, if_pos ha]; rfl, .inr <| .inl rfl⟩
  by_cases h₂ : chain.head < 2
  case pos =>
    exact .inl ⟨.unavailable, by simp only [scan, if_neg hv, if_neg ha, if_pos h₂]; rfl, .inl rfl⟩
  by_cases hres : chain.resolved (chain.head - 2)
  case neg =>
    exact .inr <| .inl ⟨_, by simp only [scan, if_neg hv, if_neg ha, if_neg h₂, if_pos hres]; rfl⟩
  have ⟨_, s', b, _, hr, hat, _, heq⟩ := scan_resolved h hf (not_lt.mp hv) (not_not.mp ha) (not_lt.mp h₂) hres
  exact .inr <| .inr ⟨s', b, hr, hat, heq last⟩

theorem scan_error {e : Failure} (h : History manifest chain) (hf : Fits manifest chain prior)
    (he : scan manifest chain last prior = .error e) : Refused e := by
  obtain ⟨e', hs, hr⟩ | ⟨_, hs⟩ | ⟨_, _, _, _, hs⟩ := scan_cases h hf last
  · rw [hs] at he
    cases he
    exact hr
  · rw [hs] at he
    cases he
  · obtain ⟨e', hc, hr⟩ | ⟨_, _, hc⟩ := conclude_cases (s := _)
    · rw [hs, hc] at he
      cases he
      exact hr
    · rw [hs, hc] at he
      cases he

theorem scan_indexed {next : Record} {complete : Bool} {t : ℕ} (h : History manifest chain)
    (hf : Fits manifest chain prior) (hc : Commits chain last)
    (hok : scan manifest chain last prior = .ok (.indexed next complete t)) :
    (∃ b, Exact manifest chain next b) ∧ next.On chain ∧ next.through ≤ chain.head - 2 ∧ next.length ≤ 750000 ∧
      (complete ↔ next.liability = chain.requiredCollateral (chain.head - 2)) := by
  obtain ⟨_, hs, _⟩ | ⟨_, hs⟩ | ⟨s, b, hr, hat, hs⟩ := scan_cases h hf last
  · rw [hs] at hok
    cases hok
  · rw [hs] at hok
    cases hok
  · have ⟨hexact, hon, _, hle, hlen, hliab, hcomplete⟩ := conclude_spec h hc hr (Nat.sub_le _ _) hat (hs ▸ hok)
    exact ⟨⟨b, hexact⟩, hon, hle, hlen, hliab ▸ hcomplete⟩

end Scan

section Repeated

variable {stored : Option Record}

-- A scan of a chain that stays as it is, with no other in between.
def refresh (manifest : Manifest) (chain : Chain) (stored : Option Record) : Option Record :=
  match scan manifest chain chain stored with
  | .ok (.indexed next _ _) => some next
  | _                       => stored

def Completes (manifest : Manifest) (chain : Chain) (stored : Option Record) : Prop :=
  (∃ t, scan manifest chain chain stored = .ok (.unresolved t t)) ∨
    ∃ next t, scan manifest chain chain stored = .ok (.indexed next true t)

-- What the pool owes where the next scan starts.
def owed (manifest : Manifest) (chain : Chain) (stored : Option Record) : ℕ :=
  match start manifest chain (chain.head - 2) (savedAt chain (chain.head - 2) stored) with
  | .ok s    => s.liability
  | .error _ => 0

theorem conclude_still {s : Progress} {k : ℕ} (ht : target ≤ chain.head) (hv : manifest.verifiedBlock ≤ chain.head) :
    conclude manifest chain chain target k s = .error .capacityReached ∨
      ∃ next complete, conclude manifest chain chain target k s = .ok (.indexed next complete target) := by
  have hhead : ¬ (chain.head < target ∨ chain.head < manifest.verifiedBlock) := by omega
  rw [conclude, if_neg hhead, if_neg (by simp)]
  extract_lets unique next
  by_cases hlen : next.length > 750000
  case pos => exact .inl (if_pos hlen)
  case neg => exact .inr ⟨next, _, if_neg hlen⟩

theorem refresh_completes (h : History manifest chain) (hf : Fits manifest chain stored)
    (hv : manifest.verifiedBlock ≤ chain.head)
    (ha : (chain.header manifest.verifiedBlock).hash = manifest.verifiedBlockHash) (h₂ : 2 ≤ chain.head) :
    ∃ k, Completes manifest chain ((refresh manifest chain)^[k] stored) ∨
      scan manifest chain chain ((refresh manifest chain)^[k] stored) = .error .capacityReached := by
  induction hm : owed manifest chain stored using Nat.strong_induction_on generalizing stored
  case h m hi =>
    by_cases hres : chain.resolved (chain.head - 2)
    case neg =>
      refine ⟨0, .inl <| .inl ⟨chain.head - 2, ?_⟩⟩
      rw [Function.iterate_zero_apply]
      simp only [scan, if_neg (not_lt.mpr hv), if_neg (not_not.mpr ha), if_neg (not_lt.mpr h₂), if_pos hres]
      rfl
    case pos =>
      have ⟨s, s', b, hs, hr, hat, hless, hscan⟩ := scan_resolved h hf hv ha h₂ hres
      have hscan := hscan chain
      obtain hcap | ⟨next, complete, hok⟩ :=
          conclude_still (s := s') (k := chain.requiredCollateral (chain.head - 2)) (Nat.sub_le chain.head 2) hv
      · exact ⟨0, .inr (hscan.trans hcap)⟩
      rw [hok] at hscan
      have ⟨hexact, hon, _, hle, _, hliab, hcomplete⟩ :=
        conclude_spec h (fun n _ _ _ _ _ => ⟨rfl, rfl, rfl, rfl⟩) hr (Nat.sub_le _ _) hat hok
      cases complete
      case true  => exact ⟨0, .inl <| .inr ⟨next, _, hscan⟩⟩
      case false =>
        -- An incomplete scan leaves less.
        have hnext : refresh manifest chain stored = some next := by rw [refresh, hscan]
        have hfits : Fits manifest chain (some next) := by
          rintro r hr _
          cases hr
          exact ⟨b, hexact⟩
        have howed : owed manifest chain (some next) < m := by
          have hsaved : savedAt chain (chain.head - 2) (some next) = some next :=
            Option.filter_eq_some_iff.mpr ⟨rfl, by simpa using ⟨hle, hon.right⟩⟩
          have hless := hless.resolve_left fun h => by simp [h] at hcomplete
          rw [← hm, owed, owed, hs, hsaved]
          simp only [start]
          omega
        have ⟨k, hk⟩ := hi _ howed hfits rfl
        refine ⟨k + 1, ?_⟩
        rw [Function.iterate_succ_apply, hnext]
        exact hk

end Repeated

section Runs

variable {chains : Set Chain} {index index' : Index} {prior : Option Record} {r : Record}

-- The chains that scans may see, at different times and from different providers.
structure Universe (manifest : Manifest) (chains : Set Chain) : Prop where
  history : ∀ chain ∈ chains, History manifest chain
  commits : ∀ chain ∈ chains, ∀ chain' ∈ chains, Commits chain chain'

def Action.In (chains : Set Chain) : Action → Prop
  | .get               => True
  | .scan _ chain last => chain ∈ chains ∧ last ∈ chains

-- The record is exact on some chain, and with that on all that have its block.
def Valid (manifest : Manifest) (chains : Set Chain) (r : Record) : Prop :=
  (∃ chain ∈ chains, r.On chain) ∧ ∀ chain ∈ chains, r.On chain → ∃ b, Exact manifest chain r b

theorem Exact.agree {chain' : Chain} (ha : Agree chain chain' r.through) (h : Exact manifest chain r b) :
    Exact manifest chain' r b := by
  have hpaid (k : ℕ) (hk : k ≤ r.through) : paid chain k = paid chain' k := by
    have ⟨hh, _, _, hl⟩ := ha k hk
    have hread : toLog chain k = toLog chain' k := by
      funext l
      simp only [toLog, hh]
    rw [paid, paid, hl, hread]
  refine ⟨⟨h.resolution.after, ?_, fun m hm => ?_⟩, h.reached, ?_, ?_⟩
  · rw [← (ha b h.reached).right.left]
    exact h.resolution.resolved
  · rw [← (ha m (hm.le.trans h.reached)).right.left]
    exact h.resolution.first m hm
  · rw [h.logs, paidBetween, paidBetween]
    refine List.flatMap_congr fun k hk => hpaid k ?_
    rw [List.mem_range'_1] at hk
    have := h.reached
    omega
  · rw [h.liability, (ha _ (le_refl _)).right.right.left]

theorem Valid.of_exact (hu : Universe manifest chains) (hm : chain ∈ chains) (hon : r.On chain)
    (h : Exact manifest chain r b) : Valid manifest chains r := by
  refine ⟨⟨chain, hm, hon⟩, fun chain' hm' hon' => ⟨b, h.agree ?_⟩⟩
  exact hu.commits chain hm chain' hm' _ hon.left hon'.left (hon.right.trans hon'.right.symm)

theorem Valid.fits (h : ∀ r, prior = some r → Valid manifest chains r) (hm : chain ∈ chains) :
    Fits manifest chain prior :=
  fun r hr hon => (h r hr).right chain hm hon

structure Index.Sound (manifest : Manifest) (chains : Set Chain) (index : Index) : Prop where
  stored : ∀ r, index.stored = some r → Valid manifest chains r
  priors : ∀ prior ∈ index.priors, ∀ r, prior = some r → Valid manifest chains r

theorem act_sound {a : Action} (hu : Universe manifest chains) (ha : a.In chains)
    (hs : index.Sound manifest chains) (h : act manifest index a = .ok index') :
    index'.Sound manifest chains := by
  cases a
  case get                   =>
    cases h
    refine ⟨hs.stored, fun prior hp => ?_⟩
    rcases List.mem_cons.mp hp with rfl | hp
    · exact hs.stored
    · exact hs.priors prior hp
  case scan prior chain last =>
    rw [act] at h
    split at h
    case isFalse => cases h
    case isTrue hp =>
      obtain ⟨outcome, hscan, h⟩ := bind_eq_ok.mp h
      have hfits := Valid.fits (hs.priors prior hp) ha.left
      split at h
      case h_1                     => cases h; exact hs
      case h_2 next complete t =>
        have ⟨⟨b, hexact⟩, hon, _⟩ := scan_indexed (hu.history chain ha.left) hfits
          (hu.commits chain ha.left last ha.right) hscan
        cases h
        split
        case isFalse => exact hs
        case isTrue  =>
          refine ⟨fun r hr => ?_, hs.priors⟩
          cases hr
          exact Valid.of_exact hu ha.left hon hexact

theorem run_sound {as : List Action} (hu : Universe manifest chains) (ha : ∀ a ∈ as, a.In chains) :
    (Run.run (act manifest) ⟨none, []⟩ as).Sound manifest chains :=
  Run.run_invariant ⟨nofun, nofun⟩ fun _ _ a hmem hs h => act_sound hu (ha a hmem) hs h

-- Over any run of scans, every record is exact, no scan fails to reconcile, and repeated scans of a head
-- complete unless the record outgrows its capacity.
theorem payouts_exact (hu : Universe manifest chains) {as : List Action} (ha : ∀ a ∈ as, a.In chains) :
    let index := Run.run (act manifest) ⟨none, []⟩ as
    (∀ r, index.stored = some r → Valid manifest chains r) ∧
    (∀ prior ∈ index.priors, ∀ chain ∈ chains, ∀ last e, scan manifest chain last prior = .error e → Refused e) ∧
    (∀ chain ∈ chains, manifest.verifiedBlock ≤ chain.head →
      (chain.header manifest.verifiedBlock).hash = manifest.verifiedBlockHash → 2 ≤ chain.head →
      ∃ k, Completes manifest chain ((refresh manifest chain)^[k] index.stored) ∨
        scan manifest chain chain ((refresh manifest chain)^[k] index.stored) = .error .capacityReached) := by
  intro index
  have hs : index.Sound manifest chains := run_sound hu ha
  refine ⟨hs.stored, fun prior hp chain hm last e he => ?_, fun chain hm hv hanchor h₂ => ?_⟩
  · exact scan_error (hu.history chain hm) (Valid.fits (hs.priors prior hp) hm) he
  · exact refresh_completes (hu.history chain hm) (Valid.fits hs.stored hm) hv hanchor h₂

end Runs

-- A pool that is resolved in block 2 and pays one atom in each of the blocks that follow, for a number
-- of them. The blocks have the given hashes.
def Testnet.pilot : Manifest := ⟨7, 1, 1⟩

def Testnet.payout (hash : ℕ → ℕ) (n : ℕ) : RawLog := ⟨false, 7, n, hash n, hash n, 0, 5, 1, 1, 1, 1⟩

def Testnet.branch (hash : ℕ → ℕ) (payouts : ℕ) : Chain where
  head                 := payouts + 4
  header n             := ⟨hash n, n⟩
  resolved n           := 2 ≤ n
  requiredCollateral n := payouts + 2 - n
  logs n               := if 3 ≤ n ∧ n ≤ payouts + 2 then [Testnet.payout hash n] else []

def Testnet.paying (payouts : ℕ) : Chain := Testnet.branch id payouts

-- The blocks from 5 on are replaced by others.
def Testnet.fork (n : ℕ) : ℕ := if n < 5 then n else n + 100

def Testnet.forked (payouts : ℕ) : Chain := Testnet.branch Testnet.fork payouts

section Testnet

variable {k payouts : ℕ} {hash : ℕ → ℕ}

theorem Testnet.mem_logs {l : RawLog} : l ∈ (Testnet.branch hash payouts).logs n ↔
    (3 ≤ n ∧ n ≤ payouts + 2) ∧ l = Testnet.payout hash n := by
  simp only [Testnet.branch]
  split
  case isTrue h  => simp [h]
  case isFalse h => simp [h]

theorem Testnet.history (hinj : Function.Injective hash) : History Testnet.pilot (Testnet.branch hash payouts) where
  anchor       := rfl
  once         := by
    intro m n hmn _ hm
    simp only [Testnet.branch, decide_eq_true_eq] at hm ⊢
    omega
  decreases    := by
    intro n _ hr
    simp only [Testnet.branch, decide_eq_true_eq] at hr ⊢
    split
    case isTrue  => simp only [Testnet.payout, List.map_cons, List.map_nil, List.sum_singleton]; omega
    case isFalse => simp only [List.map_nil, List.sum_nil]; omega
  wellFormed   := by
    intro n _ l hl
    obtain ⟨_, rfl⟩ := Testnet.mem_logs.mp hl
    exact ⟨rfl, rfl, rfl, rfl⟩
  ordered      := by
    intro n _
    simp only [Testnet.branch]
    split <;> simp
  transactions := by
    intro m n hmn _ l hl l' hl'
    obtain ⟨_, rfl⟩ := Testnet.mem_logs.mp hl
    obtain ⟨_, rfl⟩ := Testnet.mem_logs.mp hl'
    exact fun he => hmn.ne (hinj he)

theorem Testnet.paying_history : History Testnet.pilot (Testnet.paying payouts) :=
  Testnet.history Function.injective_id

theorem Testnet.fork_injective : Function.Injective Testnet.fork := by
  intro m n h
  simp only [Testnet.fork] at h
  split at h <;> split at h <;> omega

-- A hash that both chains have is one from before the fork.
theorem Testnet.fork_agrees (h : Testnet.fork n = n) (hm : m ≤ n) : Testnet.fork m = m := by
  simp only [Testnet.fork] at h ⊢
  split at h <;> split <;> omega

theorem Testnet.universe : Universe Testnet.pilot {Testnet.paying payouts, Testnet.forked payouts} where
  history := by
    rintro _ (rfl | rfl)
    · exact Testnet.paying_history
    · exact Testnet.history Testnet.fork_injective
  commits := by
    have agree {m : ℕ} (h : Testnet.fork m = m) :
        (Testnet.paying payouts).header m = (Testnet.forked payouts).header m ∧
          (Testnet.paying payouts).logs m = (Testnet.forked payouts).logs m := by
      simp [Testnet.paying, Testnet.forked, Testnet.branch, Testnet.payout, h]
    rintro _ (rfl | rfl) _ (rfl | rfl) n _ _ hn m hm
    · exact ⟨rfl, rfl, rfl, rfl⟩
    · have ⟨hheader, hlogs⟩ := agree (Testnet.fork_agrees hn.symm hm)
      exact ⟨hheader, rfl, rfl, hlogs⟩
    · have ⟨hheader, hlogs⟩ := agree (Testnet.fork_agrees hn hm)
      exact ⟨hheader.symm, rfl, rfl, hlogs.symm⟩
    · exact ⟨rfl, rfl, rfl, rfl⟩

def Testnet.record (hash : ℕ → ℕ) (through liability : ℕ) : Record :=
  ⟨through, hash through, liability,
    (List.range' 3 (through - 2)).map fun n => toLog (Testnet.branch hash 6) n (Testnet.payout hash n)⟩

-- The chain is replaced after a scan, and meanwhile another scan sees both chains.
def Testnet.scans : List Action :=
  [.get, .scan none (Testnet.paying 6) (Testnet.paying 6), .get,
    .scan none (Testnet.paying 6) (Testnet.forked 6),
    .scan (some (Testnet.record id 6 2)) (Testnet.forked 6) (Testnet.forked 6), .get,
    .scan (some (Testnet.record Testnet.fork 6 2)) (Testnet.forked 6) (Testnet.forked 6)]

theorem payouts_exact_testnet :
    let index := Run.run (act Testnet.pilot) ⟨none, []⟩ Testnet.scans
    index.stored = some (Testnet.record Testnet.fork 8 0) ∧
    Valid Testnet.pilot {Testnet.paying 6, Testnet.forked 6} (Testnet.record Testnet.fork 8 0) ∧
    scan Testnet.pilot (Testnet.paying 6) (Testnet.forked 6) none = .error .snapshotChanged ∧
    ∃ k, Completes Testnet.pilot (Testnet.paying 6) ((refresh Testnet.pilot (Testnet.paying 6))^[k] index.stored) ∨
      scan Testnet.pilot (Testnet.paying 6) (Testnet.paying 6)
        ((refresh Testnet.pilot (Testnet.paying 6))^[k] index.stored) = .error .capacityReached := by
  intro index
  have hstored : index.stored = some (Testnet.record Testnet.fork 8 0) := by decide +kernel
  have ⟨hvalid, _, hcompletes⟩ := @payouts_exact _ _ (@Testnet.universe 6) Testnet.scans
    (by simp [Testnet.scans, Action.In])
  exact ⟨hstored, hvalid _ hstored, by decide +kernel,
    hcompletes (Testnet.paying 6) (.inl rfl) (by decide) rfl (by decide)⟩

theorem refresh_fits {stored : Option Record} (h : History manifest chain) (hf : Fits manifest chain stored) :
    Fits manifest chain (refresh manifest chain stored) := by
  unfold refresh
  split
  case h_2              => exact hf
  case h_1 next _ _ hok =>
    have ⟨⟨b, hexact⟩, _⟩ := scan_indexed h hf (fun n _ _ _ _ _ => ⟨rfl, rfl, rfl, rfl⟩) hok
    rintro r hr _
    cases hr
    exact ⟨b, hexact⟩

theorem length_ge {r : Record} : 324 * r.logs.length ≤ r.length := by
  have h : 324 * r.logs.length ≤ (r.logs.map Log.length).sum := by
    induction r.logs
    case nil         => simp
    case cons l l hi =>
      simp only [List.length_cons, List.map_cons, List.sum_cons, Log.length]
      omega
  rw [Record.length]
  omega

-- Every payout has a log of its own.
theorem Testnet.length_paidBetween :
    payouts ≤ (paidBetween (Testnet.paying payouts) 2 (payouts + 2)).length := by
  have hpaid : (List.range' 3 payouts).flatMap (paid (Testnet.paying payouts)) =
      (List.range' 3 payouts).map fun n => toLog (Testnet.paying payouts) n (Testnet.payout id n) := by
    rw [List.map_eq_flatMap]
    refine List.flatMap_congr fun n hn => ?_
    rw [List.mem_range'_1] at hn
    have : 3 ≤ n ∧ n ≤ payouts + 2 := by omega
    simp [paid, Testnet.paying, Testnet.branch, this, Testnet.payout, toLog]
  rw [paidBetween_append (m := 2) (by omega) (by omega)]
  simp only [Nat.add_sub_cancel, hpaid, List.length_append, List.length_map, List.length_range']
  omega

-- A pool with too many payouts never has a complete index.
theorem payouts_outgrow : ¬ ∀ manifest chain, History manifest chain → manifest.verifiedBlock ≤ chain.head →
    (chain.header manifest.verifiedBlock).hash = manifest.verifiedBlockHash → 2 ≤ chain.head →
    ∃ k, Completes manifest chain ((refresh manifest chain)^[k] none) := by
  intro h
  have ⟨k, hk⟩ := h Testnet.pilot (Testnet.paying 2400) Testnet.paying_history (by decide) rfl (by decide)
  have hfits : Fits Testnet.pilot (Testnet.paying 2400) ((refresh Testnet.pilot (Testnet.paying 2400))^[k] none) := by
    clear hk
    induction k
    case zero      => nofun
    case succ k hi =>
      rw [Function.iterate_succ_apply']
      exact refresh_fits Testnet.paying_history hi
  obtain ⟨t, hun⟩ | ⟨next, t, hok⟩ := hk
  · have ⟨_, s, b, _, hr, hat, _, hscan⟩ := scan_resolved Testnet.paying_history hfits (by decide) rfl
      (by decide) (by decide)
    rw [hscan] at hun
    obtain ⟨_, hc, _⟩ | ⟨_, _, hc⟩ := conclude_cases (s := s) <;> rw [hc] at hun <;> cases hun
  · have ⟨⟨b, hexact⟩, _, hle, hlen, hcomplete⟩ :=
      scan_indexed Testnet.paying_history hfits (fun n _ _ _ _ _ => ⟨rfl, rfl, rfl, rfl⟩) hok
    have hliab := hcomplete.mp rfl
    rw [hexact.liability] at hliab
    simp only [Testnet.paying, Testnet.branch] at hle hliab
    have hthrough : next.through = 2400 + 2 := by omega
    have hb : b = 2 := by
      have hlo : 2 ≤ b := by simpa [Testnet.paying, Testnet.branch] using hexact.resolution.resolved
      by_contra hne
      have hfalse := hexact.resolution.first 2 (by omega)
      cases hfalse
    have hlogs := @Testnet.length_paidBetween 2400
    have hge := length_ge (r := next)
    rw [hexact.logs, hthrough, hb] at hge
    omega

end Testnet

end PayoutIndex
