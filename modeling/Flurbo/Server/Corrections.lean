import Flurbo.Library.Ordered
import Flurbo.Server.Evaluation

-- Corrections are used if each supersedes the one before it, whatever order they are captured in.

open Except

namespace Settlement

variable {R : Readers} {rule : Rule} {s s' initial : Sourced} {records records' l : List Sourced}
variable {i i' j : Identity} {links links' : List Identity} {c c' : Corrected}

section Chains

def Identity.encodes (i : Identity) : Bool := i.value.encodes && i.supersedesId.encodes

def Supersedes (a b : Identity) : Prop := b.supersedesId = .text a.id ∧ a.publishedAt ≤ b.publishedAt

-- Each of the corrections supersedes the one before it, the first one the initial record.
structure Chain (initial : Identity) (links : List Identity) : Prop where
  linked  : List.IsChain Supersedes (initial :: links)
  ids     : (links.map (·.id)).Nodup
  later   : links.Pairwise fun a b => a.publishedAt < b.publishedAt
  encodes : ∀ i ∈ links, i.encodes = true

-- The records are the corrections of a chain, each as often as it was captured.
def Chained (initial : Identity) (records : List Sourced) (links : List Identity) : Prop :=
  Chain initial links ∧ ∀ i, i ∈ links ↔ ∃ s ∈ records, s.record.identity = i

theorem Chained.congr (h : ∀ s, s ∈ records ↔ s ∈ records') (hc : Chained i records links) :
    Chained i records' links := by
  simpa only [Chained, h] using hc

theorem Chain.nil (initial : Identity) : Chain initial [] := ⟨.singleton _, .nil, .nil, by simp⟩

def lastOf (initial : Identity) (links : List Identity) : Identity := (initial :: links).getLast (by simp)

theorem lastOf_append : lastOf i (links ++ [j]) = j := by
  rw [lastOf]
  simp

theorem chain_append : Chain i (links ++ [j]) ↔ Chain i links ∧ Supersedes (lastOf i links) j ∧
    j.id ∉ links.map (·.id) ∧ (∀ a ∈ links, a.publishedAt < j.publishedAt) ∧ j.encodes = true := by
  have hlinked : List.IsChain Supersedes (i :: (links ++ [j])) ↔
      List.IsChain Supersedes (i :: links) ∧ Supersedes (lastOf i links) j := by
    rw [← List.cons_append, List.isChain_append]
    simp [lastOf, List.getLast?_eq_some_getLast]
  constructor
  · intro h
    have hids := h.ids
    rw [List.map_append, List.nodup_append] at hids
    have hlater := List.pairwise_append.mp h.later
    have ⟨hl, hs⟩ := hlinked.mp h.linked
    exact ⟨⟨hl, hids.1, hlater.1, fun a ha => h.encodes a (by simp [ha])⟩, hs,
      fun hm => hids.2.2 _ hm _ (by simp) rfl, fun a ha => hlater.2.2 a ha j (by simp), h.encodes j (by simp)⟩
  · intro ⟨h, hs, hid, hp, he⟩
    refine ⟨hlinked.mpr ⟨h.linked, hs⟩, ?_, ?_, ?_⟩
    · rw [List.map_append, List.nodup_append]
      refine ⟨h.ids, by simp, fun a ha b hb => ?_⟩
      rw [List.map_singleton, List.mem_singleton] at hb
      rintro rfl
      exact hid (hb ▸ ha)
    · rw [List.pairwise_append]
      exact ⟨h.later, by simp, fun a ha b hb => List.mem_singleton.mp hb ▸ hp a ha⟩
    · intro a ha
      rcases List.mem_append.mp ha with ha | ha
      · exact h.encodes a ha
      · exact List.mem_singleton.mp ha ▸ he

-- The order of a chain is that of the publication.
theorem Chained.unique (h : Chained i records links) (h' : Chained i records links') : links = links' := by
  have hm (a : Identity) : a ∈ links ↔ a ∈ links' := (h.2 a).trans (h'.2 a).symm
  have hn {links : List Identity} (h : Chain i links) : links.Nodup := .of_map _ h.ids
  have hperm := (List.perm_ext_iff_of_nodup (hn h.1) (hn h'.1)).mpr hm
  exact hperm.eq_of_pairwise (fun a b _ _ h₁ h₂ => absurd h₁ h₂.asymm) h.1.later h'.1.later

theorem Chain.eq_of_id (h : Chain i links) (ha : j ∈ links) (hb : i' ∈ links) (he : j.id = i'.id) : j = i' :=
  List.inj_on_of_nodup_map h.ids ha hb he

theorem Chain.le_last (h : Chain i links) (hj : j ∈ links) : j.publishedAt ≤ (lastOf i links).publishedAt := by
  induction links using List.reverseRecOn
  case nil                       => cases hj
  case append_singleton links a _ =>
    rw [lastOf_append]
    rcases List.mem_append.mp hj with hj | hj
    · exact ((chain_append.mp h).2.2.2.1 j hj).le
    · rw [List.mem_singleton.mp hj]

end Chains

section Fold

def begin (initial : Sourced) : Corrected := ⟨initial, [initial], [], []⟩

-- What the loop has kept of the corrections that it has used.
structure Reached (initial : Sourced) (links : List Identity) (c : Corrected) : Prop where
  selected   : c.selected.record.identity = lastOf initial.record.identity links
  used       : c.used.map (·.record.identity) = initial.record.identity :: links
  seen       : c.seen = (links.map fun i => (i.id, i)).reverse
  timestamps : c.timestamps = (links.map fun i => (i.publishedAt, i.id)).reverse

theorem reached_begin (initial : Sourced) : Reached initial [] (begin initial) := ⟨rfl, rfl, rfl, rfl⟩

def Corrected.next (c : Corrected) (s : Sourced) : Corrected where
  selected   := s
  used       := c.used ++ [s]
  seen       := (s.record.id, s.record.identity) :: c.seen
  timestamps := (s.record.publishedAt, s.record.id) :: c.timestamps

theorem correct_thrown : correct c s = .error .thrown ↔ s.record.encodes = false := by
  rw [correct]
  simp only []
  split
  case isTrue h => exact iff_of_true rfl (by simpa using h)
  case isFalse h =>
    refine iff_of_false ?_ (by simpa using h)
    split
    · split <;> exact fun h => nomatch h
    · split
      · exact fun h => nomatch h
      · split <;> exact fun h => nomatch h

-- A correction is used if it is seen again, or if it continues the chain.
theorem correct_eq_ok (hr : Reached initial links c) (hc : Chain initial.record.identity links)
    (hs : s.record.supersedesId.isSome) : correct c s = .ok c' ↔ s.record.encodes = true ∧
      ((s.record.identity ∈ links ∧ c' = c) ∨
        (Chain initial.record.identity (links ++ [s.record.identity]) ∧ c' = c.next s)) := by
  have hseen : c.seen.find? (·.1 = s.record.id) =
      (links.reverse.find? (·.id = s.record.id)).map fun i => (i.id, i) := by
    rw [hr.seen, ← List.map_reverse, List.find?_map]
    rfl
  cases he : s.record.encodes
  case false =>
    refine iff_of_false (fun h => ?_) (by simp)
    rw [correct_thrown.mpr he] at h
    cases h
  case true =>
    rw [correct]
    simp only [he, Bool.not_true, Bool.false_eq_true, if_false, true_and, hseen]
    cases hf : links.reverse.find? (·.id = s.record.id)
    case some i =>
      have hi : i.id = s.record.id := by simpa using List.find?_some hf
      have hm : i ∈ links := List.mem_reverse.mp (List.mem_of_find?_eq_some hf)
      have hnew : ¬ Chain initial.record.identity (links ++ [s.record.identity]) := fun h =>
        (chain_append.mp h).2.2.1 (List.mem_map.mpr ⟨i, hm, hi⟩)
      simp only [Option.map_some, hnew, false_and, or_false]
      split
      case isTrue hne =>
        exact iff_of_false (fun h => by cases h) fun h => hne (hc.eq_of_id hm h.1 hi)
      case isFalse he =>
        rw [ne_eq, not_not] at he
        exact ⟨fun h => ⟨he ▸ hm, (ok.inj h).symm⟩, fun h => by rw [h.2]⟩
    case none =>
      have hid : s.record.id ∉ links.map (·.id) := by
        rw [List.find?_eq_none] at hf
        rw [List.mem_map]
        rintro ⟨i, hi, he⟩
        exact hf i (List.mem_reverse.mpr hi) (by simpa using he)
      have hnot : s.record.identity ∉ links := fun h => hid (List.mem_map.mpr ⟨_, h, rfl⟩)
      simp only [Option.map_none, hnot, false_and, false_or]
      have htime : (c.timestamps.any fun p => decide (p.1 = s.record.publishedAt ∧ p.2 ≠ s.record.id)) = true ↔
          ∃ i ∈ links, i.publishedAt = s.record.publishedAt := by
        rw [hr.timestamps, List.any_reverse, List.any_map, List.any_eq_true]
        refine exists_congr fun i => and_congr_right fun hi => ?_
        simp only [Function.comp_apply, decide_eq_true_eq, and_iff_left_iff_imp]
        exact fun _ he => hid (List.mem_map.mpr ⟨i, hi, he⟩)
      obtain ⟨v, hv⟩ := Option.isSome_iff_exists.mp hs
      have hsup : s.record.supersedesId ≠ some (.text c.selected.record.id) ∨
          s.record.publishedAt < c.selected.record.publishedAt ↔
          ¬ Supersedes (lastOf initial.record.identity links) s.record.identity := by
        rw [← hr.selected, Supersedes, not_and_or, not_le]
        simp [Record.identity, hv]
      rw [chain_append]
      split
      case isTrue ht =>
        obtain ⟨i, hi, he⟩ := htime.mp ht
        exact iff_of_false (fun h => by cases h) fun h => (h.1.2.2.2.1 i hi).ne he
      case isFalse ht =>
        split
        case isTrue h => exact iff_of_false (fun h => by cases h) fun h' => hsup.mp h h'.1.2.1
        case isFalse h =>
          have h := not_not.mp (mt hsup.mpr h)
          have hlater (a : Identity) (ha : a ∈ links) : a.publishedAt < s.record.publishedAt := by
            refine lt_of_le_of_ne (le_trans ?_ h.2) fun he => ht (htime.mpr ⟨a, ha, he⟩)
            exact hc.le_last ha
          exact ⟨fun h' => ⟨⟨hc, h, hid, hlater, he⟩, (ok.inj h').symm⟩, fun h => by rw [h.2]; rfl⟩

theorem Reached.append (hr : Reached initial links c) (s : Sourced) :
    Reached initial (links ++ [s.record.identity]) (c.next s) where
  selected   := lastOf_append.symm
  used       := by rw [Corrected.next, List.map_append, hr.used]; rfl
  seen       := by rw [Corrected.next, hr.seen, List.map_append, List.reverse_append]; rfl
  timestamps := by rw [Corrected.next, hr.timestamps, List.map_append, List.reverse_append]; rfl

-- A fold that succeeds has read a chain.
theorem chained_of_fold (hs : ∀ s ∈ l, s.record.supersedesId.isSome)
    (h : l.foldlM correct (begin initial) = .ok c) :
    ∃ links, Chained initial.record.identity l links ∧ Reached initial links c := by
  induction l using List.reverseRecOn generalizing c
  case nil =>
    cases h
    exact ⟨[], ⟨.nil _, by simp⟩, reached_begin initial⟩
  case append_singleton l s hi =>
    rw [List.foldlM_append, bind_eq_ok] at h
    obtain ⟨c₁, h₁, h⟩ := h
    have ⟨links, ⟨hc, hm⟩, hr⟩ := hi (fun s hs' => hs s (by simp [hs'])) h₁
    rw [List.foldlM_cons, bind_eq_ok] at h
    obtain ⟨c₂, h, h'⟩ := h
    cases h'
    obtain ⟨_, ⟨hin, rfl⟩ | ⟨hnew, rfl⟩⟩ := (correct_eq_ok hr hc (hs s (by simp))).mp h
    · refine ⟨links, ⟨hc, fun i => ?_⟩, hr⟩
      rw [hm]
      simp only [List.mem_append, List.mem_singleton, or_and_right, exists_or, exists_eq_left]
      exact ⟨.inl, fun h => h.elim id fun h => h ▸ (hm _).mp hin⟩
    · refine ⟨links ++ [s.record.identity], ⟨hnew, fun i => ?_⟩, hr.append s⟩
      rw [List.mem_append, List.mem_singleton, hm, @eq_comm _ i]
      simp only [List.mem_append, List.mem_singleton, or_and_right, exists_or, exists_eq_left]

-- A record that was used is passed over.
theorem fold_again (hr : Reached initial links c) (hc : Chain initial.record.identity links)
    (hs : ∀ s ∈ l, s.record.supersedesId.isSome) (hm : ∀ s ∈ l, s.record.identity ∈ links) :
    l.foldlM correct c = .ok c := by
  induction l
  case nil         => rfl
  case cons s l hi =>
    have he : s.record.encodes = true := hc.encodes _ (hm s (by simp))
    have hstep := (correct_eq_ok hr hc (hs s (by simp))).mpr ⟨he, .inl ⟨hm s (by simp), rfl⟩⟩
    rw [List.foldlM_cons, hstep, ok_bind]
    exact hi (fun s h => hs s (by simp [h])) fun s h => hm s (by simp [h])

-- Corrections that form a chain are all used, if they come in the order of their publication.
theorem fold_of_chained (hs : ∀ s ∈ l, s.record.supersedesId.isSome)
    (hl : l.Pairwise fun a b => a.record.publishedAt ≤ b.record.publishedAt)
    (h : Chained initial.record.identity l links) :
    ∃ c, l.foldlM correct (begin initial) = .ok c ∧ Reached initial links c := by
  induction links using List.reverseRecOn generalizing l
  case nil                        =>
    have hnil : l = [] := List.eq_nil_iff_forall_not_mem.mpr fun s hs => by
      have := (h.2 s.record.identity).mpr ⟨s, hs, rfl⟩
      cases this
    subst hnil
    exact ⟨_, rfl, reached_begin initial⟩
  case append_singleton links i hi =>
    have ⟨hc, _, hid, hlt, _⟩ := chain_append.mp h.1
    -- The records that were published before the last correction, and the captures of the last one.
    let p (s : Sourced) : Bool := s.record.publishedAt < i.publishedAt
    have hsplit : l = l.filter p ++ l.filter (!p ·) := hl.imp (fun hle hb => by
      simp only [p, decide_eq_true_eq] at hb ⊢
      exact hle.trans_lt hb) |>.filter_append
    have hcase (s : Sourced) (hm : s ∈ l) : s.record.identity ∈ links ∨ s.record.identity = i := by
      have := (h.2 _).mpr ⟨s, hm, rfl⟩
      simpa using this
    have hbefore : Chained initial.record.identity (l.filter p) links := by
      refine ⟨hc, fun a => ⟨fun ha => ?_, fun ⟨s, hs, he⟩ => ?_⟩⟩
      · obtain ⟨s, hm, rfl⟩ := (h.2 a).mp (by simp [ha])
        exact ⟨s, List.mem_filter.mpr ⟨hm, decide_eq_true (hlt _ ha)⟩, rfl⟩
      · rw [List.mem_filter] at hs
        refine he ▸ (hcase s hs.1).resolve_right fun h => ?_
        have hlt := of_decide_eq_true hs.2
        rw [← h] at hlt
        exact lt_irrefl _ hlt
    have hlast (s : Sourced) (hm : s ∈ l.filter (!p ·)) : s.record.identity = i := by
      rw [List.mem_filter, Bool.not_eq_true', decide_eq_false_iff_not] at hm
      exact (hcase s hm.1).resolve_left fun h => hm.2 (hlt _ h)
    have ⟨c, hf, hr⟩ := hi (fun s h => hs s (List.mem_of_mem_filter h)) (hl.filter p) hbefore
    have hne : l.filter (!p ·) ≠ [] := by
      obtain ⟨s, hm, he⟩ := (h.2 i).mp (by simp)
      refine List.ne_nil_of_mem (a := s) (List.mem_filter.mpr ⟨hm, ?_⟩)
      rw [Bool.not_eq_true', decide_eq_false_iff_not, ← he]
      exact lt_irrefl _
    obtain ⟨s, rest, hrest⟩ := List.exists_cons_of_ne_nil hne
    have hsi : s.record.identity = i := hlast s (by simp [hrest])
    have hmem (s : Sourced) (hm : s ∈ rest) : s ∈ l.filter (!p ·) := by simp [hrest, hm]
    have hstep := (correct_eq_ok hr hc (hs s (List.mem_of_mem_filter (by rw [hrest]; simp)))).mpr
      ⟨h.1.encodes _ (by simp [hsi]), .inr ⟨hsi ▸ h.1, rfl⟩⟩
    have hr' : Reached initial (links ++ [i]) (c.next s) := hsi ▸ hr.append s
    refine ⟨_, ?_, hr'⟩
    rw [hsplit, List.foldlM_append, hf, ok_bind, hrest, List.foldlM_cons, hstep, ok_bind]
    exact fold_again hr' h.1 (fun s h => hs s (List.mem_of_mem_filter (hmem s h))) fun s h => by
      simp [hlast s (hmem s h)]

end Fold

end Settlement
