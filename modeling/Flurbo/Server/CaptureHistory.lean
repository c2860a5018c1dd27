import Flurbo.Library.Records
import Flurbo.Server.SettlementEvidence

-- The captures that are retained for a rule. Each distinct content keeps its first and its most
-- recent observation.

namespace Settlement

structure Attempt where
  at_    : ℕ
  ok     : Bool
  issues : List Issue
  deriving DecidableEq, Repr

-- `capture` is the content, with no time of its own. Its hash, for which it stands, is the id.
structure Item where
  capture : Capture
  first   : ℕ
  last    : ℕ
  ordered : first ≤ last
  deriving DecidableEq

structure History where
  entries : List Item
  attempt : Option Attempt
  deriving DecidableEq

def Capture.content (c : Capture) : Capture := { c with fetchedAt := 0 }

def Item.times (i : Item) : List ℕ :=
  i.first :: if i.last = i.first then [] else [i.last]

def Item.captures (i : Item) : List Capture :=
  i.times.map fun t => { i.capture with fetchedAt := t }

def Item.observe (i : Item) (c : Capture) : Item where
  capture := i.capture
  first   := min i.first c.fetchedAt
  last    := max i.last c.fetchedAt
  ordered := (min_le_right _ _).trans (le_max_right _ _)

namespace History

def empty : History := ⟨[], none⟩

variable (h : History)

def list : List Capture := h.entries.flatMap (·.captures)

-- The `attempt` branch of the script. An attempt never replaces a later one.
def recordAttempt (a : Attempt) : History :=
  if h.attempt.any (a.at_ < ·.at_) then h else { h with attempt := some a }

-- The `capture` branch of the script, with its error reply.
def put (c : Capture) : Option History :=
  match Records.find (·.capture) c.content h.entries with
  | some _ =>
    some { h with entries := Records.change (·.capture) c.content (·.observe c) h.entries }
  | none   =>
    if h.entries.length ≥ 50 then none
    else some { h with entries := h.entries ++ [⟨c.content, c.fetchedAt, c.fetchedAt, le_rfl⟩] }

variable {h} {h' : History} {c c' : Capture} {i : Item} {t : ℕ}

theorem mem_list : c ∈ h.list ↔ ∃ i ∈ h.entries, ∃ t ∈ i.times, c = { i.capture with fetchedAt := t } := by
  simp only [list, Item.captures, List.mem_flatMap, List.mem_map, eq_comm]

theorem eq_of_content (h : c.content = c'.content) : { c with fetchedAt := c'.fetchedAt } = c' := by
  cases c
  cases c'
  simp_all [Capture.content]

theorem first_mem (hi : i ∈ h.entries) : { i.capture with fetchedAt := i.first } ∈ h.list :=
  mem_list.mpr ⟨i, hi, i.first, by simp [Item.times], rfl⟩

theorem mem_times : t ∈ i.times ↔ t = i.first ∨ t = i.last := by
  unfold Item.times
  split
  case isTrue h  => simp [h]
  case isFalse h => simp

-- Nothing is listed but what was, or what is put.
theorem list_put (hp : h.put c = some h') (hl : c' ∈ h'.list) : c' ∈ h.list ∨ c' = c := by
  have ⟨i', hi', t, ht, he⟩ := mem_list.mp hl
  unfold put at hp
  split at hp
  case h_1 =>
    cases hp
    rcases Records.change_mem hi' with hi' | ⟨i, hf, rfl⟩
    · exact .inl <| mem_list.mpr ⟨i', hi', t, ht, he⟩
    · have hi := Records.find_mem hf
      have hc : i.capture = c.content := Records.find_key hf
      have hlist (t : ℕ) (ht : t ∈ i.times) : { i.capture with fetchedAt := t } ∈ h.list :=
        mem_list.mpr ⟨i, hi, t, ht, rfl⟩
      have hnew : { i.capture with fetchedAt := c.fetchedAt } = c := eq_of_content (by rw [hc]; rfl)
      subst he
      have ht' : t ∈ i.times ∨ t = c.fetchedAt := by
        simp only [mem_times, Item.observe] at ht ⊢
        omega
      rcases ht' with ht' | rfl
      · exact .inl (hlist t ht')
      · exact .inr hnew
  case h_2 =>
    split at hp
    case isTrue  => cases hp
    case isFalse =>
      cases hp
      rcases List.mem_append.mp hi' with hi' | hi'
      · exact .inl <| mem_list.mpr ⟨i', hi', t, ht, he⟩
      · cases List.mem_singleton.mp hi'
        right
        rw [mem_times] at ht
        rw [he, ht.elim id id]
        rfl

-- Of every content that is listed there stays an observation that is not later.
theorem put_list (hp : h.put c = some h') (hl : c' ∈ h.list) :
    ∃ c₁ ∈ h'.list, c₁.content = c'.content ∧ c₁.fetchedAt ≤ c'.fetchedAt := by
  have ⟨i, hi, t, ht, he⟩ := mem_list.mp hl
  have hle : i.first ≤ t := by
    rw [mem_times] at ht
    rcases ht with rfl | rfl
    · exact le_rfl
    · exact i.ordered
  subst he
  have hsame (hi' : i ∈ h'.entries) :
      ∃ c₁ ∈ h'.list, c₁.content = i.capture.content ∧ c₁.fetchedAt ≤ t :=
    ⟨_, first_mem hi', rfl, hle⟩
  unfold put at hp
  split at hp
  case h_1 =>
    cases hp
    rcases Records.mem_change (·.observe c) c.content hi with hi' | ⟨_, hi'⟩
    · exact hsame hi'
    · exact ⟨_, first_mem hi', rfl, (min_le_left _ _).trans hle⟩
  case h_2 =>
    split at hp
    case isTrue  => cases hp
    case isFalse =>
      cases hp
      exact hsame (List.mem_append_left _ hi)

@[simp]
theorem list_recordAttempt {a : Attempt} : (h.recordAttempt a).list = h.list := by
  unfold recordAttempt
  split <;> rfl

end History

end Settlement
