import Mathlib.Tactic
import Mathlib.Data.List.Forall2
import Mathlib.Data.List.AList

-- Lists of records that are appended to and changed in place, each found under its key.

namespace Records

variable {α κ : Type*} {R : α → α → Prop} {l l' l'' : List α} {a x : α}

section Change

variable [DecidableEq κ] (key : α → κ)

def find (k : κ) (l : List α) : Option α := l.find? (key · = k)

-- Changes the record that `find` returns.
def change (k : κ) (f : α → α) : List α → List α
  | []     => []
  | a :: l => if key a = k then f a :: l else a :: change k f l

variable {key} {k k' : κ} {f : α → α}

theorem find_cons : find key k (a :: l) = if key a = k then some a else find key k l := by
  by_cases h : key a = k <;> simp [find, h]

theorem find_mem (h : find key k l = some x) : x ∈ l := List.mem_of_find?_eq_some h

theorem find_key (h : find key k l = some x) : key x = k := by
  simpa using List.find?_some h

theorem change_mem (h : a ∈ change key k f l) : a ∈ l ∨ ∃ x, find key k l = some x ∧ a = f x := by
  induction l
  case nil         => cases h
  case cons b l hi =>
    rw [change] at h
    split at h
    case isTrue hk  =>
      rcases List.mem_cons.mp h with rfl | h
      · exact .inr ⟨b, by rw [find_cons, if_pos hk], rfl⟩
      · exact .inl (List.mem_cons_of_mem _ h)
    case isFalse hk =>
      rcases List.mem_cons.mp h with rfl | h
      · exact .inl List.mem_cons_self
      · rcases hi h with h | ⟨x, hx, rfl⟩
        · exact .inl (List.mem_cons_of_mem _ h)
        · exact .inr ⟨x, by rw [find_cons, if_neg hk, hx], rfl⟩

-- A record is still there, or it was the one that changed.
theorem mem_change (f : α → α) (k : κ) (h : a ∈ l) :
    a ∈ change key k f l ∨ find key k l = some a ∧ f a ∈ change key k f l := by
  induction l
  case nil         => cases h
  case cons b l hi =>
    by_cases hk : key b = k
    · rw [change, if_pos hk, find_cons, if_pos hk]
      rcases List.mem_cons.mp h with rfl | h
      · exact .inr ⟨rfl, List.mem_cons_self⟩
      · exact .inl (List.mem_cons_of_mem _ h)
    · rw [change, if_neg hk, find_cons, if_neg hk]
      rcases List.mem_cons.mp h with rfl | h
      · exact .inl List.mem_cons_self
      · rcases hi h with h | ⟨hf, h⟩
        · exact .inl (List.mem_cons_of_mem _ h)
        · exact .inr ⟨hf, List.mem_cons_of_mem _ h⟩

-- Records stay pairwise related if the changed one is related to all.
theorem change_pairwise {S : α → α → Prop} (h : l.Pairwise S)
    (hf : ∀ x, find key k l = some x → ∀ y ∈ l, S (f x) y ∧ S y (f x)) :
    (change key k f l).Pairwise S := by
  induction l
  case nil         => exact .nil
  case cons b l hi =>
    obtain ⟨hb, hl⟩ := List.pairwise_cons.mp h
    by_cases hk : key b = k
    · rw [change, if_pos hk]
      have hf := hf b (by rw [find_cons, if_pos hk])
      exact List.pairwise_cons.mpr ⟨fun y hy => (hf y (List.mem_cons_of_mem _ hy)).left, hl⟩
    · rw [change, if_neg hk]
      have hf (x : α) (hx : find key k l = some x) := hf x (by rw [find_cons, if_neg hk, hx])
      refine List.pairwise_cons.mpr ⟨fun y hy => ?_, hi hl fun x hx y hy => hf x hx y (List.mem_cons_of_mem _ hy)⟩
      rcases change_mem hy with hy | ⟨x, hx, rfl⟩
      · exact hb y hy
      · exact (hf x hx b List.mem_cons_self).right

-- What changes is no longer there, if it is related to nothing that is.
theorem change_ne {S : α → α → Prop} (h : l.Pairwise S) (hx : find key k l = some x) (hS : ¬ S x x)
    (ha : a ∈ change key k f l) (hne : a ≠ f x) : a ≠ x := by
  induction l
  case nil         => cases ha
  case cons b l hi =>
    obtain ⟨hb, hl⟩ := List.pairwise_cons.mp h
    by_cases hk : key b = k
    · rw [change, if_pos hk] at ha
      rw [find_cons, if_pos hk] at hx
      cases hx
      rintro rfl
      exact hS (hb a ((List.mem_cons.mp ha).resolve_left hne))
    · rw [change, if_neg hk] at ha
      rw [find_cons, if_neg hk] at hx
      rcases List.mem_cons.mp ha with rfl | ha
      · rintro rfl
        exact hS (hb a (find_mem hx))
      · exact hi hl hx ha

theorem change_forall₂ (hr : ∀ a, R a a) (hf : ∀ x, find key k l = some x → R x (f x)) :
    List.Forall₂ R l (change key k f l) := by
  induction l
  case nil         => exact .nil
  case cons a l hi =>
    by_cases h : key a = k
    · rw [change, if_pos h]
      exact .cons (hf a (by rw [find_cons, if_pos h])) (List.forall₂_same.mpr fun a _ => hr a)
    · rw [change, if_neg h]
      exact .cons (hr a) (hi fun x hx => hf x (by rw [find_cons, if_neg h, hx]))

theorem find_change (hk : ∀ a, key (f a) = key a) :
    find key k' (change key k f l) = if k' = k then (find key k l).map f else find key k' l := by
  induction l
  case nil         => simp [change, find]
  case cons a l hi =>
    by_cases h : key a = k
    · rw [change, if_pos h, find_cons, find_cons, find_cons, hk, if_pos h, h]
      by_cases hk' : k = k' <;> simp [hk', eq_comm]
    · rw [change, if_neg h, find_cons, find_cons, find_cons, hi, if_neg h]
      by_cases hk' : k' = k <;> simp [hk', h]

theorem find_of_mem (h : (l.map key).Nodup) (ha : a ∈ l) : find key (key a) l = some a := by
  induction l
  case nil         => cases ha
  case cons b l hi =>
    rw [List.map_cons, List.nodup_cons] at h
    rw [find_cons]
    rcases List.mem_cons.mp ha with rfl | ha
    · rw [if_pos rfl]
    · have hne : key b ≠ key a := fun he => h.left (he ▸ List.mem_map_of_mem ha)
      rw [if_neg hne, hi h.right ha]

theorem map_change (hx : find key k l = some x) (hk : key (f x) = k) :
    (change key k f l).map key = l.map key := by
  induction l
  case nil         => cases hx
  case cons b l hi =>
    rw [find_cons] at hx
    rw [change]
    split at hx
    case isTrue he  => cases hx; rw [if_pos he, List.map_cons, List.map_cons, hk, he]
    case isFalse he => rw [if_neg he, List.map_cons, List.map_cons, hi hx]

-- Where keys are unique, nothing but the changed record has its key.
theorem mem_change_iff (h : (l.map key).Nodup) (hx : find key k l = some x) :
    a ∈ change key k f l ↔ a = f x ∨ a ∈ l ∧ key a ≠ k := by
  induction l
  case nil         => cases hx
  case cons b l hi =>
    rw [List.map_cons, List.nodup_cons] at h
    rw [find_cons] at hx
    rw [change]
    split at hx
    case isTrue he  =>
      cases hx
      have hl (ha : a ∈ l) : key a ≠ k := fun hk => h.left (he ▸ hk ▸ List.mem_map_of_mem ha)
      rw [if_pos he, List.mem_cons, List.mem_cons]
      constructor
      · rintro (rfl | ha)
        · exact .inl rfl
        · exact .inr ⟨.inr ha, hl ha⟩
      · rintro (rfl | ⟨rfl | ha, hk⟩)
        · exact .inl rfl
        · exact absurd he hk
        · exact .inr ha
    case isFalse he =>
      rw [if_neg he, List.mem_cons, List.mem_cons, hi h.right hx]
      constructor
      · rintro (rfl | rfl | ⟨ha, hk⟩)
        · exact .inr ⟨.inl rfl, he⟩
        · exact .inl rfl
        · exact .inr ⟨.inr ha, hk⟩
      · rintro (rfl | ⟨rfl | ha, hk⟩)
        · exact .inr (.inl rfl)
        · exact .inl rfl
        · exact .inr (.inr ⟨ha, hk⟩)

end Change

section Grows

-- What becomes of a list in which records are changed along `R` and others are appended.
def Grows (R : α → α → Prop) (l l' : List α) : Prop :=
  ∃ changed added, l' = changed ++ added ∧ List.Forall₂ R l changed

theorem Grows.refl (hr : ∀ a, R a a) : Grows R l l :=
  ⟨l, [], (List.append_nil l).symm, List.forall₂_same.mpr fun a _ => hr a⟩

theorem Grows.of_forall₂ (h : List.Forall₂ R l l') : Grows R l l' :=
  ⟨l', [], (List.append_nil l').symm, h⟩

theorem Grows.append (hr : ∀ a, R a a) : Grows R l (l ++ l') :=
  ⟨l, l', rfl, List.forall₂_same.mpr fun a _ => hr a⟩

theorem Grows.getElem? (h : Grows R l l') {i : ℕ} (ha : l[i]? = some a) :
    ∃ a', l'[i]? = some a' ∧ R a a' := by
  obtain ⟨changed, added, rfl, h⟩ := h
  induction h generalizing i
  case nil            => cases ha
  case cons b b' m m' hb _ hi =>
    cases i
    case zero   => cases ha; exact ⟨b', rfl, hb⟩
    case succ i => exact hi ha

theorem Grows.mem (h : Grows R l l') (ha : a ∈ l) : ∃ a' ∈ l', R a a' := by
  obtain ⟨i, hi, rfl⟩ := List.mem_iff_getElem.mp ha
  obtain ⟨a', ha', hr⟩ := h.getElem? (List.getElem?_eq_getElem hi)
  exact ⟨a', List.mem_of_getElem? ha', hr⟩

theorem Grows.trans (hr : ∀ {a b c}, R a b → R b c → R a c) (h₁ : Grows R l l') (h₂ : Grows R l' l'') :
    Grows R l l'' := by
  obtain ⟨changed₁, added₁, rfl, h₁⟩ := h₁
  obtain ⟨changed₂, added₂, rfl, h₂⟩ := h₂
  induction h₁ generalizing changed₂
  case nil                    => exact ⟨[], changed₂ ++ added₂, rfl, .nil⟩
  case cons a b m m' hab _ hi =>
    cases h₂
    case cons c m'' hbc h₂ =>
      have ⟨changed, added, he, h⟩ := hi _ h₂
      exact ⟨c :: changed, added, by simp [he], .cons (hr hab hbc) h⟩

theorem forall₂_mem (h : List.Forall₂ R l l') (hx : x ∈ l') : ∃ a ∈ l, R a x := by
  induction h
  case nil              => cases hx
  case cons a b m m' hab _ hi =>
    rcases List.mem_cons.mp hx with rfl | hx
    · exact ⟨a, List.mem_cons_self, hab⟩
    · obtain ⟨a', ha', h⟩ := hi hx
      exact ⟨a', List.mem_cons_of_mem _ ha', h⟩

-- What two records satisfy carries over if it is preserved on both sides.
theorem forall₂_pairwise {S : α → α → Prop} (h : List.Forall₂ R l l')
    (hS : ∀ {a a' b b'}, R a a' → R b b' → S a b → S a' b') (hl : l.Pairwise S) : l'.Pairwise S := by
  induction h
  case nil              => exact .nil
  case cons a b m m' hab hm hi =>
    obtain ⟨ha, hl⟩ := List.pairwise_cons.mp hl
    refine List.pairwise_cons.mpr ⟨fun y hy => ?_, hi hl⟩
    obtain ⟨x, hx, hxy⟩ := forall₂_mem hm hy
    exact hS hab hxy (ha x hx)

theorem Grows.find [DecidableEq κ] {key : α → κ} {k : κ} (h : Grows R l l')
    (hk : ∀ {a b}, R a b → key b = key a) (hx : find key k l = some x) :
    ∃ x', Records.find key k l' = some x' ∧ R x x' := by
  obtain ⟨changed, added, rfl, h⟩ := h
  induction h
  case nil                  => cases hx
  case cons a a' m m' ha _ hi =>
    rw [find_cons] at hx
    rw [List.cons_append, find_cons, hk ha]
    split at hx
    case isTrue he  => cases hx; exact ⟨a', by rw [if_pos he], ha⟩
    case isFalse he => rw [if_neg he]; exact hi hx

end Grows

section Built

-- Every record satisfied `P` towards those before it when it was appended.
inductive Built (P : List α → α → Prop) : List α → Prop
  | nil : Built P []
  | append (l : List α) (a : α) (hl : Built P l) (ha : P l a) : Built P (l ++ [a])

-- What remains true as records change along `R` holds of a list that was built so.
theorem Built.changed {P : List α → α → Prop} (h : Built P l)
    (hP : ∀ {l l' a a'}, List.Forall₂ R l l' → R a a' → P l a → P l' a') (hl : List.Forall₂ R l l') :
    Built P l' := by
  induction h generalizing l'
  case nil              => cases hl; exact .nil
  case append l a _ ha hi =>
    have hl := List.forall₂_reverse_iff.mpr hl
    rw [List.reverse_append, List.reverse_singleton, List.singleton_append] at hl
    obtain ⟨a', m, haa, hm, he⟩ := List.forall₂_cons_left_iff.mp hl
    have hm' : List.Forall₂ R l m.reverse := List.forall₂_reverse_iff.mp (by simpa using hm)
    have he' : l' = m.reverse ++ [a'] := by rw [← List.reverse_reverse l', he, List.reverse_cons]
    exact he' ▸ .append _ _ (hi hm') (hP hm' haa ha)

end Built

section Groups

variable [DecidableEq κ] (key : α → κ)

-- The records under each key, in their order.
def groupBy (l : List α) : AList fun _ : κ => List α :=
  l.foldl (fun groups a => groups.insert (key a) ((groups.lookup (key a)).getD [] ++ [a])) ∅

variable {key} {k : κ}

end Groups

section Values

variable [DecidableEq κ] (key : α → κ)

-- The values of a map that the records are entered into one after the other. A later record takes the
-- place of an earlier one with its key.
def values (l : List α) : List α :=
  l.foldl (fun values a =>
    if (find key (key a) values).isSome then change key (key a) (fun _ => a) values else values ++ [a]) []

variable {key}

theorem values_eq (h : (l.map key).Nodup) : values key l = l := by
  induction l using List.reverseRecOn
  case nil                     => rfl
  case append_singleton l a hi =>
    rw [List.map_append, List.nodup_append] at h
    obtain ⟨hl, _, hne⟩ := h
    have hnone : find key (key a) l = none := by
      refine List.find?_eq_none.mpr fun b hb => ?_
      simpa using hne _ (List.mem_map_of_mem hb) (key a) (by simp)
    have hi := hi hl
    rw [values] at hi
    rw [values, List.foldl_append, hi, List.foldl_cons, hnone]
    rfl

end Values

end Records
