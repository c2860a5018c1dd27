import Flurbo.Library.JsonText

-- Documents that are equal but for the order of members have one normal form, and one text with the names in order.

namespace Json

variable {N M L : Type}

section Definitions

mutual

def sorted : Json N → Json N
  | .array items    => .array (sortedArray items)
  | .object members => .object ((sortedObject members).mergeSort nameLe)
  | v               => v

def sortedArray : List (Json N) → List (Json N)
  | []            => []
  | item :: items => sorted item :: sortedArray items

-- The values are in order, the members are not yet.
def sortedObject : List (Utf16 × Json N) → List (Utf16 × Json N)
  | []                      => []
  | (name, item) :: members => (name, sorted item) :: sortedObject members

end

mutual

def Numbers (P : N → Prop) : Json N → Prop
  | .number n       => P n
  | .array items    => NumbersItems P items
  | .object members => NumbersMembers P members
  | _               => True

def NumbersItems (P : N → Prop) : List (Json N) → Prop
  | []            => True
  | item :: items => item.Numbers P ∧ NumbersItems P items

def NumbersMembers (P : N → Prop) : List (Utf16 × Json N) → Prop
  | []                   => True
  | (_, item) :: members => item.Numbers P ∧ NumbersMembers P members

end

def member (name : Utf16) (members : List (Utf16 × Json N)) : Option (Json N) :=
  (members.find? fun m => m.1 = name).map Prod.snd

mutual

-- Equal values: the members of objects in any order, numbers by what they are worth.
def Same (worth : N → M) : Json N → Json N → Prop
  | .null, .null               => True
  | .bool b, .bool c           => b = c
  | .number m, .number n       => worth m = worth n
  | .string s, .string t       => s = t
  | .array xs, .array ys       => SameItems worth xs ys
  | .object ms, .object ns     => SameMembers worth ms ns ∧ ∀ n ∈ ns, n.1 ∈ ms.map Prod.fst
  | _, _                       => False

def SameItems (worth : N → M) : List (Json N) → List (Json N) → Prop
  | [], []           => True
  | x :: xs, y :: ys => Same worth x y ∧ SameItems worth xs ys
  | _, _             => False

def SameMembers (worth : N → M) : List (Utf16 × Json N) → List (Utf16 × Json N) → Prop
  | [], _                 => True
  | (name, x) :: ms, ns => (∃ y, member name ns = some y ∧ Same worth x y) ∧ SameMembers worth ms ns

end

def normal (worth : N → M) (v : Json N) : Json M := (v.sorted).map worth

end Definitions

section Maps

variable {f : N → M} {g : M → L}

theorem mapItems_eq (items : List (Json N)) : mapItems f items = items.map (map f) := by
  induction items
  case nil             => rfl
  case cons v items hi => rw [mapItems, hi, List.map_cons]

theorem mapMembers_eq (members : List (Utf16 × Json N)) :
    mapMembers f members = members.map fun m => (m.1, m.2.map f) := by
  induction members
  case nil            => rfl
  case cons m rest hi => rw [mapMembers, hi, List.map_cons]

theorem sortedObject_eq (members : List (Utf16 × Json N)) :
    sortedObject members = members.map fun m => (m.1, m.2.sorted) := by
  induction members
  case nil            => rfl
  case cons m rest hi => rw [sortedObject, hi, List.map_cons]

mutual

theorem map_map : (v : Json N) → (v.map f).map g = v.map (g ∘ f)
  | .array items    => by rw [map, map, mapItems_map, map]
  | .object members => by rw [map, map, mapMembers_map, map]
  | .null | .bool _ | .number _ | .string _ => rfl

theorem mapItems_map : (items : List (Json N)) → mapItems g (mapItems f items) = mapItems (g ∘ f) items
  | []            => rfl
  | item :: items => by rw [mapItems, mapItems, map_map item, mapItems_map items, mapItems]

theorem mapMembers_map : (members : List (Utf16 × Json N)) →
    mapMembers g (mapMembers f members) = mapMembers (g ∘ f) members
  | []                      => rfl
  | (name, item) :: members => by rw [mapMembers, mapMembers, map_map item, mapMembers_map members, mapMembers]

end

theorem map_mergeSort_nameLe {α β : Type} (h : α → β) (l : List (Utf16 × α)) :
    (l.mergeSort nameLe).map (fun m => (m.1, h m.2)) = (l.map fun m => (m.1, h m.2)).mergeSort nameLe :=
  List.map_mergeSort fun _ _ _ _ => rfl

mutual

theorem sorted_map : (v : Json N) → (v.map f).sorted = v.sorted.map f
  | .array items    => by rw [map, sorted, sorted, map, sortedArray_map]
  | .object members => by
    rw [map, sorted, sorted, map, sortedObject_map, mapMembers_eq, mapMembers_eq, map_mergeSort_nameLe]
  | .null | .bool _ | .number _ | .string _ => rfl

theorem sortedArray_map : (items : List (Json N)) → sortedArray (mapItems f items) = mapItems f (sortedArray items)
  | []            => rfl
  | item :: items => by rw [mapItems, sortedArray, sortedArray, mapItems, sorted_map item, sortedArray_map items]

theorem sortedObject_map : (members : List (Utf16 × Json N)) →
    sortedObject (mapMembers f members) = mapMembers f (sortedObject members)
  | []                      => rfl
  | (name, item) :: members => by
    rw [mapMembers, sortedObject, sortedObject, mapMembers, sorted_map item, sortedObject_map members]

end

end Maps

section Equality

variable {worth : N → M} {α : Type} {name : Utf16} {ms ns : List (Utf16 × Json N)} {v w : Json N}

theorem sortedArray_eq (items : List (Json N)) : sortedArray items = items.map sorted := by
  induction items
  case nil             => rfl
  case cons v items hi => rw [sortedArray, hi, List.map_cons]

theorem normal_array (items : List (Json N)) :
    normal worth (.array items) = .array (items.map (normal worth)) := by
  rw [normal, sorted, map, sortedArray_eq, mapItems_eq, List.map_map]
  rfl

def normalMembers (worth : N → M) (members : List (Utf16 × Json N)) : List (Utf16 × Json M) :=
  members.map fun m => (m.1, normal worth m.2)

theorem normal_object (members : List (Utf16 × Json N)) :
    normal worth (.object members) = .object ((normalMembers worth members).mergeSort nameLe) := by
  rw [normal, sorted, map, sortedObject_eq, mapMembers_eq, map_mergeSort_nameLe, List.map_map]
  rfl

theorem nameLe_trans (a b c : Utf16 × α) (hab : nameLe a b) (hbc : nameLe b c) : nameLe a c := by
  simp only [nameLe, decide_eq_true_eq] at hab hbc ⊢
  exact List.le_trans hab hbc

theorem nameLe_total (a b : Utf16 × α) : nameLe a b || nameLe b a := by
  simp only [nameLe, Bool.or_eq_true, decide_eq_true_eq]
  exact List.le_total a.1 b.1

-- Members of different names are put in one order only.
theorem mergeSort_eq_iff_perm {xs ys : List (Utf16 × α)} (h : (xs.map Prod.fst).Nodup) :
    xs.mergeSort nameLe = ys.mergeSort nameLe ↔ xs.Perm ys := by
  constructor
  case mp =>
    intro he
    exact ((xs.mergeSort_perm nameLe).symm.trans (he ▸ ys.mergeSort_perm nameLe))
  case mpr =>
    intro hp
    have hperm : (xs.mergeSort nameLe).Perm (ys.mergeSort nameLe) :=
      (xs.mergeSort_perm nameLe).trans (hp.trans (ys.mergeSort_perm nameLe).symm)
    refine hperm.eq_of_pairwise ?_ (List.pairwise_mergeSort nameLe_trans nameLe_total _)
      (List.pairwise_mergeSort nameLe_trans nameLe_total _)
    intro a b ha hb hab hba
    simp only [nameLe, decide_eq_true_eq] at hab hba
    have ha := List.mem_mergeSort.mp ha
    have hb := hp.symm.subset (List.mem_mergeSort.mp hb)
    exact List.inj_on_of_nodup_map h ha hb (List.le_antisymm hab hba)

theorem member_eq_some (h : member name ms = some v) : (name, v) ∈ ms := by
  rw [member, Option.map_eq_some_iff] at h
  obtain ⟨m, hf, rfl⟩ := h
  have hn : m.1 = name := by simpa using List.find?_some hf
  exact hn ▸ List.mem_of_find?_eq_some hf

theorem eq_of_mem_nodup {xs : List (Utf16 × α)} {a b : α} (h : (xs.map Prod.fst).Nodup) (ha : (name, a) ∈ xs)
    (hb : (name, b) ∈ xs) : a = b :=
  congrArg Prod.snd (List.inj_on_of_nodup_map h ha hb rfl)

theorem member_of_mem (h : (ms.map Prod.fst).Nodup) (hm : (name, v) ∈ ms) : member name ms = some v := by
  cases hf : member name ms
  case none =>
    rw [member, Option.map_eq_none_iff, List.find?_eq_none] at hf
    exact absurd (hf _ hm) (by simp)
  case some w => rw [eq_of_mem_nodup h (member_eq_some hf) hm]

theorem normalMembers_names (ms : List (Utf16 × Json N)) :
    (normalMembers worth ms).map Prod.fst = ms.map Prod.fst := by
  rw [normalMembers, List.map_map]
  rfl

theorem perm_normalMembers_iff (hm : (ms.map Prod.fst).Nodup) (hn : (ns.map Prod.fst).Nodup) :
    (normalMembers worth ms).Perm (normalMembers worth ns) ↔
      (∀ m ∈ normalMembers worth ms, m ∈ normalMembers worth ns) ∧ ∀ n ∈ ns, n.1 ∈ ms.map Prod.fst := by
  have hm' : ((normalMembers worth ms).map Prod.fst).Nodup := by rwa [normalMembers_names]
  have hn' : ((normalMembers worth ns).map Prod.fst).Nodup := by rwa [normalMembers_names]
  constructor
  case mp =>
    intro hp
    refine ⟨fun m h => hp.subset h, fun n h => ?_⟩
    have hp := hp.map Prod.fst
    rw [normalMembers_names, normalMembers_names] at hp
    exact hp.symm.subset (List.mem_map_of_mem h)
  case mpr =>
    intro ⟨hsub, hnames⟩
    rw [List.perm_ext_iff_of_nodup hm'.of_map hn'.of_map]
    refine fun p => ⟨hsub p, fun hp => ?_⟩
    have hp' := hp
    rw [normalMembers, List.mem_map] at hp'
    obtain ⟨n, hmem, rfl⟩ := hp'
    obtain ⟨m, hmem', hname⟩ := List.mem_map.mp (hnames n hmem)
    have hin : (n.1, normal worth m.2) ∈ normalMembers worth ms := List.mem_map.mpr ⟨m, hmem', by rw [hname]⟩
    rwa [← eq_of_mem_nodup hn' (hsub _ hin) hp]

mutual

theorem same_iff : (v w : Json N) → v.Unique → w.Unique → (Same worth v w ↔ normal worth v = normal worth w)
  | .array xs, w, hx, hy  => by
    cases w
    case array ys => rw [Same, normal_array, normal_array, Json.array.injEq, sameItems_iff xs ys hx hy]
    all_goals simp [Same, normal, sorted, map]
  | .object ms, w, hm, hn => by
    cases w
    case object ns =>
      rw [Same, normal_object, normal_object, Json.object.injEq,
        mergeSort_eq_iff_perm (by rw [normalMembers_names]; exact hm.1), perm_normalMembers_iff hm.1 hn.1,
        sameMembers_iff ms ns hm.2 hn.2 hn.1]
    all_goals simp [Same, normal, sorted, map]
  | .null, w, _, _ | .bool _, w, _, _ | .number _, w, _, _ | .string _, w, _, _ => by
    cases w <;> simp [Same, normal, sorted, map]

theorem sameItems_iff : (xs ys : List (Json N)) → UniqueItems xs → UniqueItems ys →
    (SameItems worth xs ys ↔ xs.map (normal worth) = ys.map (normal worth))
  | [], [], _, _             => by simp [SameItems]
  | [], _ :: _, _, _         => by simp [SameItems]
  | _ :: _, [], _, _         => by simp [SameItems]
  | x :: xs, y :: ys, hx, hy => by
    rw [SameItems, same_iff x y hx.1 hy.1, sameItems_iff xs ys hx.2 hy.2, List.map_cons, List.map_cons,
      List.cons.injEq]

theorem sameMembers_iff : (ms ns : List (Utf16 × Json N)) → UniqueMembers ms → UniqueMembers ns →
    (ns.map Prod.fst).Nodup →
    (SameMembers worth ms ns ↔ ∀ m ∈ normalMembers worth ms, m ∈ normalMembers worth ns)
  | [], _, _, _, _                  => by simp [SameMembers, normalMembers]
  | (name, x) :: ms, ns, hm, hn, hd => by
    rw [SameMembers, normalMembers, List.map_cons, List.forall_mem_cons,
      sameMembers_iff ms ns hm.2 hn hd]
    refine and_congr ?_ Iff.rfl
    rw [normalMembers, List.mem_map]
    constructor
    case mp =>
      intro ⟨y, hy, hs⟩
      have hmem := member_eq_some hy
      exact ⟨(name, y), hmem, by rw [(same_iff x y hm.1 (uniqueMembers_iff.mp hn _ hmem)).mp hs]⟩
    case mpr =>
      intro ⟨⟨k, y⟩, hmem, he⟩
      obtain ⟨rfl, he⟩ := Prod.mk.inj he
      exact ⟨y, member_of_mem hd hmem, (same_iff x y hm.1 (uniqueMembers_iff.mp hn _ hmem)).mpr he.symm⟩

end

end Equality

section Text

variable {number : N → Option Utf16} {α β : Type} {R : Utf16 × α → Utf16 × β → Prop}

-- Lists whose members go together still do so when both are put in order.
theorem forall₂_mergeSort {xs : List (Utf16 × α)} {ys : List (Utf16 × β)} (hr : ∀ x y, R x y → x.1 = y.1)
    (h : List.Forall₂ R xs ys) : List.Forall₂ R (xs.mergeSort nameLe) (ys.mergeSort nameLe) := by
  let le (p q : (Utf16 × α) × (Utf16 × β)) : Bool := nameLe p.1 q.1
  have hpair : ∃ ps : List ((Utf16 × α) × (Utf16 × β)), ps.map Prod.fst = xs ∧ ps.map Prod.snd = ys ∧
      ∀ p ∈ ps, R p.1 p.2 := by
    induction h
    case nil                => exact ⟨[], rfl, rfl, by simp⟩
    case cons x y _ _ h _ hi =>
      obtain ⟨ps, rfl, rfl, hps⟩ := hi
      exact ⟨(x, y) :: ps, rfl, rfl, List.forall_mem_cons.mpr ⟨h, hps⟩⟩
  obtain ⟨ps, rfl, rfl, hps⟩ := hpair
  have hfst : (ps.mergeSort le).map Prod.fst = (ps.map Prod.fst).mergeSort nameLe :=
    List.map_mergeSort fun _ _ _ _ => rfl
  have hsnd : (ps.mergeSort le).map Prod.snd = (ps.map Prod.snd).mergeSort nameLe := by
    refine List.map_mergeSort fun p hp q hq => ?_
    simp only [le, nameLe, hr _ _ (hps p hp), hr _ _ (hps q hq)]
  rw [← hfst, ← hsnd, List.forall₂_map_left_iff, List.forall₂_map_right_iff, List.forall₂_same]
  exact fun p hp => hps p (List.mem_mergeSort.mp hp)

theorem spaced_of {γ : Type} {P : Utf16 → γ → Prop} {t : Utf16} {v : γ} (h : P t v) : Spaced P t v := by
  have hs := @Spaced.mk γ P [] t [] v (fun _ hc => by cases hc) h (fun _ hc => by cases hc)
  rwa [List.nil_append, List.append_nil] at hs

theorem separated_separate {γ : Type} {P : Utf16 → γ → Prop} {ts : List Utf16} {vs : List γ}
    (h : List.Forall₂ P ts vs) (hn : ts ≠ []) : Separated P (separate ts) vs := by
  induction h
  case nil                     => exact absurd rfl hn
  case cons t v ts vs h hs hi =>
    cases hs
    case nil        => exact .last h
    case cons h' hs => exact .cons h (hi (by simp))

theorem array_separate {ts : List Utf16} {vs : List (Json Utf16)} (h : List.Forall₂ Value ts vs) :
    Value (openBracket :: separate ts ++ [closeBracket]) (.array vs) := by
  cases h
  case nil       => exact @Value.emptyArray [] fun _ hc => by cases hc
  case cons h hs => exact .array (separated_separate (.cons (spaced_of h) (hs.imp fun _ _ h => spaced_of h)) (by simp))

theorem member_memberText {p : Utf16 × Utf16} {m : Utf16 × Json Utf16} (hn : p.1 = m.1) (h : Value p.2 m.2) :
    Member Value (memberText p) m := by
  obtain ⟨name, v⟩ := m
  cases hn
  exact .mk (spaced_of (quoted_stringify _)) (spaced_of h)

theorem object_separate {ps : List (Utf16 × Utf16)} {ms : List (Utf16 × Json Utf16)}
    (h : List.Forall₂ (fun p m => p.1 = m.1 ∧ Value p.2 m.2) ps ms) :
    Value (openBrace :: separate (ps.map memberText) ++ [closeBrace]) (.object ms) := by
  have hs : List.Forall₂ (Member Value) (ps.map memberText) ms :=
    List.forall₂_map_left_iff.mpr (h.imp fun _ _ h => member_memberText h.1 h.2)
  generalize ps.map memberText = ts at hs
  cases hs
  case nil         => exact @Value.emptyObject [] fun _ hc => by cases hc
  case cons hm hms => exact .object (separated_separate (.cons hm hms) (by simp))

-- The text of a number, where there is one.
def textOf (number : N → Option Utf16) (n : N) : Utf16 := (number n).getD []

mutual

-- The text denotes the document with the names in order.
theorem value_sortedText (hn : ∀ n t, number n = some t → Number t) :
    (v : Json N) → ∀ t, sortedText number v = some t → Value t (normal (textOf number) v)
  | .null, t, h           => by cases h; exact .null
  | .bool true, t, h      => by cases h; exact .true
  | .bool false, t, h     => by cases h; exact .false
  | .number n, t, h       => by
    rw [sortedText] at h
    have ht : textOf number n = t := by rw [textOf, h, Option.getD_some]
    exact ht ▸ .number (ht.symm ▸ hn n t h)
  | .string s, t, h       => by cases h; exact .string (quoted_stringify s)
  | .array items, t, h    => by
    rw [sortedText, Option.map_eq_some_iff] at h
    obtain ⟨ts, hts, rfl⟩ := h
    rw [normal_array]
    exact array_separate (values_sortedItems hn items ts hts)
  | .object members, t, h => by
    rw [sortedText, Option.map_eq_some_iff] at h
    obtain ⟨ps, hps, rfl⟩ := h
    rw [normal_object]
    exact object_separate (forall₂_mergeSort (fun _ _ h => h.1) (values_sortedMembers hn members ps hps))

theorem values_sortedItems (hn : ∀ n t, number n = some t → Number t) :
    (items : List (Json N)) → ∀ ts, sortedItems number items = some ts →
      List.Forall₂ Value ts (items.map (normal (textOf number)))
  | [], ts, h            => by cases h; exact .nil
  | item :: items, ts, h => by
    simp only [sortedItems, Option.bind_eq_bind, Option.bind_eq_some_iff, Option.pure_def, Option.some.injEq] at h
    obtain ⟨t, ht, ts, hts, rfl⟩ := h
    exact .cons (value_sortedText hn item t ht) (values_sortedItems hn items ts hts)

theorem values_sortedMembers (hn : ∀ n t, number n = some t → Number t) :
    (members : List (Utf16 × Json N)) → ∀ ps, sortedMembers number members = some ps →
      List.Forall₂ (fun p m => p.1 = m.1 ∧ Value p.2 m.2) ps (normalMembers (textOf number) members)
  | [], ps, h                      => by cases h; exact .nil
  | (name, item) :: members, ps, h => by
    simp only [sortedMembers, Option.bind_eq_bind, Option.bind_eq_some_iff, Option.pure_def, Option.some.injEq] at h
    obtain ⟨t, ht, ps, hps, rfl⟩ := h
    exact .cons ⟨rfl, value_sortedText hn item t ht⟩ (values_sortedMembers hn members ps hps)

end

theorem sortedMembers_eq_some_iff {members : List (Utf16 × Json N)} {ps : List (Utf16 × Utf16)} :
    sortedMembers number members = some ps ↔
      List.Forall₂ (fun m p => m.1 = p.1 ∧ sortedText number m.2 = some p.2) members ps := by
  induction members generalizing ps
  case nil =>
    rw [sortedMembers, Option.some.injEq, List.forall₂_nil_left_iff]
    exact eq_comm
  case cons m members hi =>
    simp only [sortedMembers, Option.bind_eq_bind, Option.bind_eq_some_iff, Option.pure_def, Option.some.injEq,
      List.forall₂_cons_left_iff]
    constructor
    case mp  => exact fun ⟨t, ht, ps, hps, he⟩ => ⟨(m.1, t), ps, ⟨rfl, ht⟩, hi.mp hps, he.symm⟩
    case mpr => exact fun ⟨p, ps, ⟨hn, ht⟩, hps, he⟩ => ⟨p.2, ht, ps, hi.mpr hps, by rw [he, hn]⟩

theorem exists_sortedMembers_iff {members : List (Utf16 × Json N)} :
    (∃ ps, sortedMembers number members = some ps) ↔ ∀ m ∈ members, ∃ t, sortedText number m.2 = some t := by
  induction members
  case nil             => simp [sortedMembers]
  case cons m rest hi =>
    rw [List.forall_mem_cons, ← hi]
    simp only [sortedMembers, Option.bind_eq_bind, Option.bind_eq_some_iff, Option.pure_def, Option.some.injEq]
    constructor
    case mp  => exact fun ⟨_, t, ht, ps, hps, _⟩ => ⟨⟨t, ht⟩, ps, hps⟩
    case mpr => exact fun ⟨⟨t, ht⟩, ps, hps⟩ => ⟨_, t, ht, ps, hps, rfl⟩

theorem sortedMembers_mergeSort (members : List (Utf16 × Json N)) :
    sortedMembers number (members.mergeSort nameLe) = (sortedMembers number members).map (·.mergeSort nameLe) := by
  cases h : sortedMembers number members
  case some ps =>
    have hp := forall₂_mergeSort (fun _ _ h => h.1) (sortedMembers_eq_some_iff.mp h)
    exact sortedMembers_eq_some_iff.mpr hp
  case none    =>
    cases h' : sortedMembers number (members.mergeSort nameLe)
    case none    => rfl
    case some qs =>
      -- A member without a text is one in any order.
      have hall := exists_sortedMembers_iff.mp ⟨qs, h'⟩
      obtain ⟨ps, hps⟩ := exists_sortedMembers_iff.mpr fun m hm => hall m (List.mem_mergeSort.mpr hm)
      rw [hps] at h
      cases h

theorem mergeSort_mergeSort (l : List (Utf16 × α)) : (l.mergeSort nameLe).mergeSort nameLe = l.mergeSort nameLe :=
  List.mergeSort_of_pairwise (List.pairwise_mergeSort nameLe_trans nameLe_total l)

variable {worth : N → M} {write : M → Option Utf16}

mutual

-- The order of members and the numbers that are worth the same make no difference to the text.
theorem sortedText_normal : (v : Json N) → sortedText write (normal worth v) = sortedText (write ∘ worth) v
  | .array items    => by
    rw [normal_array, sortedText, sortedText, sortedItems_normal]
  | .object members => by
    rw [normal_object, sortedText, sortedText, sortedMembers_mergeSort, sortedMembers_normal, Option.map_map]
    simp only [Function.comp_def, mergeSort_mergeSort]
  | .null | .bool _ | .number _ | .string _ => rfl

theorem sortedItems_normal : (items : List (Json N)) →
    sortedItems write (items.map (normal worth)) = sortedItems (write ∘ worth) items
  | []            => rfl
  | item :: items => by
    rw [List.map_cons, sortedItems, sortedItems, sortedText_normal item, sortedItems_normal items]

theorem sortedMembers_normal : (members : List (Utf16 × Json N)) →
    sortedMembers write (normalMembers worth members) = sortedMembers (write ∘ worth) members
  | []                      => rfl
  | (name, item) :: members => by
    have hi := sortedMembers_normal members
    rw [normalMembers] at hi ⊢
    rw [List.map_cons, sortedMembers, sortedMembers, sortedText_normal item, hi]

end

mutual

theorem exists_sortedText : (v : Json N) → v.Numbers (fun n => ∃ t, number n = some t) →
    ∃ t, sortedText number v = some t
  | .number n, h       => h
  | .array items, h    => by
    obtain ⟨ts, hts⟩ := exists_sortedItems items h
    exact ⟨_, by rw [sortedText, hts]; rfl⟩
  | .object members, h => by
    obtain ⟨ps, hps⟩ := exists_sortedMembers_iff.mpr (exists_sortedMember members h)
    exact ⟨_, by rw [sortedText, hps]; rfl⟩
  | .null, _ | .bool _, _ | .string _, _ => ⟨_, rfl⟩

theorem exists_sortedItems : (items : List (Json N)) → NumbersItems (fun n => ∃ t, number n = some t) items →
    ∃ ts, sortedItems number items = some ts
  | [], _            => ⟨[], rfl⟩
  | item :: items, h => by
    obtain ⟨t, ht⟩ := exists_sortedText item h.1
    obtain ⟨ts, hts⟩ := exists_sortedItems items h.2
    exact ⟨t :: ts, by rw [sortedItems, ht, hts]; rfl⟩

theorem exists_sortedMember : (members : List (Utf16 × Json N)) →
    NumbersMembers (fun n => ∃ t, number n = some t) members → ∀ m ∈ members, ∃ t, sortedText number m.2 = some t
  | [], _                   => by simp
  | (_, item) :: members, h => by
    rw [List.forall_mem_cons]
    exact ⟨exists_sortedText item h.1, exists_sortedMember members h.2⟩

end

mutual

theorem unique_normal : (v : Json N) → v.Unique → (normal worth v).Unique
  | .array items, h    => by
    rw [normal_array, Json.Unique, uniqueItems_iff]
    exact uniqueItems_normal items h
  | .object members, h => by
    rw [normal_object, Json.Unique, uniqueMembers_iff]
    have hp := (normalMembers worth members).mergeSort_perm nameLe
    refine ⟨(hp.map Prod.fst).nodup_iff.mpr ?_, fun m hm => ?_⟩
    · rw [normalMembers_names]
      exact h.1
    · exact uniqueMembers_normal members h.2 m (hp.subset hm)
  | .null, _ | .bool _, _ | .number _, _ | .string _, _ => trivial

theorem uniqueItems_normal : (items : List (Json N)) → UniqueItems items →
    ∀ v ∈ items.map (normal worth), v.Unique
  | [], _            => by simp
  | item :: items, h => by
    rw [List.map_cons, List.forall_mem_cons]
    exact ⟨unique_normal item h.1, uniqueItems_normal items h.2⟩

theorem uniqueMembers_normal : (members : List (Utf16 × Json N)) → UniqueMembers members →
    ∀ m ∈ normalMembers worth members, m.2.Unique
  | [], _                      => by simp [normalMembers]
  | (name, item) :: members, h => by
    have hi := uniqueMembers_normal members h.2
    rw [normalMembers] at hi ⊢
    rw [List.map_cons, List.forall_mem_cons]
    exact ⟨unique_normal item h.1, hi⟩

end

end Text

section Again

variable {f : N → M} {g : M → L}

mutual

theorem unique_map : (v : Json N) → v.Unique → (v.map f).Unique
  | .array items, h    => by
    rw [map, Json.Unique, uniqueItems_iff]
    exact uniqueItems_map items h
  | .object members, h => by
    rw [map, Json.Unique, uniqueMembers_iff]
    refine ⟨?_, uniqueMembers_map members h.2⟩
    rw [mapMembers_eq, List.map_map]
    exact h.1
  | .null, _ | .bool _, _ | .number _, _ | .string _, _ => trivial

theorem uniqueItems_map : (items : List (Json N)) → UniqueItems items → ∀ v ∈ mapItems f items, v.Unique
  | [], _            => by simp [mapItems]
  | item :: items, h => by
    rw [mapItems, List.forall_mem_cons]
    exact ⟨unique_map item h.1, uniqueItems_map items h.2⟩

theorem uniqueMembers_map : (members : List (Utf16 × Json N)) → UniqueMembers members →
    ∀ m ∈ mapMembers f members, m.2.Unique
  | [], _                   => by simp [mapMembers]
  | (_, item) :: members, h => by
    rw [mapMembers, List.forall_mem_cons]
    exact ⟨unique_map item h.1, uniqueMembers_map members h.2⟩

end

theorem normal_map (v : Json N) : normal g (v.map f) = normal (g ∘ f) v := by
  rw [normal, sorted_map, map_map, normal]

mutual

theorem normal_normal : (v : Json N) → normal g (normal f v) = normal (g ∘ f) v
  | .array items    => by
    rw [normal_array, normal_array, normal_array, normalItems_normal]
  | .object members => by
    rw [normal_object, normal_object, normal_object, normalMembers, map_mergeSort_nameLe, mergeSort_mergeSort]
    exact congrArg (fun ms => Json.object (ms.mergeSort nameLe)) (normalMembers_normal members)
  | .null | .bool _ | .number _ | .string _ => rfl

theorem normalItems_normal : (items : List (Json N)) →
    (items.map (normal f)).map (normal g) = items.map (normal (g ∘ f))
  | []            => rfl
  | item :: items => by
    rw [List.map_cons, List.map_cons, List.map_cons, normal_normal item, normalItems_normal items]

theorem normalMembers_normal : (members : List (Utf16 × Json N)) →
    normalMembers g (normalMembers f members) = normalMembers (g ∘ f) members
  | []                      => rfl
  | (name, item) :: members => by
    have hi := normalMembers_normal members
    simp only [normalMembers] at hi ⊢
    rw [List.map_cons, List.map_cons, List.map_cons, normal_normal item, hi]

end

variable {f g : N → M}

mutual

theorem normal_congr : (v : Json N) → v.Numbers (fun n => f n = g n) → normal f v = normal g v
  | .number n, h       => congrArg Json.number h
  | .array items, h    => by rw [normal_array, normal_array, normalItems_congr items h]
  | .object members, h => by rw [normal_object, normal_object, normalMembers_congr members h]
  | .null, _ | .bool _, _ | .string _, _ => rfl

theorem normalItems_congr : (items : List (Json N)) → NumbersItems (fun n => f n = g n) items →
    items.map (normal f) = items.map (normal g)
  | [], _            => rfl
  | item :: items, h => by
    rw [List.map_cons, List.map_cons, normal_congr item h.1, normalItems_congr items h.2]

theorem normalMembers_congr : (members : List (Utf16 × Json N)) → NumbersMembers (fun n => f n = g n) members →
    normalMembers f members = normalMembers g members
  | [], _                      => rfl
  | (name, item) :: members, h => by
    have hi := normalMembers_congr members h.2
    rw [normalMembers] at hi ⊢
    rw [List.map_cons, normal_congr item h.1, hi]
    rfl

end

mutual

theorem numbers_imp {P Q : N → Prop} (hpq : ∀ n, P n → Q n) : (v : Json N) → v.Numbers P → v.Numbers Q
  | .number n, h       => hpq n h
  | .array items, h    => numbersItems_imp hpq items h
  | .object members, h => numbersMembers_imp hpq members h
  | .null, _ | .bool _, _ | .string _, _ => trivial

theorem numbersItems_imp {P Q : N → Prop} (hpq : ∀ n, P n → Q n) : (items : List (Json N)) →
    NumbersItems P items → NumbersItems Q items
  | [], _            => trivial
  | item :: items, h => ⟨numbers_imp hpq item h.1, numbersItems_imp hpq items h.2⟩

theorem numbersMembers_imp {P Q : N → Prop} (hpq : ∀ n, P n → Q n) : (members : List (Utf16 × Json N)) →
    NumbersMembers P members → NumbersMembers Q members
  | [], _                   => trivial
  | (_, item) :: members, h => ⟨numbers_imp hpq item h.1, numbersMembers_imp hpq members h.2⟩

end

end Again

end Json
