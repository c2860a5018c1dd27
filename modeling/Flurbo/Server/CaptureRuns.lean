import Flurbo.Server.CaptureMerge

-- Calls of any servers in any order. What a put has written stays, as long as every attempt lists an issue.

open Except

namespace Settlement.CaptureStore

variable {T : Texts} {s : State} {c : Capture} {a : Attempt} {n now : ℕ} {call : Call} {phase : Phase}
variable {w w' : World} {e : Event} {es : List Event} {F : Finset Digest}

section Calls

-- What is valid, and can be written without a loss.
def Call.Fit (T : Texts) (call : Call) : Prop :=
  (call.operation T).Valid T ∧ (call.operation T).Short ∧ (call.operation T).Listed

-- Why a call fails that is not refused by what is stored.
def Refused (T : Texts) : Call → Failure → Prop
  | .put c, .invalidCapture           => ¬ validCapture T c
  | .recordAttempt a, .invalidAttempt => ¬ validAttempt a
  | _, .future                        => True
  | _, .capacityReached               => True
  | _, .crashed                       => True
  | _, _                              => False

def CallSound (T : Texts) (w : World) (call : Call) : Phase → Prop
  | .reading  => call.Fit T
  | .writing  => call.Fit T
  | .checking => call.Fit T ∧ ∃ c ∈ w.merged, call = .put c
  | .returned => ∀ c, call = .put c → c ∈ w.merged
  | .failed f => Refused T call f

-- Servers and the script accept the state, which consists of what has been merged.
structure Sound (T : Texts) (w : World) (s : State) : Prop where
  read   : history T w.raw = .ok s
  short  : Short s
  listed : Listed s
  merged : Merged T {c | c ∈ w.merged} s
  calls  : ∀ n call phase, w.calls n = some (call, phase) → CallSound T w call phase
  puts   : ∀ c ∈ w.merged, ∃ n phase, w.calls n = some (.put c, phase)

-- A recorded attempt lists an issue, and all times have at most 14 digits.
def Meets (T : Texts) (_ : World) : Event → Prop
  | .start _ call _ => (call.operation T).Short ∧ (call.operation T).Listed
  | _               => True

theorem sound_initial (T : Texts) : Sound T .initial ⟨[], none⟩ where
  read   := rfl
  short  := ⟨by simp, by simp⟩
  listed := by simp [Listed]
  merged := by simpa [World.initial] using merged_empty T
  calls  := by simp [World.initial]
  puts   := by simp [World.initial]

theorem itemOf_valid (h : validCapture T c) : validEntry T (itemOf T c) :=
  ⟨h.1, h.1, le_rfl, rfl, ⟨Nat.two_pow_pos 53, h.2⟩, rfl⟩

theorem admit_sound (hs : (call.operation T).Short) (hl : (call.operation T).Listed) :
    CallSound T w call (accept T now call) := by
  cases call
  case put c =>
    rw [accept]
    split
    case isTrue h  => exact h
    case isFalse h =>
      split
      case isTrue  => exact trivial
      case isFalse => exact ⟨itemOf_valid (not_not.mp h), hs, hl⟩
  case recordAttempt a =>
    rw [accept]
    split
    case isTrue h  => exact h
    case isFalse h =>
      split
      case isTrue  => exact trivial
      case isFalse => exact ⟨not_not.mp h, hs, hl⟩

theorem CallSound.mono (hm : ∀ c ∈ w.merged, c ∈ w'.merged) (h : CallSound T w call phase) :
    CallSound T w' call phase := by
  cases phase
  case checking => exact ⟨h.1, h.2.imp fun c hc => ⟨hm c hc.1, hc.2⟩⟩
  case returned => exact fun c hc => hm c (h c hc)
  all_goals exact h

@[simp]
theorem setPhase_self : (w.setPhase n call phase).calls n = some (call, phase) := Function.update_self ..

@[simp]
theorem setPhase_ne {m : ℕ} (h : m ≠ n) : (w.setPhase n call phase).calls m = w.calls m := Function.update_of_ne h ..

-- A call moves on, and what is stored is sound with what it has merged.
theorem Sound.move {raw : Option Stored} {merged : List Capture} {s' : State} (h : Sound T w s)
    (hold : ∀ p, w.calls n = some p → p.1 = call) (hread : history T raw = .ok s') (hshort : Short s')
    (hlisted : Listed s') (hmerged : Merged T {c | c ∈ merged} s') (hmono : ∀ c ∈ w.merged, c ∈ merged)
    (hnew : ∀ c ∈ merged, c ∈ w.merged ∨ call = .put c)
    (hp : CallSound T { w.setPhase n call phase with raw := raw, merged := merged } call phase) :
    Sound T { w.setPhase n call phase with raw := raw, merged := merged } s' where
  read   := hread
  short  := hshort
  listed := hlisted
  merged := hmerged
  calls m call' phase' hc := by
    by_cases hm : m = n
    · subst hm
      have hc := setPhase_self.symm.trans hc
      cases hc
      exact hp
    · exact (h.calls m call' phase' ((setPhase_ne hm).symm.trans hc)).mono hmono
  puts c hc := by
    rcases hnew c hc with hc | rfl
    · obtain ⟨m, p, hm⟩ := h.puts c hc
      by_cases he : m = n
      · subst he
        have := hold _ hm
        exact ⟨m, phase, setPhase_self.trans (by rw [← this])⟩
      · exact ⟨m, p, (setPhase_ne he).trans hm⟩
    · exact ⟨n, phase, setPhase_self⟩

theorem Sound.setPhase (h : Sound T w s) (hold : ∀ p, w.calls n = some p → p.1 = call)
    (hp : CallSound T w call phase) : Sound T (w.setPhase n call phase) s :=
  h.move hold h.read h.short h.listed h.merged (fun _ => id) (fun _ => .inl) (hp.mono fun _ => id)

-- What is left when a call has run the script.
theorem Sound.write (h : Sound T w s) (hc : w.calls n = some (call, .writing))
    (hw : proceed T w n call .writing = .ok w') :
    Sound T w' (s.apply (call.operation T)) ∨
      (Full T s (call.operation T) ∧ w' = w.setPhase n call (.failed .capacityReached)) := by
  have hfit : call.Fit T := h.calls n call _ hc
  have hold (p : Call × Phase) (hp : w.calls n = some p) : p.1 = call := by
    rw [hc] at hp
    rw [← Option.some.inj hp]
  have hv := (decode_of_history h.read).2
  have hshort : Short (s.apply (call.operation T)) := .apply hv h.short hfit.2.1
  have hlisted : Listed (s.apply (call.operation T)) := .apply h.listed hfit.2.2
  rw [proceed] at hw
  rcases script_cases h.read (call.operation T) with ⟨a, ha, hsame, hs⟩ | ⟨hf, hs⟩ | ⟨hf, hs⟩
  · -- An attempt that is older than the one that is stored.
    rw [hs] at hw
    cases call
    case put           => cases ha
    case recordAttempt =>
      cases hw
      rw [hsame]
      exact .inl (h.setPhase hold fun c hc => nomatch hc)
  · have hread : history T (some (encode (s.apply (call.operation T)))) = .ok (s.apply (call.operation T)) :=
      (history_encode (hv.apply hfit.1 hf) hshort (not_lt.mp fun h => hf (.inr h))).1 hlisted
    rw [hs] at hw
    left
    cases call
    case put c =>
      cases hw
      have hset : {c' | c' ∈ c :: w.merged} = insert c {c' | c' ∈ w.merged} := by
        ext
        simp
      refine h.move hold hread hshort hlisted (hset ▸ h.merged.capture hv c) (fun c' => List.mem_cons_of_mem c)
        (fun c' hc' => ?_) ⟨hfit, c, List.mem_cons_self, rfl⟩
      exact (List.mem_cons.mp hc').elim (fun he => .inr (he ▸ rfl)) .inl
    case recordAttempt a =>
      cases hw
      exact h.move hold hread hshort hlisted (h.merged.attempt a) (fun _ => id) (fun _ => .inl) fun c hc => nomatch hc
  · rw [hs] at hw
    cases hw
    exact .inr ⟨hf, rfl⟩

theorem Sound.step (h : Sound T w s) (hm : Meets T w e) (hw : step T w e = .ok w') : ∃ s', Sound T w' s' := by
  cases e
  case start n call now =>
    rw [CaptureStore.step] at hw
    split at hw
    case isTrue    => cases hw
    case isFalse hn =>
      cases hw
      refine ⟨s, h.setPhase (fun p hp => ?_) (admit_sound hm.1 hm.2)⟩
      rw [hp] at hn
      exact absurd rfl hn
  case crash n =>
    have hfail {call : Call} {p : Phase} (hc : w.calls n = some (call, p)) :
        Sound T (w.setPhase n call (.failed .crashed)) s := by
      refine h.setPhase (fun p hp => ?_) ?_
      · rw [hc] at hp
        rw [← Option.some.inj hp]
      · cases call <;> exact trivial
    rw [CaptureStore.step] at hw
    split at hw
    case h_1 hc => cases hw; exact ⟨s, hfail hc⟩
    case h_2 hc => cases hw; exact ⟨s, hfail hc⟩
    case h_3 hc => cases hw; exact ⟨s, hfail hc⟩
    case h_4    => cases hw
  case proceed n =>
    rw [CaptureStore.step] at hw
    cases hc : w.calls n
    case none   => rw [hc] at hw; cases hw
    case some p =>
      obtain ⟨call, phase⟩ := p
      have hold (p : Call × Phase) (hp : w.calls n = some p) : p.1 = call := by
        rw [hc] at hp
        rw [← Option.some.inj hp]
      have hsound := h.calls n call phase hc
      rw [hc] at hw
      simp only [] at hw
      cases phase
      case reading =>
        rw [proceed, h.read] at hw
        cases hw
        exact ⟨s, h.setPhase hold hsound⟩
      case writing =>
        rcases h.write hc hw with h' | ⟨_, rfl⟩
        · exact ⟨_, h'⟩
        · exact ⟨s, h.setPhase hold (by cases call <;> exact trivial)⟩
      case checking =>
        obtain ⟨_, c, hc', rfl⟩ := hsound
        rw [proceed.eq_def] at hw
        simp only [h.read] at hw
        have hsaved := h.merged.saved (decode_of_history h.read).2 hc'
        cases hw
        refine ⟨s, h.setPhase hold ?_⟩
        rw [hsaved]
        rintro _ ⟨⟩
        exact hc'
      case returned => cases hw
      case failed   => cases hw

theorem run_sound (hm : Run.Along (step T) (Meets T) .initial es) : ∃ s, Sound T (Run.run (step T) .initial es) s :=
  Run.run_invariant_along (I := fun w => ∃ s, Sound T w s) hm ⟨_, sound_initial T⟩
    fun _ _ _ hm ⟨_, hs⟩ hw => hs.step hm hw

end Calls

section Capacity

-- The contents are among those of `F`, and the script is never asked to write too long a text.
def Roomy (T : Texts) (F : Finset Digest) (w : World) : Event → Prop
  | .start _ (.put c) _ => T.contentId c.content ∈ F
  | .proceed n          => ∀ call, w.calls n = some (call, .writing) → ∀ s, history T w.raw = .ok s →
    T.size (encode (s.apply (call.operation T))) ≤ maxPacketBytes
  | _                   => True

structure Spacious (T : Texts) (F : Finset Digest) (w : World) : Prop where
  ids : ∀ n c phase, w.calls n = some (.put c, phase) → T.contentId c.content ∈ F
  ok  : ∀ n call, w.calls n ≠ some (call, .failed .capacityReached)

theorem Spacious.move {raw : Option Stored} {merged : List Capture} (h : Spacious T F w)
    (hid : ∀ c, call = .put c → T.contentId c.content ∈ F) (hp : phase ≠ .failed .capacityReached) :
    Spacious T F { w.setPhase n call phase with raw := raw, merged := merged } where
  ids m c p hc := by
    by_cases hm : m = n
    · subst hm
      have hc := setPhase_self.symm.trans hc
      cases hc
      exact hid c rfl
    · exact h.ids m c p ((setPhase_ne hm).symm.trans hc)
  ok m call' hc := by
    by_cases hm : m = n
    · subst hm
      have hc := setPhase_self.symm.trans hc
      cases hc
      exact hp rfl
    · exact h.ok m call' ((setPhase_ne hm).symm.trans hc)

-- There are no more entries than contents.
theorem Sound.not_full (h : Sound T w s) (hF : F.card ≤ maxCaptures) (hids : Spacious T F w)
    (hid : ∀ c, call = .put c → T.contentId c.content ∈ F)
    (hsize : T.size (encode (s.apply (call.operation T))) ≤ maxPacketBytes) : ¬ Full T s (call.operation T) := by
  rintro (⟨e, he, hnew, hlen⟩ | hs)
  · cases call
    case recordAttempt => cases he
    case put c =>
      cases he
      have hnodup := (decode_of_history h.read).2.ids
      have hsub : insert (T.contentId c.content) (s.entries.map (·.id)).toFinset ⊆ F := by
        intro id hmem
        rcases Finset.mem_insert.mp hmem with rfl | hmem
        · exact hid c rfl
        · obtain ⟨e, he, rfl⟩ := List.mem_map.mp (List.mem_toFinset.mp hmem)
          obtain ⟨c', hc', hid'⟩ := (h.merged.ids e.id).mp ⟨e, he, rfl⟩
          obtain ⟨n, p, hn⟩ := h.puts c' hc'
          exact hid' ▸ hids.ids n c' p hn
      have hnot : T.contentId c.content ∉ (s.entries.map (·.id)).toFinset := by
        rw [List.mem_toFinset, List.mem_map]
        rintro ⟨e, he, hid'⟩
        exact hnew e he hid'
      have hcard := (Finset.card_le_card hsub).trans hF
      rw [Finset.card_insert_of_notMem hnot, List.toFinset_card_of_nodup hnodup, List.length_map] at hcard
      exact absurd hcard (not_le.mpr (Nat.lt_succ_of_le hlen))
  · exact absurd hsize (not_le.mpr hs)

theorem accept_ne_capacity : accept T now call ≠ .failed .capacityReached := by
  cases call <;> rw [accept] <;> split_ifs <;> simp

theorem checkSaved_ne_capacity : checkSaved T c s ≠ .failed .capacityReached := by
  rw [checkSaved]
  split
  · simp
  · split <;> simp

theorem Spacious.step (hF : F.card ≤ maxCaptures) (hs : Sound T w s) (h : Spacious T F w) (hr : Roomy T F w e)
    (hw : step T w e = .ok w') : Spacious T F w' := by
  cases e
  case start n call now =>
    rw [CaptureStore.step] at hw
    split at hw
    case isTrue  => cases hw
    case isFalse =>
      cases hw
      refine h.move (fun c hc => ?_) accept_ne_capacity
      subst hc
      exact hr
  case crash n =>
    have hfail {call : Call} {p : Phase} (hc : w.calls n = some (call, p)) :
        Spacious T F (w.setPhase n call (.failed .crashed)) :=
      h.move (fun c he => h.ids n c p (he ▸ hc)) (by simp)
    rw [CaptureStore.step] at hw
    split at hw
    case h_1 hc => cases hw; exact hfail hc
    case h_2 hc => cases hw; exact hfail hc
    case h_3 hc => cases hw; exact hfail hc
    case h_4    => cases hw
  case proceed n =>
    rw [CaptureStore.step] at hw
    cases hc : w.calls n
    case none   => rw [hc] at hw; cases hw
    case some p =>
      obtain ⟨call, phase⟩ := p
      have hid (c : Capture) (he : call = .put c) : T.contentId c.content ∈ F := h.ids n c phase (he ▸ hc)
      rw [hc] at hw
      cases phase
      case reading =>
        simp only [proceed, hs.read] at hw
        cases hw
        exact h.move hid (by simp)
      case writing =>
        have hnf := hs.not_full hF h hid (hr call hc s hs.read)
        simp only [proceed] at hw
        rcases script_cases hs.read (call.operation T) with ⟨_, _, _, he⟩ | ⟨_, he⟩ | ⟨hf, _⟩
        · rw [he] at hw
          cases call <;> cases hw <;> exact h.move hid (by simp)
        · rw [he] at hw
          cases call <;> cases hw <;> exact h.move hid (by simp)
        · exact absurd hf hnf
      case checking =>
        simp only [proceed.eq_def, hs.read] at hw
        cases call
        case put           => cases hw; exact h.move hid checkSaved_ne_capacity
        case recordAttempt => cases hw
      case returned => cases hw
      case failed   => cases hw

theorem run_spacious (hF : F.card ≤ maxCaptures)
    (hm : Run.Along (step T) (fun w e => Meets T w e ∧ Roomy T F w e) .initial es) :
    Spacious T F (Run.run (step T) .initial es) := by
  have h₀ : Spacious T F .initial := ⟨by simp [World.initial], by simp [World.initial]⟩
  refine (Run.run_invariant_along (I := fun w => (∃ s, Sound T w s) ∧ Spacious T F w) hm
    ⟨⟨_, sound_initial T⟩, h₀⟩ fun _ _ _ ⟨hm, hr⟩ ⟨⟨_, hs⟩, h⟩ hw => ?_).2
  exact ⟨hs.step hm hw, h.step hF hs hr hw⟩

end Capacity

section Captures

-- What a run has done: the state is accepted by servers and by the script, it consists of the captures whose
-- script has run, among them all whose put has returned, and no call has failed over what is stored.
structure Kept (T : Texts) (w : World) (s : State) : Prop where
  read     : history T w.raw = .ok s
  script   : ∀ op, captureHistoryScript T w.raw op = .ok (w.raw, 0) ∨
    captureHistoryScript T w.raw op = .ok (some (encode (s.apply op)), 1) ∨
    (Full T s op ∧ captureHistoryScript T w.raw op = .error .capacityReached)
  merged   : Merged T {c | c ∈ w.merged} s
  returned : ∀ n c, w.calls n = some (.put c, .returned) → c ∈ w.merged
  puts     : ∀ c ∈ w.merged, ∃ n phase, w.calls n = some (.put c, phase)
  failed   : ∀ n call f, w.calls n = some (call, .failed f) → Refused T call f
  -- The entries are those of all puts once these have returned.
  complete : (∀ n c phase, w.calls n = some (.put c, phase) → phase = .returned) →
    Merged T {c | ∃ n phase, w.calls n = some (.put c, phase)} s

theorem Sound.kept (h : Sound T w s) : Kept T w s where
  read              := h.read
  script op         := (script_cases h.read op).imp (fun ⟨_, _, _, h⟩ => h) (.imp And.right id)
  merged            := h.merged
  returned n c hc   := h.calls n _ _ hc c rfl
  puts              := h.puts
  failed n call f hc := h.calls n _ _ hc
  complete hall     := by
    have hset : {c | ∃ n phase, w.calls n = some (.put c, phase)} = {c | c ∈ w.merged} := by
      ext c
      constructor
      · rintro ⟨n, phase, hc⟩
        have := hall n c phase hc
        subst this
        exact h.calls n _ _ hc c rfl
      · exact h.puts c
    rw [hset]
    exact h.merged

theorem step_merged (hw : step T w e = .ok w') (hc : c ∈ w.merged) : c ∈ w'.merged := by
  cases e
  case start =>
    rw [step] at hw
    split at hw <;> cases hw
    exact hc
  case crash =>
    rw [step] at hw
    split at hw <;> cases hw <;> exact hc
  case proceed n =>
    rw [step] at hw
    split at hw
    case h_2 => cases hw
    case h_1 call phase _ =>
      rw [proceed.eq_def] at hw
      split at hw
      · split at hw <;> cases hw <;> exact hc
      · split at hw
        · cases hw
          exact hc
        · split at hw <;> cases hw
          · exact List.mem_cons_of_mem _ hc
          · exact hc
      · split at hw <;> cases hw <;> exact hc
      · cases hw

theorem run_merged (hc : c ∈ w.merged) : c ∈ (Run.run (step T) w es).merged :=
  Run.run_invariant (I := fun w => c ∈ w.merged) hc fun _ _ _ _ hc hw => step_merged hw hc

-- What a put has merged is covered in every later state.
theorem run_covers {es' : List Event} (hm : Run.Along (step T) (Meets T) .initial (es ++ es')) :
    ∃ s, Kept T (Run.run (step T) .initial (es ++ es')) s ∧
      ∀ n c, (Run.run (step T) .initial es).calls n = some (.put c, .returned) →
        ∃ e ∈ s.entries, e.id = T.contentId c.content ∧ e.first ≤ c.fetchedAt ∧ c.fetchedAt ≤ e.last := by
  obtain ⟨s₁, h₁⟩ := run_sound (Run.Along.append.mp hm).1
  obtain ⟨s, h⟩ := run_sound hm
  refine ⟨s, h.kept, fun n c hc => ?_⟩
  have hc' : c ∈ (Run.run (step T) .initial (es ++ es')).merged := by
    rw [Run.run_append]
    exact run_merged (h₁.calls n _ _ hc c rfl)
  obtain ⟨e, he, hid⟩ := (h.merged.ids _).mpr ⟨c, hc', rfl⟩
  exact ⟨e, he, hid, h.merged.covers he hc' hid.symm⟩

-- Whatever is put stays as long as every attempt lists an issue. What the script writes is accepted again if and
-- only if it does.
theorem captures_merged (T : Texts) :
    (∀ raw raw' s op, history T raw = .ok s → Short s → op.Valid T → op.Short →
      captureHistoryScript T raw op = .ok (raw', 1) → ((history T raw').isOk = true ↔ Listed (s.apply op))) ∧
    (∀ es es', Run.Along (step T) (Meets T) .initial (es ++ es') →
      ∃ s, Kept T (Run.run (step T) .initial (es ++ es')) s ∧
        ∀ n c, (Run.run (step T) .initial es).calls n = some (.put c, .returned) →
          ∃ e ∈ s.entries, e.id = T.contentId c.content ∧ e.first ≤ c.fetchedAt ∧ c.fetchedAt ≤ e.last) ∧
    (∀ F : Finset Digest, F.card ≤ maxCaptures → ∀ es,
      Run.Along (step T) (fun w e => Meets T w e ∧ Roomy T F w e) .initial es →
      ∀ n call, (Run.run (step T) .initial es).calls n ≠ some (call, .failed .capacityReached)) :=
  ⟨fun _ _ _ _ h hs hv ho hw => script_accepted h hs hv ho hw, fun _ _ hm => run_covers hm,
    fun _ hF _ hm => (run_spacious hF hm).ok⟩

section Samples

def sampleTexts : Texts where
  digest    := String.length
  contentId := fun c => c.body.length
  size      := fun _ => 120

def fetched : Capture where
  requestedUrl := "https://example.com/a"
  finalUrl     := "https://example.com/a"
  fetchedAt    := 20
  status       := 200
  contentType  := some "application/json"
  complete     := true
  bytes        := 2
  body         := "12"
  sha256       := 2

-- The attempt of a check that found nothing wrong.
def succeeded : Attempt := ⟨10, true, []⟩

-- After it neither a server nor a later attempt can use the key.
theorem attempt_ends_history : validAttempt succeeded ∧ validCapture sampleTexts fetched ∧
    history sampleTexts (Run.run (step sampleTexts) .initial
      [.start 0 (.recordAttempt succeeded) 30, .proceed 0, .proceed 0]).raw = .error .invalidAttempt ∧
    ((Run.run (step sampleTexts) .initial [.start 0 (.recordAttempt succeeded) 30, .proceed 0, .proceed 0,
      .start 1 (.put fetched) 30, .proceed 1]).calls 1).map Prod.snd = some (.failed .invalidAttempt) :=
  ⟨by decide, by decide, by decide, by decide⟩

-- Two puts of one content, one in the middle of the other, and the attempt of a check that went wrong.
def rejected : Attempt := ⟨22, false, [.valueInvalid]⟩

def refetched : Capture := { fetched with fetchedAt := 25 }

def refetches : List Event :=
  [.start 0 (.put fetched) 30, .start 1 (.put refetched) 30, .start 2 (.recordAttempt rejected) 30, .proceed 0,
    .proceed 1, .proceed 1, .proceed 0, .proceed 2, .proceed 2, .proceed 1, .proceed 0]

theorem refetches_meets (w : World) :
    ∀ e ∈ refetches, Meets sampleTexts w e ∧ Roomy sampleTexts {2} w e := by
  have hlong (n : ℕ) (h : n ≤ 30) : n < 10 ^ 14 := h.trans_lt (by norm_num)
  have hsize (s : Stored) : sampleTexts.size s ≤ maxPacketBytes :=
    (by decide : 120 ≤ 16000000)
  have hissue : rejected.issues ≠ [] := by simp [rejected]
  have hproceed (n : ℕ) : Meets sampleTexts w (.proceed n) ∧ Roomy sampleTexts {2} w (.proceed n) :=
    ⟨trivial, fun _ _ _ _ => hsize _⟩
  have hput (c : Capture) (hc : c.fetchedAt ≤ 30) (hid : c.body.length = 2) (n : ℕ) :
      Meets sampleTexts w (.start n (.put c) 30) ∧ Roomy sampleTexts {2} w (.start n (.put c) 30) :=
    ⟨⟨hlong _ hc, trivial⟩, Finset.mem_singleton.mpr hid⟩
  simp only [refetches, List.forall_mem_cons, List.not_mem_nil, false_imp_iff, implies_true, and_true, hproceed]
  exact ⟨hput fetched (by decide) rfl 0, hput refetched (by decide) rfl 1, ⟨hlong 22 (by decide), hissue⟩, trivial⟩

theorem captures_merged_sample :
    let w := Run.run (step sampleTexts) .initial refetches
    w.raw = some ⟨.array [⟨2, 20, 25, fetched.content⟩], some ⟨22, false, .array [.valueInvalid]⟩⟩ ∧
    (∃ s, Kept sampleTexts w s) ∧
    ((history sampleTexts (some (encode (State.apply ⟨[], none⟩ (.attempt succeeded))))).isOk = true ↔
      Listed (State.apply ⟨[], none⟩ (.attempt succeeded))) ∧
    ∀ n call, w.calls n ≠ some (call, .failed .capacityReached) := by
  have ⟨hscript, hruns, hspace⟩ := captures_merged sampleTexts
  have ⟨s, hs, _⟩ := hruns refetches [] (.of_forall fun e he w => (refetches_meets w e (by simpa using he)).1)
  refine ⟨by decide +kernel, ⟨s, hs⟩, ?_,
    hspace {2} (by decide) refetches (.of_forall fun e he w => refetches_meets w e he)⟩
  have hvalid : validAttempt succeeded := by decide
  exact hscript none _ ⟨[], none⟩ (.attempt succeeded) rfl ⟨by simp, by simp⟩ hvalid
    (show 10 < 10 ^ 14 by norm_num) (by decide +kernel)

end Samples

end Captures

end Settlement.CaptureStore
