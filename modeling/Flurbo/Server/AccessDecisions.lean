import Flurbo.Server.Applications

-- What holds throughout the history of one application.

open Except

namespace Applications

def decisionOf (row : Option Row) : Option Decision := row.bind (·.decision)

def Approved (row : Option Row) : Prop := ∃ a, row = some a ∧ a.state = .approved

namespace Entry

variable (e : Entry)

-- A code was sent.
def sends : Bool :=
  match e.reply with
  | .submitted _ send => send
  | _                 => false

-- A guess was compared with the code.
def compares : Bool :=
  match e.call, e.reply with
  | .verify _, .application _ => true
  | .verify _, reply          => reply = mismatch
  | _, _                      => false

def decides : Bool := decisionOf e.before ≠ decisionOf e.after

-- The current notification was offered, or reported as sent.
def offers : Bool :=
  match e.reply with
  | .notification .. => true
  | _                => false

def tells : Bool :=
  match e.call, e.before with
  | .notified text, some a => (castUuid text).isSome && castUuid text = a.notificationId
  | _, _                   => false

end Entry

def sendTimes (past : List Entry) : List ℕ := (past.filter (·.sends)).map (·.at_)

def sendsOn (day : ℕ) (past : List Entry) : ℕ :=
  ((sendTimes past).filter (currentDate · = day)).length

-- Guesses that were compared with the latest code.
def guesses (past : List Entry) : ℕ := ((past.takeWhile (!·.sends)).filter (·.compares)).length

def sinceDecision (past : List Entry) : List Entry := past.takeWhile (!·.decides)

-- The latest code was sent to an address.
def Submitted (past : List Entry) (email codeHash : String) : Prop :=
  ∃ newer s older, past = newer ++ s :: older ∧ s.call = .submit email codeHash ∧ s.sends ∧
    ∀ e ∈ newer, ¬ e.sends

-- The latest code was repeated.
def Verified (past : List Entry) (email : String) : Prop :=
  ∃ newer v older codeHash, past = newer ++ v :: older ∧ v.call = .verify codeHash ∧
    (∃ view, v.reply = .application view) ∧ Submitted older email codeHash ∧ ∀ e ∈ newer, ¬ e.sends

-- A decision that an operator is told of is the one that was asked for.
def Entry.Agrees (e : Entry) : Prop :=
  ∀ d operator revision view, e.call = .decide d operator revision → e.reply = .application view →
    ∃ x a, Decision.ofText d = some x ∧ e.after = some a ∧ a.decision = some x ∧ a.state = x.state ∧
      view.state = x.state

structure Consistent (w : World) : Prop where
  decision     : ∀ e ∈ w.past, e.decides → e.call.action = .decide
  decided      : ∀ e ∈ w.past, e.Agrees
  approved     : ∀ a, w.row = some a → a.state = .approved →
    ∃ email, a.email = some email ∧ Verified w.past email
  stays        : ∀ e ∈ w.past, Approved e.before → Approved e.after ∨ e.call.action = .decide
  guesses      : ∀ past, past <:+ w.past → guesses past ≤ 5
  daily        : ∀ day, sendsOn day w.past ≤ 5
  apart        : (sendTimes w.past).Pairwise fun later earlier => earlier + minute ≤ later
  notification : ∀ a, w.row = some a → a.notificationId ≠ none → a.decision = some .approved
  offered      : ∀ newer e older, w.past = newer ++ e :: older → e.offers → ∀ t ∈ sinceDecision older, ¬ t.tells

-- A decision is not repeated while the application is in another state.
def Repeats (a : Row) : Call → Prop
  | .decide d operator revision =>
    revision = a.revision ∧ isAccount operator ∧ a.decision.map (·.text) = some d ∧
      a.decision.map (·.state) ≠ some a.state
  | _                           => False

instance decidableRepeats (a : Row) : ∀ c : Call, Decidable (Repeats a c)
  | .decide d operator revision => inferInstanceAs (Decidable
      (revision = a.revision ∧ isAccount operator ∧ a.decision.map (·.text) = some d ∧
        a.decision.map (·.state) ≠ some a.state))
  | .submit ..     => .isFalse id
  | .verify _      => .isFalse id
  | .withdraw      => .isFalse id
  | .notification  => .isFalse id
  | .notified _    => .isFalse id

def Proper (w : World) (e : Event) : Prop := ∀ a ∈ w.row, ¬ Repeats a e.call

instance decidableProper (w : World) (e : Event) : Decidable (Proper w e) :=
  inferInstanceAs (Decidable (∀ a ∈ w.row, ¬ Repeats a e.call))

section Changes

-- Answers to calls that do nothing.
def quiet : Call → Reply → Bool
  | .notified _, _         => false
  | _, .submitted _ send   => !send
  | _, .application _      => false
  | _, .notification ..    => false
  | _, .nothing            => true
  | _, .refused status err => Reply.refused status err ≠ mismatch

theorem quiet_refused {c : Call} {status : ℕ} {error : String} (hc : c.action ≠ .notified)
    (he : Reply.refused status error ≠ mismatch) : quiet c (.refused status error) := by
  cases c
  case notified => exact absurd rfl hc
  all_goals simpa [quiet] using he

-- What one transaction can do to the application.
inductive Change (now : ℕ) (fresh : Uuid) : Option Row → Call → Reply → Option Row → Prop
  | absent (c : Call) : Change now fresh none c (.refused 404 "Application not found.") none
  | created (email codeHash : String) (view : View) :
    Change now fresh none (.submit email codeHash) (.submitted view true)
      (some ((Call.submit email codeHash).data.row now))
  | refused (a : Row) (c : Call) (reply : Reply) (hq : quiet c reply) :
    Change now fresh (some a) c reply (some a)
  | resubmitted (a : Row) (email codeHash : String) (view : View) (revision : ℕ)
    (hs : a.state ∉ [.approved, .declined, .revoked]) (ht : a.sentAt + minute ≤ now)
    (hd : a.sendDay = currentDate now → a.sends < 5) :
    Change now fresh (some a) (.submit email codeHash) (.submitted view true)
      (some (a.resubmitted now (Call.submit email codeHash).data revision))
  | mismatched (a : Row) (codeHash : String) (hn : a.attempts < 5) :
    Change now fresh (some a) (.verify codeHash) mismatch (some { a with attempts := a.attempts + 1 })
  | verified (a : Row) (codeHash : String) (view : View) (revision : ℕ) (hs : a.state = .unverified)
    (hc : a.codeHash = some codeHash) (hn : a.attempts < 5) :
    Change now fresh (some a) (.verify codeHash) (.application view)
      (some ({ a with attempts := a.attempts + 1 }.verified now revision))
  | withdrawn (a : Row) (view : View) (revision : ℕ) (hd : a.decision ≠ some .approved) :
    Change now fresh (some a) .withdraw (.application view) (some (a.withdrawn revision))
  | kept (a : Row) (d : Decision) (operator : String) (ho : isAccount operator) (hd : a.decision = some d) :
    Change now fresh (some a) (.decide d.text operator a.revision) (.application (a.view now)) (some a)
  | decided (a : Row) (d : Decision) (operator : String) (revision : ℕ) (hd : a.decision ≠ some d)
    (hv : d = .approved → a.verifiedAt ≠ none) :
    Change now fresh (some a) (.decide d.text operator a.revision)
      (.application ((a.decided now fresh d revision).view now)) (some (a.decided now fresh d revision))
  | offered (a : Row) (id : Uuid) (email : Option String) (expired : Bool) (hn : a.notified = false) :
    Change now fresh (some a) .notification (.notification id email expired) (some a)
  | told (a : Row) (text : String) (id : Uuid) (ht : castUuid text = some id) (hi : a.notificationId = some id) :
    Change now fresh (some a) (.notified text) .nothing (some { a with notified := true })
  | missed (a : Row) (text : String) (ht : castUuid text ≠ a.notificationId) :
    Change now fresh (some a) (.notified text) .nothing (some a)

variable {now : ℕ} {fresh : Uuid} {a : Row} {row : Option Row} {reply : Reply}

theorem Decision.ofText_eq_some {s : String} {d : Decision} : ofText s = some d ↔ d.text = s := by
  constructor
  · intro h
    simpa using List.find?_some h
  · rintro rfl
    cases d <;> rfl

theorem same_text {x : Option Decision} {d : Decision} :
    same (x.map (·.text)) (some d.text) ↔ x = some d := by
  cases x
  case none   => simp [same]
  case some y => cases y <;> cases d <;> decide

theorem submit_change {email codeHash : String}
    (h : submit now (Call.submit email codeHash).data (some a) = .ok (row, reply)) :
    Change now fresh (some a) (.submit email codeHash) reply row := by
  rw [submit] at h
  split at h
  case isTrue => cases h; exact .refused a _ _ (by rfl)
  case isFalse hs =>
  split at h
  case isTrue => cases h; exact .refused a _ _ (by rfl)
  case isFalse =>
  split at h
  case isTrue => cases h; exact .refused a _ _ (quiet_refused nofun (by decide))
  case isFalse ht =>
  split at h
  case isTrue => cases h; exact .refused a _ _ (quiet_refused nofun (by decide))
  case isFalse hd =>
  split at h
  case isTrue => cases h
  case isFalse =>
  have ⟨revision, _, h⟩ := bind_eq_ok.mp h
  cases h
  exact .resubmitted a email codeHash _ revision hs (by omega) (by omega)

theorem verify_change {codeHash : String}
    (h : verify now (Call.verify codeHash).data a = .ok (row, reply)) :
    Change now fresh (some a) (.verify codeHash) reply row := by
  rw [verify] at h
  split at h
  case isTrue => cases h; exact .refused a _ _ (quiet_refused nofun (by decide))
  case isFalse hc =>
  simp only [not_or, not_le, not_not, ge_iff_le] at hc
  have ⟨hs, hh, _, hn⟩ := hc
  split at h
  case isTrue => cases h; exact .mismatched a codeHash hn
  case isFalse hd =>
  have ⟨revision, _, h⟩ := bind_eq_ok.mp h
  cases h
  refine .verified a codeHash _ revision hs ?_ hn
  have ⟨stored, hst⟩ := Option.ne_none_iff_exists'.mp hh
  simpa [differ, Call.data, hst] using hd

theorem withdraw_change (h : withdraw now a = .ok (row, reply)) :
    Change now fresh (some a) .withdraw reply row := by
  rw [withdraw] at h
  split at h
  case isTrue => cases h; exact .refused a _ _ (quiet_refused nofun (by decide))
  case isFalse hd =>
  have ⟨revision, _, h⟩ := bind_eq_ok.mp h
  cases h
  exact .withdrawn a _ revision hd

theorem decide_change {d operator : String} {revision : ℕ}
    (h : decide now (Call.decide d operator revision).data fresh a = .ok (row, reply)) :
    Change now fresh (some a) (.decide d operator revision) reply row := by
  rw [decide] at h
  split at h
  case isTrue => cases h
  case isFalse =>
  split at h
  case isTrue => cases h; exact .refused a _ _ (quiet_refused nofun (by decide))
  case isFalse hr =>
  obtain rfl : a.revision = revision := by simpa [differ, Call.data] using hr
  split at h
  case isTrue => cases h
  case isFalse hi =>
  have ⟨hd, ho⟩ : Decision.ofText d ≠ none ∧ isAccount operator := by simpa [Call.data] using hi
  have ⟨x, hx⟩ := Option.ne_none_iff_exists'.mp hd
  obtain rfl := Decision.ofText_eq_some.mp hx
  split at h
  case isTrue => cases h; exact .refused a _ _ (quiet_refused nofun (by decide))
  case isFalse hv =>
  split at h
  case isTrue hs  =>
    cases h
    exact .kept a x operator ho (same_text.mp hs)
  case isFalse hs =>
    have ⟨revision, _, h⟩ := bind_eq_ok.mp h
    simp only [Call.data, Option.bind_some, hx] at h
    cases h
    refine .decided a x operator revision (same_text.not.mp hs) ?_
    rintro rfl hn
    exact hv ⟨rfl, .inl hn⟩

theorem notification_change (h : notification now a = .ok (row, reply)) :
    Change now fresh (some a) .notification reply row := by
  rw [notification] at h
  split at h
  case h_2 => cases h; exact .refused a _ _ (by rfl)
  case h_1 id _ =>
    split at h
    case isTrue     => cases h; exact .refused a _ _ (by rfl)
    case isFalse hn =>
      cases h
      exact .offered a id _ _ (by simpa using fun h => hn (.inr h))

theorem notified_change {text : String}
    (h : notified (Call.notified text).data a = .ok (row, reply)) :
    Change now fresh (some a) (.notified text) reply row := by
  simp only [notified, Call.data] at h
  split at h
  case h_1         => cases h
  case h_2 id ht   =>
    cases h
    split
    case isTrue hi  => exact .told a text id ht hi
    case isFalse hi => exact .missed a text (by simpa [ht] using Ne.symm hi)

theorem created_change {email codeHash : String}
    (h : submit now (Call.submit email codeHash).data none = .ok (row, reply)) :
    Change now fresh none (.submit email codeHash) reply row := by
  rw [submit] at h
  split at h <;> cases h
  exact .created email codeHash _

theorem flurboApplication_change {c : Call} {before : Option Row}
    (h : flurboApplication now c.data fresh before c.action = .ok (row, reply)) :
    Change now fresh before c reply row := by
  cases before
  case none   =>
    cases c
    case submit => exact created_change h
    all_goals
      cases h
      exact .absent _
  case some a =>
    cases c
    case submit       => exact submit_change h
    case verify       => exact verify_change h
    case withdraw     => exact withdraw_change h
    case decide       => exact decide_change h
    case notification => exact notification_change h
    case notified     => exact notified_change h

end Changes

section Histories

variable {e : Entry} {past : List Entry} {email codeHash : String} {day : ℕ}

theorem sendTimes_cons (h : e.sends) : sendTimes (e :: past) = e.at_ :: sendTimes past := by
  simp [sendTimes, h]

theorem sendTimes_cons_of_not (h : ¬ e.sends) : sendTimes (e :: past) = sendTimes past := by
  simp [sendTimes, h]

theorem sendsOn_cons (h : e.sends) :
    sendsOn day (e :: past) = sendsOn day past + if currentDate e.at_ = day then 1 else 0 := by
  rw [sendsOn, sendTimes_cons h, List.filter_cons]
  split <;> simp_all [sendsOn]

theorem sendsOn_cons_of_not (h : ¬ e.sends) : sendsOn day (e :: past) = sendsOn day past := by
  rw [sendsOn, sendTimes_cons_of_not h, sendsOn]

theorem guesses_cons (h : e.sends) : guesses (e :: past) = 0 := by
  simp [guesses, h]

theorem guesses_cons_of_compares (h : ¬ e.sends) (hc : e.compares) :
    guesses (e :: past) = guesses past + 1 := by
  simp [guesses, h, hc]

theorem guesses_cons_of_not (h : ¬ e.sends) (hc : ¬ e.compares) :
    guesses (e :: past) = guesses past := by
  simp [guesses, h, hc]

theorem sinceDecision_cons (h : e.decides) : sinceDecision (e :: past) = [] := by
  simp [sinceDecision, h]

theorem sinceDecision_cons_of_not (h : ¬ e.decides) :
    sinceDecision (e :: past) = e :: sinceDecision past := by
  simp [sinceDecision, h]

theorem Submitted.cons (h : Submitted past email codeHash) (he : ¬ e.sends) :
    Submitted (e :: past) email codeHash := by
  have ⟨newer, s, older, hp, hs, hsent, hn⟩ := h
  refine ⟨e :: newer, s, older, by rw [hp, List.cons_append], hs, hsent, fun d hd => ?_⟩
  cases hd
  case head    => exact he
  case tail hd => exact hn d hd

theorem Submitted.verified {view : View} (h : Submitted past email codeHash)
    (hv : e.call = .verify codeHash) (hr : e.reply = .application view) : Verified (e :: past) email :=
  ⟨[], e, past, codeHash, rfl, hv, ⟨view, hr⟩, h, by simp⟩

theorem Verified.cons (h : Verified past email) (he : ¬ e.sends) : Verified (e :: past) email := by
  have ⟨newer, v, older, codeHash, hp, hv, hr, hs, hn⟩ := h
  refine ⟨e :: newer, v, older, codeHash, by rw [hp, List.cons_append], hv, hr, hs, fun d hd => ?_⟩
  cases hd
  case head    => exact he
  case tail hd => exact hn d hd

end Histories

-- What the columns of the row say about the history: those that limit the mail, and the others.
structure Row.Mail (clock : ℕ) (past : List Entry) (a : Row) : Prop where
  sent    : ∃ rest, sendTimes past = a.sentAt :: rest
  reached : a.sentAt ≤ clock
  day     : a.sendDay = currentDate a.sentAt
  sends   : a.sends = sendsOn a.sendDay past

structure Row.Sound (clock : ℕ) (past : List Entry) (a : Row) : Prop where
  mail         : a.Mail clock past
  approved     : a.decision = some .approved ↔ a.state = .approved
  proven       : a.state = .approved → a.verifiedAt ≠ none
  verified     : a.verifiedAt ≠ none → ∃ email, a.email = some email ∧ Verified past email
  code         : ∀ h, a.codeHash = some h → ∃ email, a.email = some email ∧ Submitted past email h
  attempts     : a.attempts = guesses past
  limit        : a.attempts ≤ 5
  notification : a.notificationId ≠ none → a.decision = some .approved
  told         : a.notified = false → ∀ t ∈ sinceDecision past, ¬ t.tells

section Sound

variable {clock now : ℕ} {past : List Entry} {a b : Row} {e : Entry} {fresh : Uuid}
variable {email codeHash : String} {view : View} {c : Call} {reply : Reply} {row : Option Row}

theorem Row.Mail.keep (h : a.Mail clock past) (hc : clock ≤ now) (he : ¬ e.sends)
    (hs : b.sentAt = a.sentAt := by rfl) (hd : b.sendDay = a.sendDay := by rfl)
    (hn : b.sends = a.sends := by rfl) : b.Mail now (e :: past) where
  sent    := by rw [sendTimes_cons_of_not he, hs]; exact h.sent
  reached := by rw [hs]; exact h.reached.trans hc
  day     := by rw [hd, hs, h.day]
  sends   := by rw [hn, hd, sendsOn_cons_of_not he, h.sends]

theorem Row.Sound.uncounted (h : a.Sound clock past) (hs : ¬ e.sends) (hg : ¬ e.compares) :
    a.attempts = guesses (e :: past) := by
  rw [guesses_cons_of_not hs hg, h.attempts]

theorem Row.Sound.counted (h : a.Sound clock past) (hs : ¬ e.sends) (hg : e.compares) :
    a.attempts + 1 = guesses (e :: past) := by
  rw [guesses_cons_of_compares hs hg, h.attempts]

theorem decides_iff : e.decides ↔ decisionOf e.before ≠ decisionOf e.after := decide_eq_true_iff

theorem not_decides (h : decisionOf e.before = decisionOf e.after) : ¬ e.decides :=
  fun hd => decides_iff.mp hd h

theorem since_decided (hd : decisionOf e.before ≠ decisionOf e.after) :
    ∀ t ∈ sinceDecision (e :: past), ¬ t.tells := by
  simp [sinceDecision_cons (decides_iff.mpr hd)]

theorem Row.Sound.untold (h : a.Sound clock past) (hd : decisionOf e.before = decisionOf e.after)
    (ht : ¬ e.tells) (hn : a.notified = false) : ∀ t ∈ sinceDecision (e :: past), ¬ t.tells := by
  intro t hm
  rw [sinceDecision_cons_of_not (not_decides hd)] at hm
  cases hm
  case head    => exact ht
  case tail hm => exact h.told hn t hm

theorem Row.Sound.proof (h : a.Sound clock past) (hs : ¬ e.sends) (hv : a.verifiedAt ≠ none) :
    ∃ email, a.email = some email ∧ Verified (e :: past) email :=
  (h.verified hv).imp fun _ ⟨he, hp⟩ => ⟨he, hp.cons hs⟩

theorem Row.Sound.latest (h : a.Sound clock past) (hs : ¬ e.sends) (hc : a.codeHash = some codeHash) :
    ∃ email, a.email = some email ∧ Submitted (e :: past) email codeHash :=
  (h.code codeHash hc).imp fun _ ⟨he, hp⟩ => ⟨he, hp.cons hs⟩

-- An entry that the row does not speak of.
theorem Row.Sound.idle (h : a.Sound clock past) (hc : clock ≤ now) (hs : ¬ e.sends) (hg : ¬ e.compares)
    (hd : decisionOf e.before = decisionOf e.after) (ht : ¬ e.tells) : a.Sound now (e :: past) where
  mail         := h.mail.keep hc hs
  approved     := h.approved
  proven       := h.proven
  verified     := h.proof hs
  code _       := h.latest hs
  attempts     := h.uncounted hs hg
  limit        := h.limit
  notification := h.notification
  told         := h.untold hd ht

theorem Row.Sound.mismatched (h : a.Sound clock past) (hc : clock ≤ now) (hn : a.attempts < 5) :
    { a with attempts := a.attempts + 1 }.Sound now
      (⟨now, .verify codeHash, some a, mismatch, some { a with attempts := a.attempts + 1 }⟩ :: past) where
  mail         := h.mail.keep hc nofun
  approved     := h.approved
  proven       := h.proven
  verified     := h.proof nofun
  code _       := h.latest nofun
  attempts     := h.counted nofun (by simp [Entry.compares, mismatch])
  limit        := hn
  notification := h.notification
  told         := h.untold rfl nofun

theorem Row.Sound.verified_code (h : a.Sound clock past) (hc : clock ≤ now) (hs : a.state = .unverified)
    (hh : a.codeHash = some codeHash) (hn : a.attempts < 5) (revision : ℕ) :
    ({ a with attempts := a.attempts + 1 }.verified now revision).Sound now
      (⟨now, .verify codeHash, some a, .application view,
        some ({ a with attempts := a.attempts + 1 }.verified now revision)⟩ :: past) where
  mail         := h.mail.keep hc nofun
  approved     := by
    have hd := h.approved
    simp only [hs, reduceCtorEq, iff_false] at hd
    simpa [Row.verified] using hd
  proven       := nofun
  verified _   := by
    have ⟨email, he, hp⟩ := h.code codeHash hh
    exact ⟨email, he, hp.verified rfl rfl⟩
  code         := nofun
  attempts     := h.counted nofun rfl
  limit        := hn
  notification := h.notification
  told         := h.untold rfl nofun

theorem Row.Sound.withdrawal (h : a.Sound clock past) (hc : clock ≤ now) (hd : a.decision ≠ some .approved)
    (revision : ℕ) : (a.withdrawn revision).Sound now
      (⟨now, .withdraw, some a, .application view, some (a.withdrawn revision)⟩ :: past) where
  mail         := h.mail.keep hc nofun
  approved     := by simpa [Row.withdrawn] using hd
  proven       := nofun
  verified     := nofun
  code         := nofun
  attempts     := h.uncounted nofun nofun
  limit        := h.limit
  notification := nofun
  told         := h.untold rfl nofun

theorem Row.Sound.decision {d : Decision} {operator : String} (h : a.Sound clock past) (hc : clock ≤ now)
    (hd : a.decision ≠ some d) (hv : d = .approved → a.verifiedAt ≠ none) (revision : ℕ) :
    (a.decided now fresh d revision).Sound now
      (⟨now, .decide d.text operator a.revision, some a, .application view,
        some (a.decided now fresh d revision)⟩ :: past) where
  mail         := h.mail.keep hc nofun
  approved     := by cases d <;> simp [Row.decided, Decision.state]
  proven hs    := hv (by cases d <;> simp_all [Row.decided, Decision.state])
  verified     := h.proof nofun
  code         := nofun
  attempts     := h.uncounted nofun nofun
  limit        := h.limit
  notification := by cases d <;> simp [Row.decided]
  told _       := since_decided (by simpa [decisionOf, Row.decided] using hd)

theorem Row.Sound.tell {text : String} (h : a.Sound clock past) (hc : clock ≤ now) :
    { a with notified := true }.Sound now
      (⟨now, .notified text, some a, .nothing, some { a with notified := true }⟩ :: past) where
  mail         := h.mail.keep hc nofun
  approved     := h.approved
  proven       := h.proven
  verified     := h.proof nofun
  code _       := h.latest nofun
  attempts     := h.uncounted nofun nofun
  limit        := h.limit
  notification := h.notification
  told         := nofun

theorem le_sent {sent t : ℕ} {rest : List ℕ} (hs : sendTimes past = sent :: rest)
    (hp : (sendTimes past).Pairwise fun later earlier => earlier + minute ≤ later)
    (ht : t ∈ sendTimes past) : t ≤ sent := by
  rw [hs] at ht hp
  cases ht
  case head    => exact le_refl _
  case tail ht => exact (Nat.le_add_right _ _).trans (List.rel_of_pairwise_cons hp ht)

theorem sendsOn_eq_zero {day sent : ℕ} {rest : List ℕ} (hs : sendTimes past = sent :: rest)
    (hp : (sendTimes past).Pairwise fun later earlier => earlier + minute ≤ later)
    (hd : currentDate sent < day) : sendsOn day past = 0 := by
  rw [sendsOn, List.length_eq_zero_iff, List.filter_eq_nil_iff]
  intro t ht
  have hday : currentDate t ≤ currentDate sent := Nat.div_le_div_right (le_sent hs hp ht)
  simpa using (hday.trans_lt hd).ne

theorem sendTimes_eq_nil (hp : ∀ e ∈ past, ¬ e.sends ∧ ¬ e.compares ∧ ¬ e.tells) :
    sendTimes past = [] := by
  rw [sendTimes, List.map_eq_nil_iff, List.filter_eq_nil_iff]
  exact fun e he => (hp e he).left

-- What was sent on the day of a submission.
theorem Row.Mail.today (h : a.Mail clock past) (hc : clock ≤ now)
    (hp : (sendTimes past).Pairwise fun later earlier => earlier + minute ≤ later) :
    sendsOn (currentDate now) past = if a.sendDay = currentDate now then a.sends else 0 := by
  split
  case isTrue hd  => rw [h.sends, hd]
  case isFalse hd =>
    have ⟨rest, hs⟩ := h.sent
    refine sendsOn_eq_zero hs hp (lt_of_le_of_ne ?_ (h.day ▸ hd))
    exact Nat.div_le_div_right (h.reached.trans hc)

theorem Row.Sound.resubmission (h : a.Sound clock past) (hc : clock ≤ now)
    (hp : (sendTimes past).Pairwise fun later earlier => earlier + minute ≤ later)
    (hs : a.state ∉ [.approved, .declined, .revoked]) (revision : ℕ) :
    (a.resubmitted now (Call.submit email codeHash).data revision).Sound now
      (⟨now, .submit email codeHash, some a, .submitted view true,
        some (a.resubmitted now (Call.submit email codeHash).data revision)⟩ :: past) where
  mail         := {
    sent    := ⟨_, sendTimes_cons rfl⟩
    reached := le_refl now
    day     := rfl
    sends   := by
      refine Eq.symm ((sendsOn_cons rfl).trans ?_)
      simp only [Row.resubmitted, if_true, h.mail.today hc hp]
      split <;> rfl }
  approved     := by
    have hd : a.decision ≠ some .approved := fun hd => hs (by simp [h.approved.mp hd])
    simpa [Row.resubmitted] using hd
  proven       := nofun
  verified     := nofun
  code hash hh := by
    cases hh
    exact ⟨email, rfl, [], _, past, rfl, rfl, rfl, by simp⟩
  attempts     := (guesses_cons rfl).symm
  limit        := Nat.zero_le 5
  notification := h.notification
  told         := h.untold rfl nofun

theorem Row.Sound.submission (hp : ∀ e ∈ past, ¬ e.sends ∧ ¬ e.compares ∧ ¬ e.tells) :
    ((Call.submit email codeHash).data.row now).Sound now
      (⟨now, .submit email codeHash, none, .submitted view true,
        some ((Call.submit email codeHash).data.row now)⟩ :: past) where
  mail         := {
    sent    := ⟨_, sendTimes_cons rfl⟩
    reached := le_refl now
    day     := rfl
    sends   := by
      refine Eq.symm ((sendsOn_cons rfl).trans ?_)
      simp [Data.row, sendsOn, sendTimes_eq_nil hp] }
  approved     := by simp [Data.row]
  proven       := nofun
  verified     := nofun
  code hash hh := by
    cases hh
    exact ⟨email, rfl, [], _, past, rfl, rfl, rfl, by simp⟩
  attempts     := (guesses_cons rfl).symm
  limit        := Nat.zero_le 5
  notification := nofun
  told _ t hm  := by
    rw [sinceDecision_cons_of_not (not_decides rfl)] at hm
    cases hm
    case head    => nofun
    case tail hm => exact (hp t ((List.takeWhile_sublist _).subset hm)).right.right

theorem quiet_entry (h : quiet e.call e.reply) : ¬ e.sends ∧ ¬ e.compares ∧ ¬ e.tells := by
  obtain ⟨_, c, _, reply, _⟩ := e
  cases c <;> cases reply <;> simp_all [quiet, Entry.sends, Entry.compares, Entry.tells]
  all_goals simp [mismatch]

theorem Row.Sound.change (h : a.Sound clock past) (hc : clock ≤ now)
    (hp : (sendTimes past).Pairwise fun later earlier => earlier + minute ≤ later)
    (hch : Change now fresh (some a) c reply row) :
    ∃ b, row = some b ∧ b.Sound now (⟨now, c, some a, reply, row⟩ :: past) := by
  cases hch
  case refused hq                          =>
    have ⟨hs, hg, ht⟩ := @quiet_entry ⟨now, c, some a, reply, some a⟩ hq
    exact ⟨a, rfl, h.idle hc hs hg rfl ht⟩
  case resubmitted revision hs ht hd       => exact ⟨_, rfl, h.resubmission hc hp hs revision⟩
  case mismatched hn                       => exact ⟨_, rfl, h.mismatched hc hn⟩
  case verified revision hs hh hn          => exact ⟨_, rfl, h.verified_code hc hs hh hn revision⟩
  case withdrawn revision hd               => exact ⟨_, rfl, h.withdrawal hc hd revision⟩
  case kept                                => exact ⟨a, rfl, h.idle hc nofun nofun rfl nofun⟩
  case decided revision hd hv              => exact ⟨_, rfl, h.decision hc hd hv revision⟩
  case offered                             => exact ⟨a, rfl, h.idle hc nofun nofun rfl nofun⟩
  case told                                => exact ⟨_, rfl, h.tell hc⟩
  case missed text ht                      =>
    exact ⟨a, rfl, h.idle hc nofun nofun rfl (by simpa [Entry.tells] using fun _ => ht)⟩

end Sound

section Runs

structure Invariant (w : World) : Prop extends Consistent w where
  row    : ∀ a, w.row = some a → a.Sound w.clock w.past
  absent : w.row = none → ∀ e ∈ w.past, ¬ e.sends ∧ ¬ e.compares ∧ ¬ e.tells

variable {w w' : World} {e : Event} {now : ℕ} {fresh : Uuid} {c : Call} {reply : Reply}
variable {before row : Option Row} {past : List Entry} {clock : ℕ}

-- The row before a transaction, and the history after it.
theorem Change.sound (h : Change now fresh before c reply row) (hc : clock ≤ now)
    (hp : (sendTimes past).Pairwise fun later earlier => earlier + minute ≤ later)
    (hr : ∀ a, before = some a → a.Sound clock past)
    (hn : before = none → ∀ e ∈ past, ¬ e.sends ∧ ¬ e.compares ∧ ¬ e.tells) :
    ∀ b, row = some b → b.Sound now (⟨now, c, before, reply, row⟩ :: past) := by
  rintro b rfl
  cases before
  case none   =>
    cases h
    exact .submission (hn rfl)
  case some a =>
    have ⟨_, hb, hs⟩ := (hr a rfl).change hc hp h
    cases hb
    exact hs

theorem Change.absence (h : Change now fresh before c reply none)
    (hn : before = none → ∀ e ∈ past, ¬ e.sends ∧ ¬ e.compares ∧ ¬ e.tells) :
    ∀ e ∈ (⟨now, c, before, reply, none⟩ :: past : List Entry), ¬ e.sends ∧ ¬ e.compares ∧ ¬ e.tells := by
  cases h
  intro e he
  cases he
  case head    => cases c <;> simp [Entry.sends, Entry.compares, Entry.tells, mismatch]
  case tail he => exact hn rfl e he

theorem Change.decision (h : Change now fresh before c reply row)
    (hd : decisionOf before ≠ decisionOf row) : c.action = .decide := by
  cases h
  case decided => rfl
  all_goals exact absurd rfl hd

theorem Change.agrees (h : Change now fresh before c reply row) (hr : ∀ a ∈ before, ¬ Repeats a c) :
    Entry.Agrees ⟨now, c, before, reply, row⟩ := by
  rintro d operator revision view ⟨⟩ ⟨⟩
  cases h
  case refused hq            => cases hq
  case kept a x hd ho        =>
    have hs : a.state = x.state := by simpa [Repeats, hd, ho, eq_comm] using hr a rfl
    exact ⟨x, a, Decision.ofText_eq_some.mpr rfl, rfl, hd, hs, hs⟩
  case decided a x m hd hv   =>
    exact ⟨x, _, Decision.ofText_eq_some.mpr rfl, rfl, rfl, rfl, rfl⟩

theorem Change.stays (h : Change now fresh before c reply row)
    (hs : ∀ a, before = some a → (a.decision = some .approved ↔ a.state = .approved)) (ha : Approved before) :
    Approved row ∨ c.action = .decide := by
  obtain ⟨a, rfl, ha⟩ := ha
  cases h
  case refused | offered | missed | kept => exact .inl ⟨a, rfl, ha⟩
  case resubmitted hn _ _                => exact absurd (by simp [ha]) hn
  case mismatched | told                 => exact .inl ⟨_, rfl, ha⟩
  case verified hu _ _                   => cases ha.symm.trans hu
  case withdrawn hd                      => exact absurd ((hs a rfl).mpr ha) hd
  case decided                           => exact .inr rfl

-- When a code may be sent.
theorem Change.sends (h : Change now fresh before c reply row)
    (hs : Entry.sends ⟨now, c, before, reply, row⟩) :
    ∀ a, before = some a → a.sentAt + minute ≤ now ∧ (a.sendDay = currentDate now → a.sends < 5) := by
  rintro a rfl
  cases h
  case refused hq              => exact absurd hs (@quiet_entry ⟨now, c, some a, reply, some a⟩ hq).left
  case resubmitted hs ht hd    => exact ⟨ht, hd⟩
  all_goals cases hs

theorem Invariant.apart_cons (hi : Invariant w)
    (h : Change now fresh w.row c reply row) :
    (sendTimes (⟨now, c, w.row, reply, row⟩ :: w.past)).Pairwise
      fun later earlier => earlier + minute ≤ later := by
  by_cases hs : Entry.sends ⟨now, c, w.row, reply, row⟩
  case neg =>
    rw [sendTimes_cons_of_not hs]
    exact hi.apart
  case pos =>
    rw [sendTimes_cons hs, List.pairwise_cons]
    refine ⟨fun t ht => ?_, hi.apart⟩
    cases hr : w.row
    case none   => simp [sendTimes_eq_nil (hi.absent hr)] at ht
    case some a =>
      have ⟨rest, hsent⟩ := (hi.row a hr).mail.sent
      have hle := le_sent hsent hi.apart ht
      have := (h.sends hs a hr).left
      show t + minute ≤ now
      omega

theorem Invariant.daily_cons (hi : Invariant w) (hc : w.clock ≤ now)
    (h : Change now fresh w.row c reply row) (day : ℕ) :
    sendsOn day (⟨now, c, w.row, reply, row⟩ :: w.past) ≤ 5 := by
  by_cases hs : Entry.sends ⟨now, c, w.row, reply, row⟩
  case neg =>
    rw [sendsOn_cons_of_not hs]
    exact hi.daily day
  case pos =>
    rw [sendsOn_cons hs]
    split
    case isFalse   => exact hi.daily day
    case isTrue hd =>
      subst hd
      cases hr : w.row
      case none   => simp [sendsOn, sendTimes_eq_nil (hi.absent hr)]
      case some a =>
        have hlt := (h.sends hs a hr).right
        simp only [(hi.row a hr).mail.today hc hi.apart]
        split
        case isTrue hd => exact hlt hd
        case isFalse   => decide

theorem Invariant.offered_cons (hi : Invariant w) (h : Change now fresh w.row c reply row)
    {newer older : List Entry} {d : Entry} (hd : d.offers)
    (hp : ⟨now, c, w.row, reply, row⟩ :: w.past = newer ++ d :: older) :
    ∀ t ∈ sinceDecision older, ¬ t.tells := by
  cases newer
  case cons => exact hi.offered _ d older (List.cons.inj hp).right hd
  case nil  =>
    obtain ⟨rfl, rfl⟩ := List.cons.inj hp
    cases hr : w.row
    case none   =>
      rw [hr] at h
      cases h <;> cases hd
    case some a =>
      rw [hr] at h
      cases h
      case refused hq => cases c <;> cases reply <;> simp_all [quiet, Entry.offers]
      case offered hn => exact (hi.row a hr).told hn
      all_goals cases hd

theorem Invariant.guesses_cons (hi : Invariant w) {d : Entry}
    (hr : ∀ b, row = some b → b.Sound now (d :: w.past))
    (hn : row = none → ∀ t ∈ d :: w.past, ¬ t.sends ∧ ¬ t.compares ∧ ¬ t.tells) :
    ∀ past, past <:+ d :: w.past → guesses past ≤ 5 := by
  intro past hp
  rcases List.suffix_cons_iff.mp hp with rfl | hp
  · cases row
    case some b => exact (hr b rfl).attempts ▸ (hr b rfl).limit
    case none   =>
      have hg : (d :: w.past).filter (·.compares) = [] :=
        List.filter_eq_nil_iff.mpr fun t ht => (hn rfl t ht).right.left
      have hle := ((List.takeWhile_sublist (l := d :: w.past) (!·.sends)).filter (·.compares)).length_le
      rw [hg] at hle
      exact hle.trans (Nat.zero_le 5)
  · exact hi.guesses past hp

theorem Invariant.step (hi : Invariant w) (hp : Proper w e) (h : step w e = .ok w') : Invariant w' := by
  have ⟨⟨row, reply⟩, hf, h⟩ := bind_eq_ok.mp h
  cases h
  have hch := flurboApplication_change hf
  have hc := Nat.le_add_right w.clock e.elapsed
  have hrow := hch.sound hc hi.apart hi.row hi.absent
  have hnone : row = none → ∀ t ∈ (⟨w.clock + e.elapsed, e.call, w.row, reply, row⟩ :: w.past : List Entry),
      ¬ t.sends ∧ ¬ t.compares ∧ ¬ t.tells := by
    rintro rfl
    exact hch.absence hi.absent
  exact {
    decision                  := List.forall_mem_cons.mpr ⟨fun hd => hch.decision (decides_iff.mp hd), hi.decision⟩
    decided                   := List.forall_mem_cons.mpr ⟨hch.agrees hp, hi.decided⟩
    approved a ha hs          := (hrow a ha).verified ((hrow a ha).proven hs)
    stays                     := List.forall_mem_cons.mpr ⟨hch.stays fun a ha => (hi.row a ha).approved, hi.stays⟩
    guesses                   := hi.guesses_cons hrow hnone
    daily                     := hi.daily_cons hc hch
    apart                     := hi.apart_cons hch
    notification a ha         := (hrow a ha).notification
    offered newer d older h hd := hi.offered_cons hch hd h
    row                       := hrow
    absent                    := hnone }

theorem initial_invariant (clock : ℕ) : Invariant (.initial clock) where
  decision              := by simp [World.initial]
  decided               := by simp [World.initial]
  approved              := by simp [World.initial]
  stays                 := by simp [World.initial]
  guesses past hp       := by simp [List.suffix_nil.mp hp, guesses]
  daily _               := Nat.zero_le 5
  apart                 := .nil
  notification          := by simp [World.initial]
  offered newer d older := by simp [World.initial]
  row                   := by simp [World.initial]
  absent                := by simp [World.initial]

theorem consistent (clock : ℕ) (es : List Event) (hp : Run.Along step Proper (.initial clock) es) :
    Consistent (Run.run step (.initial clock) es) :=
  (Run.run_invariant_along hp (initial_invariant clock) fun _ _ _ hp hi h => hi.step hp h).toConsistent

end Runs

section Samples

def sampleDigest : String := "aaaaaaaaaaaaaaaaaaaaaaaaaaaaaaaaaaaaaaaaaaaaaaaaaaaaaaaaaaaaaaaa"

def sampleOperator : String := "0xaaaaaaaaaaaaaaaaaaaaaaaaaaaaaaaaaaaaaaaa"

-- An application is declined, withdrawn, made once more and approved.
def sampleHistory : List Event :=
  [⟨0, .submit "a@b.cd" sampleDigest, 0⟩, ⟨1, .verify sampleDigest, 0⟩,
    ⟨1, .decide "declined" sampleOperator 1, 0⟩, ⟨1, .withdraw, 0⟩,
    ⟨minute, .submit "a@b.cd" sampleDigest, 0⟩, ⟨1, .verify sampleDigest, 0⟩,
    ⟨1, .decide "approved" sampleOperator 5, 7⟩, ⟨1, .notification, 0⟩,
    ⟨1, .notified "00000000-0000-0000-0000-000000000007", 0⟩, ⟨1, .notification, 0⟩]

theorem consistent_sample : Consistent (Run.run step (.initial 0) sampleHistory) ∧
    ((Run.run step (.initial 0) sampleHistory).past.map (·.reply)).take 3 =
      [.nothing, .nothing, .notification 7 (some "a@b.cd") false] :=
  ⟨consistent 0 sampleHistory (by decide +kernel), by decide +kernel⟩

-- A new submission cannot be declined, although the operator is told that it was.
def reapplied : List Event := sampleHistory.take 6 ++ [⟨1, .decide "declined" sampleOperator 5, 0⟩]

theorem inconsistent : ¬ Consistent (Run.run step (.initial 0) reapplied) := by
  intro h
  have ⟨e, he, hc, hr⟩ : ∃ e ∈ (Run.run step (.initial 0) reapplied).past,
      e.call = .decide "declined" sampleOperator 5 ∧
        e.reply = .application ⟨some "a@b.cd", .pending, true, 0, 5, .none⟩ := by decide +kernel
  have ⟨x, _, hx, _, _, _, hv⟩ := h.decided e he _ _ _ _ hc hr
  replace hx := Decision.ofText_eq_some.mp hx
  cases x
  case declined => cases hv
  all_goals exact absurd hx (by decide)

end Samples

end Applications
