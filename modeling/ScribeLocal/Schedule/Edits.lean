import ScribeLocal.Schedule.Policy
import ScribeLocal.Transition

/-!
# Edits of the stored schedule

The windows and the override live in one document. An edit of either reads the whole
document, changes its part, and writes the whole document back.
-/
namespace ScribeLocal.Schedule
open Transition

/-- The row of `app_settings`; `unreadable` is what an operator may have left there. -/
inductive Doc where
  | absent
  | unreadable
  | schedule (s : ProcessingSchedule)
  deriving DecidableEq

/-- `processing_schedule` -/
def Doc.load (now : Time) : Doc → ProcessingSchedule
  | .schedule s => s.normalize now
  | .absent | .unreadable => ProcessingSchedule.default.normalize now

structure SetScheduleRequest where
  enabled : Bool
  days : List DayWindow
  graceMinutes : ℕ
  deriving DecidableEq

inductive OverrideAction where
  | run
  | pause
  | clear
  deriving DecidableEq

structure OverrideRequest where
  mode : OverrideAction
  minutes : Option ℤ
  deriving DecidableEq

/-- `validate_days`: the text of the 400. -/
def validateDays (days : List DayWindow) : Option String :=
  if days.length ≠ 7 then
    some ("days must have exactly 7 entries (Monday first), got " ++ toString days.length)
  else (days.findIdx? fun w => minutesPerDay < w.start || minutesPerDay < w.stop).map fun i =>
    "day " ++ toString i ++ ": start and end must be between 0 and " ++ toString minutesPerDay ++
      " minutes"

def SetScheduleRequest.validate (req : SetScheduleRequest) : Option String :=
  (validateDays req.days).or <|
    if 24 * 60 < req.graceMinutes then some "grace_minutes must be 1440 or less" else none

/-- The override a request sets, or the text of the 400. -/
def OverrideRequest.build (now : Time) (req : OverrideRequest) :
    Except String (Option ScheduleOverride) :=
  let minutes := req.minutes.getD 60
  let set (mode : OverrideMode) : Except String (Option ScheduleOverride) :=
    if minutes < 1 ∨ maxOverrideMinutes < minutes then
      .error ("minutes must be between 1 and " ++ toString maxOverrideMinutes)
    else .ok (some ⟨mode, now + minutes.toNat * minute⟩)
  match req.mode with
  | .clear => .ok none
  | .run => set .run
  | .pause => set .pause

inductive Edit where
  | windows (req : SetScheduleRequest)
  | override (req : OverrideRequest)
  deriving DecidableEq

/-- The document an edit writes, from the one it read. -/
def Edit.build (now : Time) (existing : ProcessingSchedule) :
    Edit → Except String ProcessingSchedule
  | .windows req => .ok ⟨req.enabled, req.days, req.graceMinutes, existing.activeOverride⟩
  | .override req => (req.build now).map fun o => { existing with activeOverride := o }

/-- Where a request stands. -/
inductive Handler where
  | idle
  | read (e : Edit)
  | build (e : Edit) (existing : ProcessingSchedule)
  | write (e : Edit) (s : ProcessingSchedule)
  | saved (s : ProcessingSchedule)
  | rejected (error : String)
  /-- The server stopped, or a statement failed. -/
  | gone
  deriving DecidableEq

/-- The request is over. -/
def Handler.isOver : Handler → Bool
  | .idle | .saved _ | .rejected _ | .gone => true
  | _ => false

structure Desk where
  now : Time
  doc : Doc
  handlers : ℕ → Handler

def Desk.start (now : Time) (doc : Doc) : Desk := ⟨now, doc, fun _ => .idle⟩

def Desk.set (s : Desk) (i : ℕ) (h : Handler) : Desk :=
  { s with handlers := Function.update s.handlers i h }

inductive DeskLabel where
  | tick (d : Time)
  | request (i : ℕ) (e : Edit)
  | step (i : ℕ)
  | stop (i : ℕ)

def Desk.step (s : Desk) : DeskLabel → Option Desk
  | .tick d => some { s with now := s.now + d }
  | .request i e => if s.handlers i = .idle then some (s.set i (.read e)) else none
  | .stop i => some (s.set i .gone)
  | .step i =>
    match s.handlers i with
    | .read (.windows req) =>
      some (s.set i ((req.validate.map Handler.rejected).getD
        (.build (.windows req) (s.doc.load s.now))))
    | .read (.override req) => some (s.set i (.build (.override req) (s.doc.load s.now)))
    | .build e existing =>
      match e.build s.now existing with
      | .error error => some (s.set i (.rejected error))
      | .ok sched => some (s.set i (.write e sched))
    | .write _ sched =>
      let saved := sched.normalize s.now
      some ({ s with doc := .schedule saved }.set i (.saved saved))
    | _ => none

/-! ## Two registers -/

/-- What the user wants stored: the windows of the last request that wrote them, and the
override of the last request that wrote one. -/
structure Wanted where
  enabled : Bool
  days : List DayWindow
  graceMinutes : ℕ
  activeOverride : Option ScheduleOverride

def Wanted.of (s : ProcessingSchedule) : Wanted :=
  ⟨s.enabled, s.days, s.graceMinutes, s.activeOverride⟩

def Wanted.note (s : Desk) (a : DeskLabel) (w : Wanted) : Wanted :=
  match a with
  | .step i =>
    match s.handlers i with
    | .write (.windows req) _ =>
      { w with enabled := req.enabled, days := req.days, graceMinutes := req.graceMinutes }
    | .write (.override _) sched => { w with activeOverride := sched.activeOverride }
    | _ => w
  | _ => w

/-- The stored schedule says what is wanted, but for an override that has lapsed. -/
def Kept (p : Desk × Wanted) : Prop :=
  let stored := p.1.doc.load p.1.now
  (stored.enabled = p.2.enabled ∧ stored.days = p.2.days ∧
      stored.graceMinutes = p.2.graceMinutes) ∧
    stored.activeOverride = live p.1.now p.2.activeOverride

/-- A request that writes carries over what is stored: the part it did not come to change has
not changed since it was read. -/
def UpToDate (p : Desk × Wanted) : DeskLabel → Prop
  | .step i =>
    let stored := p.1.doc.load p.1.now
    match p.1.handlers i with
    | .write (.windows _) sched =>
      live p.1.now sched.activeOverride = stored.activeOverride
    | .write (.override _) sched =>
      sched.enabled = stored.enabled ∧ sched.days = stored.days ∧
        sched.graceMinutes = stored.graceMinutes
    | _ => True
  | _ => True

/-! ## What a handler carries -/

variable {s s' : Desk} {a : DeskLabel} {p p' : Desk × Wanted} {req : SetScheduleRequest}
  {sched : ProcessingSchedule} {now now' : Time} {doc : Doc}

def SetScheduleRequest.schedule (req : SetScheduleRequest) (o : Option ScheduleOverride) :
    ProcessingSchedule :=
  ⟨req.enabled, req.days, req.graceMinutes, o⟩

/-- The windows of an accepted request are stored as they are. -/
theorem normal_of_validate (h : req.validate = none) (o : Option ScheduleOverride) :
    (req.schedule o).Normal := by
  rcases Option.or_eq_none_iff.mp h with ⟨hdays, hgrace⟩
  by_cases hlength : req.days.length = 7
  · refine ⟨hlength, ?_, ?_⟩
    · intro w hw
      have hedges : ∀ w ∈ req.days, w.start ≤ minutesPerDay ∧ w.stop ≤ minutesPerDay := by
        simpa [validateDays, hlength] using hdays
      exact hedges w hw
    · by_contra hlong
      have hlong : 24 * 60 < req.graceMinutes := Nat.lt_of_not_le hlong
      rw [if_pos hlong] at hgrace
      cases hgrace
  · rw [validateDays, if_pos hlength] at hdays
    cases hdays

theorem normal_load (now : Time) (doc : Doc) : (doc.load now).Normal := by
  cases doc with
  | schedule sched => exact normal_normalize now sched
  | absent | unreadable => exact normal_normalize now _

theorem normal_override (h : sched.Normal) (o : Option ScheduleOverride) :
    { sched with activeOverride := o }.Normal :=
  ⟨h.length, h.edges, h.grace⟩

/-- What has been read or is about to be written is in order. -/
def Handler.Sound : Handler → Prop
  | .build (.windows req) _ => req.validate = none
  | .build (.override _) existing => existing.Normal
  | .write (.windows req) sched => ∃ o, sched = req.schedule o ∧ sched.Normal
  | .write (.override _) sched => sched.Normal
  | _ => True

theorem sound_build {e : Edit} {existing : ProcessingSchedule}
    (h : (Handler.build e existing).Sound) (hbuild : e.build now existing = .ok sched) :
    (Handler.write e sched).Sound := by
  cases e with
  | windows req =>
    cases hbuild
    exact ⟨existing.activeOverride, rfl, normal_of_validate h _⟩
  | override req =>
    simp only [Edit.build, Except.map] at hbuild
    split at hbuild
    · cases hbuild
    · cases hbuild
      exact normal_override h _

/-- What a step can do: time passes, a request moves without writing, or one writes. -/
inductive DeskMoved (s : Desk) : DeskLabel → Desk → Prop
  | tick (d : Time) : DeskMoved s (.tick d) { s with now := s.now + d }
  | turn {a : DeskLabel} (i : ℕ) (h : Handler)
      (hquiet : ∀ j e sched, a = .step j → s.handlers j ≠ .write e sched)
      (hsound : (s.handlers i).Sound → h.Sound) : DeskMoved s a (s.set i h)
  | write (i : ℕ) (e : Edit) (sched : ProcessingSchedule) (hwrite : s.handlers i = .write e sched) :
      DeskMoved s (.step i) ({ s with doc := .schedule (sched.normalize s.now) }.set i
        (.saved (sched.normalize s.now)))

theorem moved_of_step (h : s.step a = some s') : DeskMoved s a s' := by
  cases a with
  | tick d =>
    cases h
    exact .tick d
  | request i e =>
    rw [Desk.step, Option.ite_none_right_eq_some] at h
    cases h.2
    exact .turn i _ (fun _ _ _ => nofun) fun _ => trivial
  | stop i =>
    cases h
    exact .turn i _ (fun _ _ _ => nofun) fun _ => trivial
  | step i =>
    simp only [Desk.step] at h
    have hquiet (hi : ∀ e sched, s.handlers i ≠ .write e sched) (j : ℕ) (e : Edit)
        (sched : ProcessingSchedule) (ha : DeskLabel.step i = .step j) :
        s.handlers j ≠ .write e sched := by
      cases ha
      exact hi e sched
    cases hi : s.handlers i with
    | read e =>
      simp only [hi] at h
      cases e with
      | windows req =>
        cases h
        apply DeskMoved.turn i _ (hquiet fun _ _ => by simp [hi])
        intro _
        cases hvalidate : req.validate with
        | none => exact hvalidate
        | some error => trivial
      | override req =>
        cases h
        exact .turn i _ (hquiet fun _ _ => by simp [hi]) fun _ => normal_load s.now s.doc
    | build e existing =>
      simp only [hi] at h
      cases hbuild : e.build s.now existing with
      | error error =>
        simp only [hbuild] at h
        cases h
        exact .turn i _ (hquiet fun _ _ => by simp [hi]) fun _ => trivial
      | ok sched =>
        simp only [hbuild] at h
        cases h
        exact .turn i _ (hquiet fun _ _ => by simp [hi]) fun hs => sound_build (hi ▸ hs) hbuild
    | write e sched =>
      simp only [hi] at h
      cases h
      exact .write i e sched hi
    | idle | saved | rejected | gone => simp [hi] at h

/-- Every handler carries what is in order. -/
theorem sound_step (h : ∀ i, (s.handlers i).Sound) (hstep : s.step a = some s') (i : ℕ) :
    (s'.handlers i).Sound := by
  cases moved_of_step hstep with
  | tick d => exact h i
  | turn j v _ hsound =>
    by_cases hi : i = j
    · subst hi
      simpa [Desk.set] using hsound (h i)
    · simpa [Desk.set, hi] using h i
  | write j e sched _ =>
    by_cases hi : i = j
    · subst hi
      simp [Desk.set, Handler.Sound]
    · simpa [Desk.set, hi] using h i

/-! ## Nothing is lost -/

/-- Time takes nothing from the stored schedule but an override that lapses. -/
theorem load_later (h : now ≤ now') :
    doc.load now' = { doc.load now with activeOverride := live now' (doc.load now).activeOverride } := by
  cases doc with
  | schedule sched => simp [Doc.load, ProcessingSchedule.normalize, live_live h]
  | absent | unreadable => simp [Doc.load, ProcessingSchedule.normalize, live_live h]

/-- What is written is read back. -/
theorem load_normalize (h : sched.Normal) :
    (Doc.schedule (sched.normalize now)).load now =
      { sched with activeOverride := live now sched.activeOverride } := by
  rw [Doc.load, normalize_of_normal (normal_normalize now sched), normalize_of_normal h]
  simp [live_live le_rfl]

theorem kept_start (now : Time) (doc : Doc) :
    Kept (Desk.start now doc, Wanted.of (doc.load now)) := by
  refine ⟨⟨rfl, rfl, rfl⟩, ?_⟩
  show (doc.load now).activeOverride = live now (doc.load now).activeOverride
  conv_lhs => rw [load_later le_rfl]

/-- A step that leaves the document alone loses nothing. -/
theorem kept_of_doc (h : Kept p) (hnow : p.1.now ≤ p'.1.now) (hdoc : p'.1.doc = p.1.doc)
    (hwanted : p'.2 = p.2) : Kept p' := by
  simp only [Kept, hdoc, hwanted, load_later hnow]
  refine ⟨h.1, ?_⟩
  rw [h.2, live_live hnow]

/-- A write loses nothing exactly when what it carries over is still what is stored. -/
theorem kept_step (hsound : ∀ i, (p.1.handlers i).Sound) (hkept : Kept p)
    (hstep : withNotes Desk.step Wanted.note p a = some p') : Kept p' ↔ UpToDate p a := by
  rcases p with ⟨s, w⟩
  rcases p' with ⟨s', w'⟩
  rcases withNotes_eq_some.mp hstep with ⟨hs, hw⟩
  simp only at hs hw
  cases moved_of_step hs with
  | tick d => exact iff_of_true (kept_of_doc hkept (Nat.le_add_right _ _) rfl hw) trivial
  | turn i v hquiet _ =>
    have hnote : Wanted.note s a w = w ∧ UpToDate (s, w) a := by
      cases a with
      | step j =>
        cases hj : s.handlers j with
        | write e sched => exact absurd hj (hquiet j e sched rfl)
        | _ => simp [Wanted.note, UpToDate, hj]
      | _ => exact ⟨rfl, trivial⟩
    exact iff_of_true (kept_of_doc hkept le_rfl rfl (hw.trans hnote.1)) hnote.2
  | write i e sched hwrite =>
    have hi := hsound i
    simp only [hwrite] at hi
    cases e with
    | windows req =>
      rcases hi with ⟨o, rfl, hnormal⟩
      have hw : w' = ⟨req.enabled, req.days, req.graceMinutes, w.activeOverride⟩ := by
        simpa only [Wanted.note, hwrite] using hw
      have hover := hkept.2
      simp only at hover
      simp only [Kept, UpToDate, hwrite, hw, Desk.set, load_normalize hnormal, hover]
      simp [SetScheduleRequest.schedule]
    | override req =>
      have hw : w' = { w with activeOverride := sched.activeOverride } := by
        simpa only [Wanted.note, hwrite] using hw
      rcases hkept.1 with ⟨henabled, hdays, hgrace⟩
      simp only at henabled hdays hgrace
      simp only [Kept, UpToDate, hwrite, hw, Desk.set, load_normalize hi, henabled, hdays, hgrace]
      simp

/-- The windows are saved, then the queue is paused for an hour. -/
def oneAfterTheOther : List DeskLabel :=
  [.request 0 (.windows ⟨true, ProcessingSchedule.default.days, 10⟩), .step 0, .step 0, .step 0,
    .request 1 (.override ⟨.pause, some 60⟩), .step 1, .step 1, .step 1]

/-- The queue is paused between the two halves of saving the windows. -/
def acrossThePause : List DeskLabel :=
  [.request 0 (.windows ⟨true, ProcessingSchedule.default.days, 10⟩), .step 0,
    .request 1 (.override ⟨.pause, some 60⟩), .step 1, .step 1, .step 1, .step 0, .step 0]

/-- Along a run the stored schedule is what was asked for exactly when each request that writes
carries over what is stored. -/
theorem kept_iff_upToDate {tr : List DeskLabel}
    (h : Run (withNotes Desk.step Wanted.note) anyStep
      (Desk.start now doc, Wanted.of (doc.load now)) tr p) :
    (∀ tr₁ p₁, tr₁ <+: tr → Run (withNotes Desk.step Wanted.note) anyStep
        (Desk.start now doc, Wanted.of (doc.load now)) tr₁ p₁ → Kept p₁) ↔
      Run (withNotes Desk.step Wanted.note) UpToDate
        (Desk.start now doc, Wanted.of (doc.load now)) tr p := by
  apply h.always_iff (I := fun p => ∀ i, (p.1.handlers i).Sound)
  · exact fun _ => trivial
  · exact kept_start now doc
  · exact fun p a p' hi hs => sound_step hi (withNotes_eq_some.mp hs).1
  · exact fun p a p' hi hk hs => kept_step hi hk hs

/-- Two requests one after the other. -/
theorem kept_iff_upToDate_two : ∃ p,
    ((∀ tr₁ p₁, tr₁ <+: oneAfterTheOther → Run (withNotes Desk.step Wanted.note) anyStep
        (Desk.start 0 .absent, Wanted.of (Doc.absent.load 0)) tr₁ p₁ → Kept p₁) ↔
      Run (withNotes Desk.step Wanted.note) UpToDate
        (Desk.start 0 .absent, Wanted.of (Doc.absent.load 0)) oneAfterTheOther p) :=
  ⟨_, kept_iff_upToDate (run_of_isSome (by decide))⟩

/-- A request to save the windows reads before a pause is stored and writes after it. -/
theorem pause_lost : ∃ p,
    Run (withNotes Desk.step Wanted.note) anyStep
        (Desk.start 0 .absent, Wanted.of (Doc.absent.load 0)) acrossThePause p ∧
      (∀ i, (p.1.handlers i).isOver = true) ∧ ¬Kept p := by
  refine ⟨_, run_of_isSome (by decide), ?_, ?_⟩
  · intro i
    rcases i with _ | _ | i <;> rfl
  · intro h
    exact absurd h.2 (by decide)

end ScribeLocal.Schedule
