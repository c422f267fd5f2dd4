import ScribeLocal.Schedule.NextChange
import Mathlib.Data.List.DropRight

/-!
# A stage and its window

While a stage runs, the schedule is looked at every half minute. The stage is abandoned once
the checks have found the window closed without a break for the length of the grace.
-/
namespace ScribeLocal.Schedule

/-- What a check finds, and when: `clock` since the worker has started, and the wall clock. -/
structure Check where
  clock : Time
  sched : ProcessingSchedule
  nowLocal : ℤ
  now : Time

namespace Check

def decision (c : Check) : ScheduleDecision := c.sched.decide c.nowLocal c.now

def closed (c : Check) : Bool := !c.decision.allowed

def grace (c : Check) : Time := c.sched.graceMinutes * minute

end Check

/-- What became of a dispatched stage. -/
inductive StageOutcome (α : Type) where
  | finished (result : α)
  | windowClosed (retryIn : Time)
  deriving DecidableEq

/-- The checks made until the stage is over; none if it is over before one of them abandons it. -/
def watch (closedSince : Option Time) : List Check → Option Time
  | [] => none
  | c :: checks =>
    if c.decision.allowed then watch none checks
    else
      let since := closedSince.getD c.clock
      if c.grace ≤ c.clock - since then some (retryDelay c.decision) else watch (some since) checks

def runStageWithinWindow {α : Type} (kind : JobKind) (checks : List Check) (result : α) :
    StageOutcome α :=
  if kind.bypassesSchedule then .finished result
  else match watch none checks with
    | some retryIn => .windowClosed retryIn
    | none => .finished result

/-! ## Closed stretches -/

/-- The last check belongs to a stretch of closed ones, as long as its grace. -/
def Overrun (checks : List Check) : Prop :=
  ∃ first rest last, checks.rtakeWhile Check.closed = first :: rest ∧ checks.getLast? = some last ∧
    last.grace ≤ last.clock - first.clock

variable {checks done : List Check} {c : Check} {closedSince : Option Time} {retryIn : Time}

/-- Since when the window has been closed, after some checks. -/
def stretchStart (done : List Check) : Option Time :=
  ((done.rtakeWhile Check.closed).head?).map Check.clock

theorem stretchStart_open (hopen : c.decision.allowed = true) : stretchStart (done ++ [c]) = none := by
  rw [stretchStart, List.rtakeWhile_concat_neg _ _ _ (by simp [Check.closed, hopen])]
  rfl

theorem stretch_closed (hclosed : c.decision.allowed = false) :
    (done ++ [c]).rtakeWhile Check.closed = done.rtakeWhile Check.closed ++ [c] :=
  List.rtakeWhile_concat_pos _ _ _ (by simp [Check.closed, hclosed])

theorem stretchStart_closed (hclosed : c.decision.allowed = false) :
    stretchStart (done ++ [c]) = some ((stretchStart done).getD c.clock) := by
  rw [stretchStart, stretch_closed hclosed, stretchStart]
  cases done.rtakeWhile Check.closed <;> rfl

theorem overrun_concat : Overrun (done ++ [c]) ↔
    c.decision.allowed = false ∧ c.grace ≤ c.clock - (stretchStart done).getD c.clock := by
  unfold Overrun
  rw [List.getLast?_concat]
  cases hallowed : c.decision.allowed with
  | true =>
    rw [List.rtakeWhile_concat_neg _ _ _ (by simp [Check.closed, hallowed])]
    simp
  | false =>
    have hfirst : ∀ first rest, done.rtakeWhile Check.closed ++ [c] = first :: rest →
        (stretchStart done).getD c.clock = first.clock := by
      intro first rest heq
      unfold stretchStart
      cases hstretch : done.rtakeWhile Check.closed with
      | nil =>
        rw [hstretch] at heq
        cases heq
        rfl
      | cons first' rest' =>
        rw [hstretch] at heq
        cases heq
        rfl
    rw [stretch_closed hallowed]
    constructor
    · rintro ⟨first, rest, last, hstretch, hlast, hgrace⟩
      cases hlast
      rw [hfirst first rest hstretch]
      exact ⟨rfl, hgrace⟩
    · rintro ⟨-, hgrace⟩
      obtain ⟨first, rest, hstretch⟩ := List.exists_cons_of_ne_nil
        (List.append_ne_nil_of_right_ne_nil (done.rtakeWhile Check.closed) (List.cons_ne_nil c []))
      rw [hfirst first rest hstretch] at hgrace
      exact ⟨first, rest, c, hstretch, rfl, hgrace⟩

/-- One check: the stage is abandoned if its stretch is long enough, else the watch goes on. -/
theorem watch_cons : watch (stretchStart done) (c :: checks) =
    if c.decision.allowed = false ∧ c.grace ≤ c.clock - (stretchStart done).getD c.clock then
      some (retryDelay c.decision)
    else watch (stretchStart (done ++ [c])) checks := by
  rw [watch]
  cases hallowed : c.decision.allowed with
  | true => simp [stretchStart_open hallowed]
  | false => simp [stretchStart_closed hallowed]

/-- The watch ends at the first overrun. -/
theorem watch_eq_some : watch (stretchStart done) checks = some retryIn ↔
    ∃ before c after, checks = before ++ c :: after ∧ Overrun (done ++ before ++ [c]) ∧
      retryIn = retryDelay c.decision ∧
      ∀ early c' late, before = early ++ c' :: late → ¬ Overrun (done ++ early ++ [c']) := by
  induction checks generalizing done with
  | nil => simp [watch]
  | cons c checks ih =>
    rw [watch_cons]
    split
    · next hover =>
      rw [← overrun_concat] at hover
      constructor
      · intro heq
        exact ⟨[], c, checks, rfl, by simpa using hover, (Option.some.inj heq).symm, by simp⟩
      · rintro ⟨before, c', after, hsplit, -, rfl, hfirst⟩
        cases before with
        | nil =>
          cases hsplit
          rfl
        | cons b before =>
          cases hsplit
          exact absurd (by simpa using hover) (hfirst [] c before rfl)
    · next hover =>
      rw [← overrun_concat] at hover
      rw [ih]
      constructor
      · rintro ⟨before, c', after, rfl, hover', hretry, hfirst⟩
        refine ⟨c :: before, c', after, rfl, by simpa using hover', hretry, ?_⟩
        intro early c'' late hsplit
        cases early with
        | nil =>
          cases hsplit
          simpa using hover
        | cons e early =>
          cases hsplit
          simpa using hfirst early c'' late rfl
      · rintro ⟨before, c', after, hsplit, hover', hretry, hfirst⟩
        cases before with
        | nil =>
          cases hsplit
          exact absurd (by simpa using hover') hover
        | cons b before =>
          cases hsplit
          refine ⟨before, c', after, rfl, by simpa using hover', hretry, ?_⟩
          intro early c'' late hsplit
          simpa using hfirst (c :: early) c'' late (congrArg (c :: ·) hsplit)

theorem watch_eq_none : watch (stretchStart done) checks = none ↔
    ∀ before c after, checks = before ++ c :: after → ¬ Overrun (done ++ before ++ [c]) := by
  induction checks generalizing done with
  | nil => simp [watch]
  | cons c checks ih =>
    rw [watch_cons]
    split
    · next hover =>
      rw [← overrun_concat] at hover
      exact iff_of_false (by simp) fun hnone => hnone [] c checks rfl (by simpa using hover)
    · next hover =>
      rw [← overrun_concat] at hover
      rw [ih]
      constructor
      · intro hnone before c' after hsplit
        cases before with
        | nil =>
          cases hsplit
          simpa using hover
        | cons b before =>
          cases hsplit
          simpa using hnone before c' after rfl
      · intro hnone before c' after hsplit
        simpa using hnone (c :: before) c' after (congrArg (c :: ·) hsplit)

/-- A stage is abandoned at the first check that ends a stretch of closed ones as long as its
grace, and runs to its end where there is none; live transcription always does. -/
theorem stageOutcome_iff {α : Type} (kind : JobKind) (checks : List Check) (result : α) :
    (∀ retryIn, runStageWithinWindow kind checks result = .windowClosed retryIn ↔
      kind.bypassesSchedule = false ∧ ∃ before c after, checks = before ++ c :: after ∧
        Overrun (before ++ [c]) ∧ retryIn = retryDelay c.decision ∧
          ∀ early c' late, before = early ++ c' :: late → ¬ Overrun (early ++ [c'])) ∧
    (runStageWithinWindow kind checks result = .finished result ↔
      kind.bypassesSchedule = true ∨
        ∀ before c after, checks = before ++ c :: after → ¬ Overrun (before ++ [c])) := by
  have hstart : stretchStart [] = none := rfl
  unfold runStageWithinWindow
  cases hbypass : kind.bypassesSchedule with
  | true => simp
  | false =>
    constructor
    · intro retryIn
      have hsome : watch (stretchStart []) checks = some retryIn ↔ _ := watch_eq_some
      rw [hstart] at hsome
      simp only [List.nil_append] at hsome
      rw [← hsome]
      cases watch none checks <;> simp
    · have hnone : watch (stretchStart []) checks = none ↔ _ := watch_eq_none
      rw [hstart] at hnone
      simp only [List.nil_append] at hnone
      rw [← hnone]
      cases watch none checks <;> simp

/-- A stage put back by a schedule, with no override and a minute or more before the next window,
waits while the window is closed and no longer. -/
theorem retryDelay_until_open (hdays : validateDays c.sched.days = none)
    (henabled : c.sched.enabled = true) (hlive : live c.now c.sched.activeOverride = none)
    (hseconds : (second : ℤ) ∣ c.nowLocal) (hopens : OpensByThen c.sched c.nowLocal)
    (hclosed : c.closed = true) {n : ℤ} (hsecs : c.decision.nextChangeSecs = some n) (hlong : 60 ≤ n) :
    (∀ t now', c.nowLocal ≤ t → t < c.nowLocal + retryDelay c.decision → c.now ≤ now' →
      (c.sched.decide t now').allowed = false) ∧
    ∀ now', c.now ≤ now' →
      (c.sched.decide (c.nowLocal + retryDelay c.decision) now').allowed = true := by
  have hreal := real_of_opensByThen (withinDay_of_validateDays hdays) henabled hlive hseconds hopens
  have hdelay : (retryDelay c.decision : ℤ) = n * second := by
    have hpos : 0 < n := by omega
    rw [retryDelay, hsecs]
    simp only [if_pos hpos]
    have hmin : minDefer ≤ n.toNat * second := by
      rw [minDefer]
      exact Nat.mul_le_mul_right _ (by omega)
    rw [max_eq_left hmin]
    push_cast
    rw [Int.toNat_of_nonneg hpos.le]
  rw [hdelay]
  exact hreal.closedUntil n (by simpa [Check.closed, Check.decision] using hclosed) hsecs

/-- Monday's first check, nine hours before the window. -/
def mondayCheck : Check := ⟨0, workweek, midnight 4, 0⟩

theorem opensByThen_workweek (nowLocal : ℤ) : OpensByThen workweek nowLocal := by
  rintro date ⟨w, hw, hstart, -⟩
  have hdays : ∀ w ∈ workweek.days, w.start ≠ minutesPerDay := by decide
  exact absurd hstart (hdays w (List.mem_of_getElem? (Option.mem_filter_iff.mp hw).1))

theorem retryDelay_until_open_mondayCheck :
    (workweek.decide (midnight 4 + retryDelay mondayCheck.decision) 0).allowed = true :=
  (retryDelay_until_open (c := mondayCheck) (n := 32400) (by decide) rfl rfl (by decide)
    (opensByThen_workweek _) (by decide) (by decide) (by decide)).2 0 le_rfl

end ScribeLocal.Schedule
