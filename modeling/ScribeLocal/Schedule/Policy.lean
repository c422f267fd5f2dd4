import ScribeLocal.Core.Types

/-!
# The processing schedule

Weekly windows say when the heavy stages may run; a time-boxed override outranks them
until it lapses. Windows are written in the server's local time, overrides in absolute
time; both are counted in microseconds.
-/
namespace ScribeLocal.Schedule

def minutesPerDay : ℕ := 1440

/-- `MAX_OVERRIDE_MINUTES` -/
def maxOverrideMinutes : ℤ := 24 * 60

def maxGraceMinutes : ℕ := 24 * 60

/-- How many days `decide` looks ahead for the next window. -/
def lookaheadDays : ℕ := 8

def second : ℕ := 1000000
def minute : ℕ := 60 * second
def day : ℕ := 24 * 60 * minute

/-- One weekday's window, in minutes after local midnight; `stop ≤ start` wraps past midnight. -/
structure DayWindow where
  enabled : Bool
  start : ℕ
  stop : ℕ
  deriving DecidableEq

def DayWindow.off : DayWindow := ⟨false, 540, 1020⟩

def DayWindow.lengthMinutes (w : DayWindow) : ℕ :=
  if w.start < w.stop then w.stop - w.start else minutesPerDay - w.start + w.stop

inductive OverrideMode where
  | run
  | pause
  deriving DecidableEq

structure ScheduleOverride where
  mode : OverrideMode
  /-- `until` -/
  expires : Time
  deriving DecidableEq

structure ProcessingSchedule where
  enabled : Bool
  /-- Monday first. -/
  days : List DayWindow
  graceMinutes : ℕ
  activeOverride : Option ScheduleOverride
  deriving DecidableEq

namespace ProcessingSchedule

/-- Off, with a plausible work week filled in. -/
def default : ProcessingSchedule where
  enabled := false
  days := List.replicate 5 ⟨true, 9 * 60, 17 * 60⟩ ++ [.off, .off]
  graceMinutes := 10
  activeOverride := none

end ProcessingSchedule

/-- The override, unless it has lapsed. -/
def live (now : Time) (o : Option ScheduleOverride) : Option ScheduleOverride :=
  o.filter fun o => now < o.expires

def DayWindow.clamp (w : DayWindow) : DayWindow :=
  { w with start := min w.start minutesPerDay, stop := min w.stop minutesPerDay }

namespace ProcessingSchedule

def normalize (now : Time) (s : ProcessingSchedule) : ProcessingSchedule where
  enabled := s.enabled
  days := (s.days.take 7 ++ List.replicate (7 - s.days.length) DayWindow.off).map DayWindow.clamp
  graceMinutes := min s.graceMinutes maxGraceMinutes
  activeOverride := live now s.activeOverride

end ProcessingSchedule

/-! ## The verdict -/

inductive ScheduleReason where
  | disabled
  | inWindow
  | outsideWindow
  | overrideRun
  | overridePause
  deriving DecidableEq

structure ScheduleDecision where
  allowed : Bool
  reason : ScheduleReason
  /-- Seconds until the verdict could next change. -/
  nextChangeSecs : Option ℤ
  deriving DecidableEq

/-- Touching and overlapping windows become one. -/
def mergeWindows : List (ℤ × ℤ) → List (ℤ × ℤ)
  | [] => []
  | w :: ws => (ws.foldl push ([], w)).1 ++ [(ws.foldl push ([], w)).2]
where
  push (acc : List (ℤ × ℤ) × (ℤ × ℤ)) (w : ℤ × ℤ) : List (ℤ × ℤ) × (ℤ × ℤ) :=
    if w.1 ≤ acc.2.2 then (acc.1, (acc.2.1, max acc.2.2 w.2)) else (acc.1 ++ [acc.2], w)

/-- `weekday().num_days_from_monday()`; day 0 is a Thursday. -/
def weekday (date : ℤ) : ℕ := ((date + 3) % 7).toNat

namespace ProcessingSchedule

/-- The window that opens on this date. -/
def windowOn (s : ProcessingSchedule) (date : ℤ) : Option (ℤ × ℤ) := do
  let w ← s.days[weekday date]?
  guard w.enabled
  let start := date * day + w.start * minute
  return (start, start + w.lengthMinutes * minute)

/-- The windows from the day before `anchor` on, in order. -/
def mergedWindows (s : ProcessingSchedule) (anchor : ℤ) : List (ℤ × ℤ) :=
  mergeWindows <| ((List.range (lookaheadDays + 1)).filterMap fun k =>
    s.windowOn (anchor - 1 + k)).insertionSort fun a b => a.1 ≤ b.1

/-- `decide`: `nowLocal` is what the server's wall clock shows at `now`. -/
def decide (s : ProcessingSchedule) (nowLocal : ℤ) (now : Time) : ScheduleDecision :=
  match live now s.activeOverride with
  | some o => {
      allowed := o.mode = .run
      reason := if o.mode = .run then .overrideRun else .overridePause
      nextChangeSecs := some ((o.expires - now) / second) }
  | none =>
    if !s.enabled then ⟨true, .disabled, none⟩
    else
      let windows := s.mergedWindows (nowLocal / day)
      match windows.find? fun w => w.1 ≤ nowLocal && nowLocal < w.2 with
      | some w => ⟨true, .inWindow, some ((w.2 - nowLocal) / second)⟩
      | none =>
        ⟨false, .outsideWindow,
          (windows.find? fun w => nowLocal < w.1).map fun w => (w.1 - nowLocal) / second⟩

end ProcessingSchedule

/-- The kinds a worker may claim of those it is configured for. -/
def claimableKinds (configured : List JobKind) (d : ScheduleDecision) : List JobKind :=
  if d.allowed then configured else configured.filter JobKind.bypassesSchedule

/-- `MIN_DEFER` -/
def minDefer : Time := 60 * second

/-- `FALLBACK_DEFER` -/
def fallbackDefer : Time := 3600 * second

/-- How long a job waits that a closed window has put back. -/
def retryDelay (d : ScheduleDecision) : Time :=
  match d.nextChangeSecs with
  | some secs => if 0 < secs then max (secs.toNat * second) minDefer else fallbackDefer
  | none => fallbackDefer

/-! ## Rules -/

variable {now : Time} {o : Option ScheduleOverride} {s : ProcessingSchedule}

@[simp] theorem live_none : live now none = none := rfl

@[simp] theorem live_live {now' : Time} (h : now ≤ now') : live now' (live now o) = live now' o := by
  cases o with
  | none => rfl
  | some o =>
    simp only [live, Option.filter_some]
    by_cases hlate : now' < o.expires
    · have hnow : now < o.expires := h.trans_lt hlate
      simp [hlate, hnow]
    · by_cases hnow : now < o.expires
      · simp [hnow, Option.filter_some]
      · simp [hlate, hnow]

theorem live_eq_some {v : ScheduleOverride} : live now o = some v ↔ o = some v ∧ now < v.expires := by
  simp [live]

/-- What `normalize` makes of the windows and the grace. -/
structure ProcessingSchedule.Normal (s : ProcessingSchedule) : Prop where
  length : s.days.length = 7
  edges : ∀ w ∈ s.days, w.start ≤ minutesPerDay ∧ w.stop ≤ minutesPerDay
  grace : s.graceMinutes ≤ maxGraceMinutes

theorem normal_normalize (now : Time) (s : ProcessingSchedule) : (s.normalize now).Normal where
  length := by
    simp only [ProcessingSchedule.normalize, List.length_map, List.length_append, List.length_take,
      List.length_replicate]
    omega
  edges w hw := by
    rcases List.mem_map.mp hw with ⟨v, -, rfl⟩
    exact ⟨Nat.min_le_right _ _, Nat.min_le_right _ _⟩
  grace := Nat.min_le_right _ _

/-- A schedule in order loses no more than a lapsed override. -/
theorem normalize_of_normal (h : s.Normal) :
    s.normalize now = { s with activeOverride := live now s.activeOverride } := by
  have hdays : (s.days.take 7 ++ List.replicate (7 - s.days.length) DayWindow.off).map DayWindow.clamp =
      s.days := by
    rw [List.take_of_length_le h.length.le, h.length, Nat.sub_self, List.replicate_zero,
      List.append_nil]
    conv_rhs => rw [← List.map_id s.days]
    apply List.map_congr_left
    intro w hw
    rcases h.edges w hw with ⟨hstart, hstop⟩
    simp [DayWindow.clamp, hstart, hstop]
  simp only [ProcessingSchedule.normalize, hdays, Nat.min_eq_left h.grace]

/-- A deferred job waits at least a minute. -/
theorem minDefer_le_retryDelay (d : ScheduleDecision) : minDefer ≤ retryDelay d := by
  unfold retryDelay
  split
  · split
    · exact le_max_right _ _
    · decide
  · decide

end ScribeLocal.Schedule
