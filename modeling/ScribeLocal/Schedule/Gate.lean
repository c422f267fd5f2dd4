import ScribeLocal.Schedule.Windows
import ScribeLocal.Transition

/-!
# The worker's view of the schedule

The claim loop asks before every claim, so a read of the stored schedule is used again for a
few seconds. What a worker decides by is never older than that, while the database answers.
-/
namespace ScribeLocal.Schedule
open Transition

/-- `CACHE_TTL` -/
def cacheTtl : Time := 5 * second

/-- The schedule that has been read last, and when. -/
structure Gate where
  cached : Option (Time × ProcessingSchedule) := none

namespace Gate

def invalidate (_ : Gate) : Gate := {}

/-- `read` is what the database answers if it is asked; none is an error. -/
def schedule (now : Time) (read : Option ProcessingSchedule) (gate : Gate) :
    ProcessingSchedule × Gate :=
  match gate.cached with
  | some (since, sched) =>
    if now - since < cacheTtl then (sched, gate)
    else match read with
      | some sched => (sched, { cached := some (now, sched) })
      | none => (sched, gate)
  | none =>
    match read with
    | some sched => (sched, { cached := some (now, sched) })
    | none => (.default, gate)

end Gate

/-! ## A worker and the settings -/

/-- A worker's gate, the schedule the settings hold, and the time since the worker has started. -/
structure Watched where
  clock : Time
  stored : ProcessingSchedule
  gate : Gate

inductive WatchedLabel where
  | tick (d : Time)
  /-- Somebody has saved another schedule. -/
  | save (sched : ProcessingSchedule)
  /-- A NOTIFY wakes the worker. -/
  | wake
  /-- A claim, or the check of a stage that runs, looks at the schedule. -/
  | look (answers : Bool)

namespace Watched

/-- What the database answers. -/
def read (w : Watched) (answers : Bool) : Option ProcessingSchedule :=
  if answers then some w.stored else none

/-- The schedule that a look at it finds. -/
def found (w : Watched) (answers : Bool) : ProcessingSchedule :=
  (w.gate.schedule w.clock (w.read answers)).1

def step (w : Watched) : WatchedLabel → Option Watched
  | .tick d => some { w with clock := w.clock + d }
  | .save sched => some { w with stored := sched }
  | .wake => some { w with gate := w.gate.invalidate }
  | .look answers => some { w with gate := (w.gate.schedule w.clock (w.read answers)).2 }

/-- The worker begins with nothing read. -/
def start (sched : ProcessingSchedule) : Watched := ⟨0, sched, {}⟩

/-- What the loop asks the queue for. -/
def kinds (configured : List JobKind) (w : Watched) (answers : Bool) (nowLocal : ℤ) (now : Time) :
    List JobKind :=
  claimableKinds configured ((w.found answers).decide nowLocal now)

end Watched

/-! ## Where the schedule in use comes from -/

variable {sched₀ sched : ProcessingSchedule} {w w' : Watched} {tr tr₁ : List WatchedLabel}
  {answers : Bool} {since : Time} {a : WatchedLabel}

/-- The settings held `sched` at a moment of the run, `since` after its start. -/
def Held (sched₀ : ProcessingSchedule) (tr : List WatchedLabel) (since : Time)
    (sched : ProcessingSchedule) : Prop :=
  ∃ tr₁ w₁, tr₁ <+: tr ∧ Run Watched.step anyStep (.start sched₀) tr₁ w₁ ∧ w₁.clock = since ∧
    w₁.stored = sched

theorem Held.mono (h : Held sched₀ tr₁ since sched) (hle : tr₁ <+: tr) : Held sched₀ tr since sched := by
  rcases h with ⟨tr₂, w₂, hprefix, hrun, hclock, hstored⟩
  exact ⟨tr₂, w₂, hprefix.trans hle, hrun, hclock, hstored⟩

theorem held_now (h : Run Watched.step anyStep (.start sched₀) tr w) :
    Held sched₀ tr w.clock w.stored := ⟨tr, w, List.prefix_rfl, h, rfl, rfl⟩

/-- A look leaves the cache as it was, or reads the settings. -/
theorem cached_look (hstep : w.step (.look answers) = some w') :
    w'.gate = w.gate ∨ w'.gate.cached = some (w.clock, w.stored) := by
  cases hstep
  unfold Gate.schedule Watched.read
  dsimp only
  split
  · split
    · exact .inl rfl
    · cases answers with
      | true => exact .inr rfl
      | false => exact .inl rfl
  · cases answers with
    | true => exact .inr rfl
    | false => exact .inl rfl

/-- What is cached has been read in the run, at the time it is marked with. -/
theorem cached_held (h : Run Watched.step anyStep (.start sched₀) tr w)
    (hcached : w.gate.cached = some (since, sched)) : Held sched₀ tr since sched := by
  revert hcached
  refine h.history (I := fun tr w => w.gate.cached = some (since, sched) →
    Held sched₀ tr since sched) (fun hcached => nomatch hcached) ?_
  intro tr w a w' hrun ih _ hstep hcached
  have hle : tr <+: tr ++ [a] := List.prefix_append _ _
  cases a with
  | tick | save =>
    cases hstep
    exact (ih hcached).mono hle
  | wake =>
    cases hstep
    cases hcached
  | look answers =>
    rcases cached_look hstep with hsame | hread
    · rw [hsame] at hcached
      exact (ih hcached).mono hle
    · cases hread.symm.trans hcached
      exact (held_now hrun).mono hle

/-- The clock does not run backwards. -/
theorem clock_mono (h : Run Watched.step anyStep w tr w') : w.clock ≤ w'.clock := by
  refine h.invariant (I := fun w' => w.clock ≤ w'.clock) le_rfl ?_
  intro w₁ a w₂ hle _ hstep
  cases a <;> cases hstep <;> first | exact hle | exact Nat.le_add_right_of_le hle

theorem held_le (h : Run Watched.step anyStep (.start sched₀) tr w) (hheld : Held sched₀ tr since sched) :
    since ≤ w.clock := by
  rcases hheld with ⟨tr₁, w₁, ⟨tr₂, rfl⟩, hrun₁, rfl, -⟩
  obtain ⟨w₂, hrun₂, hrest⟩ := h.split
  cases Option.some.inj (hrun₁.exec_eq.symm.trans hrun₂.exec_eq)
  exact clock_mono hrest

/-- Where the database answers, a look finds what the settings held in the last five seconds. -/
theorem found_held (h : Run Watched.step anyStep (.start sched₀) tr w) :
    ∃ since, Held sched₀ tr since (w.found true) ∧ w.clock < since + cacheTtl := by
  have hnow : w.clock < w.clock + cacheTtl := Nat.lt_add_of_pos_right (by decide)
  unfold Watched.found Gate.schedule
  split
  · next since sched hcached =>
    split
    · next hfresh =>
      have hheld := cached_held h hcached
      exact ⟨since, hheld, (tsub_lt_iff_left (held_le h hheld)).mp hfresh⟩
    · exact ⟨w.clock, held_now h, hnow⟩
  · exact ⟨w.clock, held_now h, hnow⟩

/-- Where it does not, a look finds what has been read last, if something has been read since the
last wake-up. -/
theorem found_unanswered (h : Run Watched.step anyStep (.start sched₀) tr w) :
    (∃ since, Held sched₀ tr since (w.found false)) ∨
      w.gate.cached = none ∧ w.found false = .default := by
  unfold Watched.found Gate.schedule
  split
  · next since sched hcached =>
    left
    refine ⟨since, ?_⟩
    split <;> exact cached_held h hcached
  · next hcached => exact .inr ⟨hcached, rfl⟩

theorem decide_default (nowLocal : ℤ) (now : Time) :
    (ProcessingSchedule.default.decide nowLocal now).allowed = true := rfl

/-- In every run of saves, wake-ups and looks at the schedule: if each schedule the settings have
held in the last five seconds forbids the moment of a claim, the claim is for live transcription
only, and if each of them allows it, for every stage the worker is configured for. Where the
database does not answer, the claim goes by a schedule the settings have held, or is for every
stage when nothing has been read since the last wake-up. -/
theorem kinds_of_run (h : Run Watched.step anyStep (.start sched₀) tr w) (configured : List JobKind)
    (nowLocal : ℤ) (now : Time) :
    ((∀ since sched, Held sched₀ tr since sched → w.clock < since + cacheTtl →
        (sched.decide nowLocal now).allowed = false) →
      w.kinds configured true nowLocal now = configured.filter JobKind.bypassesSchedule) ∧
    ((∀ since sched, Held sched₀ tr since sched → w.clock < since + cacheTtl →
        (sched.decide nowLocal now).allowed = true) → w.kinds configured true nowLocal now = configured) ∧
    ((∃ since sched, Held sched₀ tr since sched ∧
        w.kinds configured false nowLocal now = claimableKinds configured (sched.decide nowLocal now)) ∨
      w.gate.cached = none ∧ w.kinds configured false nowLocal now = configured) := by
  obtain ⟨since, hheld, hrecent⟩ := found_held h
  refine ⟨fun hall => ?_, fun hall => ?_, ?_⟩
  · rw [Watched.kinds, claimableKinds, hall since _ hheld hrecent]
    rfl
  · rw [Watched.kinds, claimableKinds, hall since _ hheld hrecent]
    rfl
  · rcases found_unanswered h with ⟨since, hheld⟩ | ⟨hnone, hdefault⟩
    · exact .inl ⟨since, _, hheld, rfl⟩
    · right
      refine ⟨hnone, ?_⟩
      rw [Watched.kinds, claimableKinds, hdefault, decide_default]
      rfl

/-- Nothing is allowed until the override lapses. -/
def paused (expires : Time) : ProcessingSchedule :=
  { ProcessingSchedule.default with activeOverride := some ⟨.pause, expires⟩ }

/-- A pause is saved just after the schedule has been read, and no NOTIFY comes. -/
def pausedRun : List WatchedLabel := [.look true, .save (paused day), .tick (6 * second)]

theorem kinds_of_run_paused : ∃ w, exec Watched.step (.start .default) pausedRun = some w ∧
    w.kinds JobKind.all true 0 0 = [.transcribeSegment] := by
  refine ⟨_, rfl, ?_⟩
  have hrun : Run Watched.step anyStep (.start .default) pausedRun _ := run_of_exec rfl
  refine (kinds_of_run hrun JobKind.all 0 0).1 ?_
  rintro since sched ⟨tr₁, w₁, hle, hrun₁, rfl, rfl⟩ hrecent
  have hexec := hrun₁.exec_eq
  have hmem : tr₁ ∈ pausedRun.inits := List.mem_inits _ _ |>.mpr hle
  simp only [pausedRun, List.inits, List.mem_cons, List.map_cons, List.map_nil, List.not_mem_nil,
    or_false] at hmem
  -- the settings hold what they held at the start until the pause is saved, six seconds before
  rcases hmem with rfl | rfl | rfl | rfl
  all_goals cases hexec
  · exact absurd hrecent (by decide)
  · exact absurd hrecent (by decide)
  · exact absurd hrecent (by decide)
  · decide

end ScribeLocal.Schedule
