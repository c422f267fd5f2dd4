import ScribeLocal.Server.Program
import ScribeLocal.Transition

/-! # The server: any number of processes over one database

A process is a request under way, a reaper scan, or a worker's task from its claim
to its last statement. Every label moves one process by one statement.
-/
namespace ScribeLocal.Server
open Transition

inductive Proc where
  | idle
  /-- A claimed job with the statements its stage has still to issue. -/
  | stage (job : Job) (body : List Stmt)
  | todo (cs : List Cmd)
  /-- Over, with the reply it sent and what an error or a stop kept it from doing. -/
  | ended (reply : Option ℕ) (left : List Cmd)
  deriving DecidableEq

/-- What becomes of a process after a command, with `rest` still to come. -/
def advance (rest : List Cmd) : Flow → Proc
  | .next cs => .todo (cs ++ rest)
  | .reply code => .ended (some code) rest
  | .abort => .ended none rest

structure Sys where
  db : Db
  procs : ℕ → Proc

def Sys.start : Sys := ⟨Db.empty, fun _ => .idle⟩

def Sys.setProc (s : Sys) (i : ℕ) (p : Proc) : Sys :=
  { s with procs := Function.update s.procs i p }

def Sys.setJobs (s : Sys) (t : Jobs) : Sys := { s with db := { s.db with jobs := t } }

inductive Label where
  | tick (d : Time)
  | request (i : ℕ) (q : Request)
  | reaper (i : ℕ)
  | claim (i : ℕ) (w : WorkerId) (kinds : List JobKind) (id : JobId)
  | step (i : ℕ) (x : Heard)
  | stageErr (i : ℕ) (error : String)
  | windowClosed (i : ℕ) (delay : Time)
  | heartbeat (i : ℕ)
  | stop (i : ℕ)

/-- What a process leaves undone when it stops for good. -/
def Proc.stopped : Proc → Proc
  | .todo cs => .ended none cs
  | .stage _ _ => .ended none []
  | p => p

/-- The next statement of a process. -/
def stepProc (cfg : Config) (x : Heard) (db : Db) : Proc → Option (Db × Proc)
  | .todo (c :: rest) => some ((c.exec cfg x db).1, advance rest (c.exec cfg x db).2)
  | .stage job (st :: body) =>
    match st.exec db.now db.status x db.content with
    | none => some (db, .todo [.failSelect job x.error])
    | some (c, sts) => some ({ db with content := c }, .stage job (sts ++ body))
  | .stage job [] => some (db, .todo [.completeJob job])
  | _ => none

def step (cfg : Config) (s : Sys) : Label → Option Sys
  | .tick d => some { s with db := { s.db with now := s.db.now + d } }
  | .request i q => if s.procs i = .idle then some (s.setProc i (.todo [q.first])) else none
  | .reaper i => if s.procs i = .idle then some (s.setProc i (.todo [.reapStuck])) else none
  | .claim i w kinds id =>
    if s.procs i = .idle then
      (s.db.jobs.claimOne s.db.now w kinds id).map fun p =>
        (s.setJobs p.2).setProc i (.stage p.1 (jobBody cfg p.1))
    else none
  | .step i x =>
    (stepProc cfg x s.db (s.procs i)).map fun p => ({ s with db := p.1 } : Sys).setProc i p.2
  | .stageErr i error =>
    match s.procs i with
    | .stage job _ => some (s.setProc i (.todo [.failSelect job error]))
    | _ => none
  | .windowClosed i delay =>
    match s.procs i with
    | .stage job _ =>
      if job.kind.bypassesSchedule then none
      else some (s.setProc i (.todo [.deferJob job delay]))
    | _ => none
  | .heartbeat i =>
    match s.procs i with
    | .stage job _ =>
      job.lockedBy.map fun w => s.setJobs (s.db.jobs.heartbeat s.db.now job.id w)
    | _ => none
  | .stop i => some (s.setProc i (s.procs i).stopped)

/-- `n` steps of process `i`, told nothing from outside. -/
def steps (i n : ℕ) : List Label := List.replicate n (.step i {})

/-- Everything a step can be. -/
inductive Moved (cfg : Config) (s : Sys) : Label → Sys → Prop
  | tick (d : Time) : Moved cfg s (.tick d) { s with db := { s.db with now := s.db.now + d } }
  | request {i : ℕ} (q : Request) (hidle : s.procs i = .idle) :
      Moved cfg s (.request i q) (s.setProc i (.todo [q.first]))
  | reaper {i : ℕ} (hidle : s.procs i = .idle) :
      Moved cfg s (.reaper i) (s.setProc i (.todo [.reapStuck]))
  | claim {i : ℕ} {w : WorkerId} {kinds : List JobKind} {id : JobId} {j : Job} {t : Jobs}
      (hidle : s.procs i = .idle) (hclaim : s.db.jobs.claimOne s.db.now w kinds id = some (j, t)) :
      Moved cfg s (.claim i w kinds id) ((s.setJobs t).setProc i (.stage j (jobBody cfg j)))
  | cmd {i : ℕ} {c : Cmd} {rest : List Cmd} (x : Heard) (hproc : s.procs i = .todo (c :: rest)) :
      Moved cfg s (.step i x)
        (({ s with db := (c.exec cfg x s.db).1 } : Sys).setProc i
          (advance rest (c.exec cfg x s.db).2))
  | stmt {i : ℕ} {job : Job} {st : Stmt} {body : List Stmt} {c : Content} {sts : List Stmt}
      (x : Heard) (hproc : s.procs i = .stage job (st :: body))
      (hexec : st.exec s.db.now s.db.status x s.db.content = some (c, sts)) :
      Moved cfg s (.step i x)
        (({ s with db := { s.db with content := c } } : Sys).setProc i (.stage job (sts ++ body)))
  | stmtErr {i : ℕ} {job : Job} {st : Stmt} {body : List Stmt} (x : Heard)
      (hproc : s.procs i = .stage job (st :: body))
      (hexec : st.exec s.db.now s.db.status x s.db.content = none) :
      Moved cfg s (.step i x) (s.setProc i (.todo [.failSelect job x.error]))
  | bodyDone {i : ℕ} {job : Job} (x : Heard) (hproc : s.procs i = .stage job []) :
      Moved cfg s (.step i x) (s.setProc i (.todo [.completeJob job]))
  | stageErr {i : ℕ} {job : Job} {body : List Stmt} (error : String)
      (hproc : s.procs i = .stage job body) :
      Moved cfg s (.stageErr i error) (s.setProc i (.todo [.failSelect job error]))
  | windowClosed {i : ℕ} {job : Job} {body : List Stmt} (delay : Time)
      (hproc : s.procs i = .stage job body) (hkind : job.kind.bypassesSchedule = false) :
      Moved cfg s (.windowClosed i delay) (s.setProc i (.todo [.deferJob job delay]))
  | heartbeat {i : ℕ} {job : Job} {body : List Stmt} {w : WorkerId}
      (hproc : s.procs i = .stage job body) (hw : job.lockedBy = some w) :
      Moved cfg s (.heartbeat i) (s.setJobs (s.db.jobs.heartbeat s.db.now job.id w))
  | stop {i : ℕ} : Moved cfg s (.stop i) (s.setProc i (s.procs i).stopped)

variable {cfg : Config} {s s' : Sys} {a : Label}

theorem step_moved (h : step cfg s a = some s') : Moved cfg s a s' := by
  cases a with
  | tick d =>
    cases h
    exact .tick d
  | request i q =>
    rw [step, Option.ite_none_right_eq_some] at h
    rcases h with ⟨hidle, ⟨rfl⟩⟩
    exact .request q hidle
  | reaper i =>
    rw [step, Option.ite_none_right_eq_some] at h
    rcases h with ⟨hidle, ⟨rfl⟩⟩
    exact .reaper hidle
  | claim i w kinds id =>
    rw [step, Option.ite_none_right_eq_some] at h
    rcases h with ⟨hidle, h⟩
    rcases Option.map_eq_some_iff.mp h with ⟨⟨j, t⟩, hclaim, rfl⟩
    exact .claim hidle hclaim
  | step i x =>
    rcases Option.map_eq_some_iff.mp h with ⟨⟨db, p⟩, hstep, rfl⟩
    generalize hproc : s.procs i = q at hstep
    unfold stepProc at hstep
    split at hstep
    · cases hstep
      exact .cmd x hproc
    · split at hstep
      · rename_i hexec
        cases hstep
        exact .stmtErr x hproc hexec
      · rename_i hexec
        cases hstep
        exact .stmt x hproc hexec
    · cases hstep
      exact .bodyDone x hproc
    · cases hstep
  | stageErr i error =>
    simp only [step] at h
    split at h
    · rename_i hproc
      cases h
      exact .stageErr error hproc
    · cases h
  | windowClosed i delay =>
    simp only [step] at h
    split at h
    · rename_i hproc
      rw [Option.ite_none_left_eq_some] at h
      rcases h with ⟨hkind, ⟨rfl⟩⟩
      exact .windowClosed delay hproc (by simpa using hkind)
    · cases h
  | heartbeat i =>
    simp only [step] at h
    split at h
    · rename_i hproc
      rcases Option.map_eq_some_iff.mp h with ⟨w, hw, rfl⟩
      exact .heartbeat hproc hw
    · cases h
  | stop i =>
    cases h
    exact .stop

/-- A process that has commands left runs the first. -/
theorem next_of_todo {i : ℕ} {x : Heard} {c : Cmd} {rest : List Cmd}
    (h : Moved cfg s (.step i x) s') (hproc : s.procs i = .todo (c :: rest)) :
    s' = ({ s with db := (c.exec cfg x s.db).1 } : Sys).setProc i
      (advance rest (c.exec cfg x s.db).2) := by
  cases h with
  | cmd _ hproc' =>
    cases hproc.symm.trans hproc'
    rfl
  | stmt _ hproc' | stmtErr _ hproc' | bodyDone _ hproc' => cases hproc.symm.trans hproc'

/-- A stage that has statements left runs the first. -/
theorem next_of_stage {i : ℕ} {x : Heard} {job : Job} {st : Stmt} {body sts : List Stmt}
    {c : Content} (h : Moved cfg s (.step i x) s') (hproc : s.procs i = .stage job (st :: body))
    (hexec : st.exec s.db.now s.db.status x s.db.content = some (c, sts)) :
    s' = ({ s with db := { s.db with content := c } } : Sys).setProc i
      (.stage job (sts ++ body)) := by
  cases h with
  | cmd _ hproc' | bodyDone _ hproc' => cases hproc.symm.trans hproc'
  | stmtErr _ hproc' hexec' =>
    cases hproc.symm.trans hproc'
    cases hexec.symm.trans hexec'
  | stmt _ hproc' hexec' =>
    cases hproc.symm.trans hproc'
    cases hexec.symm.trans hexec'
    rfl

@[simp] theorem Sys.setProc_db {i : ℕ} {p : Proc} : (s.setProc i p).db = s.db := rfl

@[simp] theorem Sys.setProc_self {i : ℕ} {p : Proc} : (s.setProc i p).procs i = p := by
  simp [Sys.setProc]

@[simp] theorem Sys.setProc_of_ne {i j : ℕ} {p : Proc} (h : j ≠ i) :
    (s.setProc i p).procs j = s.procs j := by
  simp [Sys.setProc, h]

@[simp] theorem Sys.setJobs_procs {t : Jobs} : (s.setJobs t).procs = s.procs := rfl

@[simp] theorem Sys.setJobs_jobs {t : Jobs} : (s.setJobs t).db.jobs = t := rfl

@[simp] theorem Sys.setJobs_status {t : Jobs} : (s.setJobs t).db.status = s.db.status := rfl

/-- The state after process `i` has executed `c` with `rest` still to come. -/
def Sys.after (cfg : Config) (x : Heard) (s : Sys) (i : ℕ) (c : Cmd) (rest : List Cmd) : Sys :=
  ({ s with db := (c.exec cfg x s.db).1 } : Sys).setProc i (advance rest (c.exec cfg x s.db).2)

theorem after_procs_of_ne {x : Heard} {i j : ℕ} {c : Cmd} {rest : List Cmd} (h : j ≠ i) :
    (s.after cfg x i c rest).procs j = s.procs j :=
  Sys.setProc_of_ne h

theorem after_procs_self {x : Heard} {i : ℕ} {c : Cmd} {rest : List Cmd} :
    (s.after cfg x i c rest).procs i = advance rest (c.exec cfg x s.db).2 :=
  Sys.setProc_self

theorem after_db {x : Heard} {i : ℕ} {c : Cmd} {rest : List Cmd} :
    (s.after cfg x i c rest).db = (c.exec cfg x s.db).1 := rfl

theorem step_after {x : Heard} {i : ℕ} {c : Cmd} {rest : List Cmd}
    (hproc : s.procs i = .todo (c :: rest)) :
    step cfg s (.step i x) = some (s.after cfg x i c rest) := by
  rw [step, hproc]
  rfl

/-! ## Runs of finitely many processes -/

/-- The process a label moves, if it moves one. -/
def Label.proc : Label → Option ℕ
  | .tick _ => none
  | .request i _ | .reaper i | .claim i _ _ _ | .step i _ | .stageErr i _ | .windowClosed i _
  | .heartbeat i | .stop i => some i

theorem moved_procs_of_ne {i : ℕ} (h : Moved cfg s a s') (hi : a.proc ≠ some i) :
    s'.procs i = s.procs i := by
  cases h with
  | tick | heartbeat => rfl
  | _ => exact Sys.setProc_of_ne fun h => hi (congrArg some h.symm)

/-- No process from `n` on has ever moved. -/
def Sys.Within (n : ℕ) (s : Sys) : Prop := ∀ i, n ≤ i → s.procs i = .idle

/-- The test lets through the steps of the first `n` processes that pass `b`. -/
def amid {σ : Type*} (n : ℕ) (b : σ → Label → Bool) (s : σ) (a : Label) : Bool :=
  (a.proc.all fun i => decide (i < n)) && b s a

theorem within_amid {σ : Type*} {n : ℕ} {b : σ → Label → Bool} {p : σ} (hs : s.Within n)
    (hok : amid n b p a = true) (hstep : step cfg s a = some s') : s'.Within n := by
  intro i hi
  rw [moved_procs_of_ne (step_moved hstep), hs i hi]
  intro hproc
  simp only [amid, hproc, Option.all_some, Bool.and_eq_true, decide_eq_true_eq] at hok
  omega

/-- A test on the first `n` processes is enough where the others never move. -/
theorem run_of_amid {n : ℕ} {b : Sys → Label → Bool} {ok : Sys → Label → Prop}
    {tr : List Label} (h : (exec (guarded (step cfg) (amid n b)) Sys.start tr).isSome = true)
    (hb : ∀ s a, s.Within n → b s a = true → ok s a) :
    Run (step cfg) ok Sys.start tr
      ((exec (guarded (step cfg) (amid n b)) Sys.start tr).get h) := by
  have hrun : Run (step cfg) (fun s a => amid n b s a = true) Sys.start tr
      ((exec (guarded (step cfg) (amid n b)) Sys.start tr).get h) :=
    run_of_guarded h fun _ _ => id
  apply hrun.strengthen (I := Sys.Within n) (fun _ _ => rfl)
  · exact fun s a s' => within_amid
  · exact fun s a hs hok => hb s a hs (Bool.and_eq_true_iff.mp hok).2

/-- The same for a test that also looks at the notes. -/
theorem run_of_amid_notes {β : Type*} {note : Sys → Label → β → β} {b₀ : β} {n : ℕ}
    {b : Sys × β → Label → Bool} {ok : Sys × β → Label → Prop} {tr : List Label}
    (h : (exec (guarded (withNotes (step cfg) note) (amid n b)) (Sys.start, b₀) tr).isSome = true)
    (hb : ∀ p a, p.1.Within n → b p a = true → ok p a) :
    Run (withNotes (step cfg) note) ok (Sys.start, b₀) tr
      ((exec (guarded (withNotes (step cfg) note) (amid n b)) (Sys.start, b₀) tr).get h) ∧
    ((exec (guarded (withNotes (step cfg) note) (amid n b)) (Sys.start, b₀) tr).get h).1.Within n := by
  have hrun : Run (withNotes (step cfg) note) (fun p a => amid n b p a = true) (Sys.start, b₀) tr
      ((exec (guarded (withNotes (step cfg) note) (amid n b)) (Sys.start, b₀) tr).get h) :=
    run_of_guarded h fun _ _ => id
  have hstep (p : Sys × β) (a : Label) (p' : Sys × β) (hs : p.1.Within n)
      (hok : amid n b p a = true) (hp : withNotes (step cfg) note p a = some p') : p'.1.Within n :=
    within_amid hs hok (withNotes_eq_some.mp hp).1
  constructor
  · exact hrun.strengthen (I := fun p => Sys.Within n p.1) (fun _ _ => rfl) hstep
      fun p a hs hok => hb p a hs (Bool.and_eq_true_iff.mp hok).2
  · exact hrun.invariant (I := fun p => Sys.Within n p.1) (fun _ _ => rfl) hstep

end ScribeLocal.Server
