import ScribeLocal.Server.Moves

/-!
# The heartbeat task of a claim

`process_job` renews its lease from a task of its own and aborts that task once the
stage has returned. A task that unwinds inside the stage, or is dropped there, never
comes to the abort, and dropping a join handle leaves its task running.
-/
namespace ScribeLocal.Server
open Table Jobs Transition

/-- The processes, each with the heartbeat task it has spawned for a job. -/
structure Tasks where
  sys : Sys
  beats : ℕ → Option Job

def Tasks.start : Tasks := ⟨Sys.start, fun _ => none⟩

/-- Steps of the processes themselves (`stop` ends the worker process and every task in
it), of the heartbeat tasks, and the two ways out of `process_job` that skip its code. -/
inductive TaskLabel where
  | base (a : Label)
  | beat (i : ℕ)
  | beatErr (i : ℕ)
  | panic (i : ℕ)
  | cancel (i : ℕ)

/-- The heartbeat task of a process that is `p` after it has moved by `a`. -/
def beatAfter (old : Option Job) : Label → Proc → Option Job
  | .claim _ _ _ _, .stage job _ => if job.recordingId.isSome then some job else none
  | _, .stage _ _ => old
  | _, _ => none

/-- The tasks once the processes have moved by `a` to `s`. -/
def Tasks.follow (t : Tasks) (a : Label) (s : Sys) : Tasks where
  sys := s
  beats := match a.proc with
    | none => t.beats
    | some i => Function.update t.beats i (beatAfter (t.beats i) a (s.procs i))

/-- `heartbeat` found the row it renews. -/
def landed (t : Jobs) (id : JobId) (w : WorkerId) : Bool :=
  (t.row id).any fun row => row.lockedBy == some w && row.state == .running

def taskStep (cfg : Config) (t : Tasks) : TaskLabel → Option Tasks
  | .base (.heartbeat _) => none
  | .base a => (step cfg t.sys a).map (t.follow a)
  | .beat i =>
    (t.beats i).bind fun job => job.lockedBy.map fun w =>
      { sys := t.sys.setJobs (t.sys.db.jobs.heartbeat t.sys.db.now job.id w)
        -- the task ends itself when its lease is gone
        beats := if landed t.sys.db.jobs job.id w then t.beats
          else Function.update t.beats i none }
  | .beatErr i =>
    (t.beats i).map fun _ => { t with beats := Function.update t.beats i none }
  | .panic i =>
    match t.sys.procs i with
    | .stage _ _ => some { t with sys := t.sys.setProc i (.ended none []) }
    | _ => none
  | .cancel i => some { t with sys := t.sys.setProc i (t.sys.procs i).stopped }

variable {cfg : Config} {t t' : Tasks} {a : TaskLabel} {s s' : Sys} {id : JobId} {w : WorkerId}

theorem taskStep_base {b : Label} (hbeat : ∀ i, b ≠ .heartbeat i) :
    taskStep cfg t (.base b) = (step cfg t.sys b).map (t.follow b) := by
  cases b with
  | heartbeat i => exact absurd rfl (hbeat i)
  | _ => rfl

/-- Everything a step of the tasks can be. -/
inductive TaskMoved (cfg : Config) (t : Tasks) : TaskLabel → Tasks → Prop
  | base {a : Label} {s : Sys} (hbeat : ∀ i, a ≠ .heartbeat i) (hmove : Moved cfg t.sys a s) :
      TaskMoved cfg t (.base a) (t.follow a s)
  | beat {i : ℕ} {job : Job} {w : WorkerId} (hjob : t.beats i = some job)
      (hw : job.lockedBy = some w) :
      TaskMoved cfg t (.beat i)
        { sys := t.sys.setJobs (t.sys.db.jobs.heartbeat t.sys.db.now job.id w)
          beats := if landed t.sys.db.jobs job.id w then t.beats
            else Function.update t.beats i none }
  | beatErr {i : ℕ} {job : Job} (hjob : t.beats i = some job) :
      TaskMoved cfg t (.beatErr i) { t with beats := Function.update t.beats i none }
  | panic {i : ℕ} {job : Job} {body : List Stmt} (hproc : t.sys.procs i = .stage job body) :
      TaskMoved cfg t (.panic i) { t with sys := t.sys.setProc i (.ended none []) }
  | cancel {i : ℕ} :
      TaskMoved cfg t (.cancel i) { t with sys := t.sys.setProc i (t.sys.procs i).stopped }

theorem taskStep_moved (h : taskStep cfg t a = some t') : TaskMoved cfg t a t' := by
  cases a with
  | base a =>
    by_cases hbeat : ∀ i, a ≠ .heartbeat i
    · rw [taskStep_base hbeat] at h
      rcases Option.map_eq_some_iff.mp h with ⟨s, hs, rfl⟩
      exact .base hbeat (step_moved hs)
    · push Not at hbeat
      rcases hbeat with ⟨i, rfl⟩
      cases h
  | beat i =>
    rcases Option.bind_eq_some_iff.mp h with ⟨job, hjob, h⟩
    rcases Option.map_eq_some_iff.mp h with ⟨w, hw, rfl⟩
    exact .beat hjob hw
  | beatErr i =>
    rcases Option.map_eq_some_iff.mp h with ⟨job, hjob, rfl⟩
    exact .beatErr hjob
  | panic i =>
    simp only [taskStep] at h
    split at h
    · rename_i hproc
      cases h
      exact .panic hproc
    · cases h
  | cancel i =>
    cases h
    exact .cancel

/-! ## A heartbeat that is aborted with its stage -/

/-- No process unwinds or is dropped while its heartbeat task runs. -/
def AbortsBeat (t : Tasks) : TaskLabel → Prop
  | .panic i | .cancel i => t.beats i = none
  | _ => True

/-- Each heartbeat task belongs to a stage that has not returned. -/
def Beating (t : Tasks) : Prop :=
  ∀ i job, t.beats i = some job → ∃ body, t.sys.procs i = .stage job body

/-- What a claimed stage does next leaves it at the same job, unless it is over. -/
theorem moved_stage_job {b : Label} (h : Moved cfg s b s') {i : ℕ} {job job' : Job}
    {body body' : List Stmt} (hproc : s.procs i = .stage job body)
    (hproc' : s'.procs i = .stage job' body') : job' = job := by
  by_cases hi : b.proc = some i
  · cases h with
    | tick => cases hi
    | heartbeat =>
      rw [Sys.setJobs_procs, hproc] at hproc'
      cases hproc'
      rfl
    | request q hidle | reaper hidle | claim hidle _ =>
      cases hi
      rw [hproc] at hidle
      cases hidle
    | cmd x hcmd =>
      cases hi
      rw [hproc] at hcmd
      cases hcmd
    | stmt x hstmt hexec =>
      cases hi
      rw [hproc] at hstmt
      rw [Sys.setProc_self] at hproc'
      cases hstmt
      cases hproc'
      rfl
    | stmtErr | bodyDone | stageErr | windowClosed =>
      cases hi
      rw [Sys.setProc_self] at hproc'
      cases hproc'
    | stop =>
      cases hi
      rw [Sys.setProc_self, hproc] at hproc'
      cases hproc'
  · rw [moved_procs_of_ne h hi, hproc] at hproc'
    cases hproc'
    rfl

theorem beatAfter_eq_some {old : Option Job} {b : Label} {p : Proc} {job : Job}
    (h : beatAfter old b p = some job) :
    ∃ job' body, p = .stage job' body ∧
      (old = some job ∨ (∃ i w kinds id, b = .claim i w kinds id) ∧ job = job') := by
  cases p with
  | stage job' body =>
    refine ⟨job', body, rfl, ?_⟩
    cases b with
    | claim i w kinds id =>
      simp only [beatAfter, Option.ite_none_right_eq_some, Option.some.injEq] at h
      exact .inr ⟨⟨i, w, kinds, id, rfl⟩, h.2.symm⟩
    | _ => exact .inl h
  | _ => cases b <;> cases h

theorem beating_moved (hbeat : Beating t) (hok : AbortsBeat t a) (h : TaskMoved cfg t a t') :
    Beating t' := by
  intro i job hjob
  cases h with
  | @base b s hno hmove =>
    by_cases hi : b.proc = some i
    · simp only [Tasks.follow, hi, Function.update_self] at hjob
      rcases beatAfter_eq_some hjob with ⟨job', body, hproc, hold | ⟨-, rfl⟩⟩
      · rcases hbeat i job hold with ⟨body₀, hproc₀⟩
        have hsame : job' = job := moved_stage_job hmove hproc₀ hproc
        exact ⟨body, hsame ▸ hproc⟩
      · exact ⟨body, hproc⟩
    · have hold : t.beats i = some job := by
        cases hb : b.proc with
        | none => simpa [Tasks.follow, hb] using hjob
        | some k =>
          have hne : i ≠ k := by
            rintro rfl
            exact hi hb
          simpa [Tasks.follow, hb, hne] using hjob
      change ∃ body, s.procs i = .stage job body
      rw [moved_procs_of_ne hmove hi]
      exact hbeat i job hold
  | @beat k job' w hk hw =>
    apply hbeat i job
    by_cases hi : i = k
    · subst hi
      by_cases hland : landed t.sys.db.jobs job'.id w = true
      · simpa [hland] using hjob
      · simp [hland] at hjob
    · by_cases hland : landed t.sys.db.jobs job'.id w = true
      · simpa [hland] using hjob
      · simpa [hland, hi] using hjob
  | @beatErr k job' hk =>
    apply hbeat i job
    by_cases hi : i = k
    · subst hi
      simp at hjob
    · simpa [hi] using hjob
  | @panic k job' body hproc =>
    have hne : i ≠ k := by
      rintro rfl
      rw [show t.beats i = none from hok] at hjob
      cases hjob
    rcases hbeat i job hjob with ⟨body', hproc'⟩
    exact ⟨body', (Sys.setProc_of_ne hne).trans hproc'⟩
  | @cancel k =>
    have hne : i ≠ k := by
      rintro rfl
      rw [show t.beats i = none from hok] at hjob
      cases hjob
    rcases hbeat i job hjob with ⟨body', hproc'⟩
    exact ⟨body', (Sys.setProc_of_ne hne).trans hproc'⟩

theorem beating_start : Beating Tasks.start := by
  intro i job h
  cases h

theorem beating_run {tr : List TaskLabel} (h : Run (taskStep cfg) AbortsBeat Tasks.start tr t) :
    Beating t :=
  h.invariant beating_start fun _ _ _ hbeat hok hs => beating_moved hbeat hok (taskStep_moved hs)

/-- As long as every heartbeat is aborted with its stage, the processes and their heartbeat
tasks do what the processes alone do, renewing their lease inside the stage. -/
theorem sys_of_abortsBeat {tr : List TaskLabel}
    (h : Run (taskStep cfg) AbortsBeat Tasks.start tr t) :
    ∃ tr', Run (step cfg) anyStep Sys.start tr' t.sys := by
  apply h.simulates (I := Beating) (f := Tasks.sys) beating_start
  · exact fun _ _ _ hbeat hok hs => beating_moved hbeat hok (taskStep_moved hs)
  · intro t a t' hbeat hok hs
    cases a with
    | base b =>
      by_cases hno : ∀ i, b ≠ .heartbeat i
      · rw [taskStep_base hno] at hs
        rcases Option.map_eq_some_iff.mp hs with ⟨s, hone, rfl⟩
        exact run_one trivial hone
      · push Not at hno
        rcases hno with ⟨i, rfl⟩
        cases hs
    | beat i =>
      rcases Option.bind_eq_some_iff.mp hs with ⟨job, hjob, hs⟩
      rcases Option.map_eq_some_iff.mp hs with ⟨w, hw, rfl⟩
      rcases hbeat i job hjob with ⟨body, hproc⟩
      have hstep : step cfg t.sys (.heartbeat i) =
          some (t.sys.setJobs (t.sys.db.jobs.heartbeat t.sys.db.now job.id w)) := by
        simp [step, hproc, hw]
      exact run_one trivial hstep
    | beatErr i =>
      rcases Option.map_eq_some_iff.mp hs with ⟨job, hjob, rfl⟩
      exact ⟨[], .nil⟩
    | panic i =>
      cases taskStep_moved hs with
      | @panic _ job body hproc =>
        have hstep : step cfg t.sys (.stop i) = some (t.sys.setProc i (.ended none [])) := by
          rw [step, hproc]
          rfl
        exact run_one trivial hstep
    | cancel i =>
      cases hs
      exact run_one (a := .stop i) trivial rfl

/-! ## A running row comes from a claim -/

private theorem running_of_update {t t' : Jobs} {p : Job → Bool} {f : Job → Job} (hf : Keeps f)
    (hrows : t'.rows = updateWhere p f t.rows) (hstate : ∀ j, (f j).state ≠ .running) {row : Job}
    (hrow : t'.row id = some row) (hrun : row.state = .running) : t.row id = some row := by
  rw [row_of_rows hf hrows] at hrow
  rcases Option.map_eq_some_iff.mp hrow with ⟨old, hold, rfl⟩
  cases hp : p old with
  | true =>
    rw [updateRow_of_pos hp] at hrun
    exact absurd hrun (hstate old)
  | false => rwa [updateRow_of_neg hp]

theorem reaped_state_ne {now : Time} {m : ℕ} (j : Job) : (reaped now m j).state ≠ .running := by
  unfold reaped
  split <;> simp

private theorem running_of_reapStuck {t : Jobs} {now lease : Time} {m : ℕ} {row : Job}
    (hrow : (t.reapStuck now lease m).row id = some row) (hrun : row.state = .running) :
    t.row id = some row := by
  have hrows : (t.reapStuck now lease m).rows =
      updateWhere (stuck now lease) (reaped now m) t.rows := rfl
  exact running_of_update keeps_reaped hrows reaped_state_ne hrow hrun

theorem failed_state_ne {now : Time} {error : String} {n m : ℕ} {backoff : Time} (j : Job) :
    (failed now error n m backoff j).state ≠ .running := by
  rw [failed_state]
  split <;> simp

/-- No command of a handler, a report or the reaper makes a row `running`. -/
theorem exec_running {c : Cmd} {x : Heard} {db : Db} {row : Job}
    (hrow : (c.exec cfg x db).1.jobs.row id = some row) (hrun : row.state = .running) :
    db.jobs.row id = some row := by
  cases c with
  | insertJob r k payload strict =>
    simp only [Cmd.exec] at hrow
    split at hrow
    · exact hrow
    · rcases hins : db.jobs.insert db.now r k payload 0 with ⟨_ | j, t⟩
      · rw [hins] at hrow
        exact (row_insert_conflict hins).symm.trans hrow
      · rw [hins] at hrow
        rcases row_insert hins id with ⟨rfl, hids⟩
        rw [hids] at hrow
        split at hrow
        · cases hrow
          cases hrun
        · exact hrow
  | resetForReprocess r =>
    simp only [Cmd.exec] at hrow
    split at hrow
    · exact (row_delete.mp hrow).1
    · exact hrow
  | resetForRediarize r =>
    simp only [Cmd.exec] at hrow
    split at hrow
    · exact hrow
    · split at hrow
      · exact (row_delete.mp hrow).1
      · exact hrow
  | completeJob job =>
    have hrows : (db.jobs.complete db.now job.id).rows =
        updateWhere (·.id == job.id) (completed db.now) db.jobs.rows := rfl
    exact running_of_update keeps_completed hrows (by simp [completed]) hrow hrun
  | reapStuck =>
    exact running_of_reapStuck hrow hrun
  | failUpdate job error n =>
    simp only [Cmd.exec] at hrow
    split at hrow
    · exact hrow
    · rename_i hwrite
      exact running_of_update keeps_failed (failWrite_eq_some hwrite).2.2 failed_state_ne hrow hrun
    · rename_i hwrite
      exact running_of_update keeps_failed (failWrite_eq_some hwrite).2.2 failed_state_ne hrow hrun
  | deferJob job delay =>
    simp only [Cmd.exec] at hrow
    split at hrow
    · exact hrow
    · rename_i t hdefer
      exact running_of_update keeps_deferred (tryUpdate_rows hdefer).1 (by simp [deferred]) hrow hrun
  | _ =>
    simp only [Cmd.exec, fetched] at hrow
    first
    | exact hrow
    | split at hrow <;> exact hrow

/-- The label claims the job. -/
def Label.Claims (id : JobId) : Label → Prop
  | .claim _ _ _ id' => id' = id
  | _ => False

theorem moved_running {b : Label} (h : Moved cfg s b s') (hbeat : ∀ i, b ≠ .heartbeat i)
    (hclaim : ¬ b.Claims id) {row : Job} (hrow : s'.db.jobs.row id = some row)
    (hrun : row.state = .running) : s.db.jobs.row id = some row := by
  cases h with
  | claim hidle hone =>
    rcases claimOne_eq_some hone with ⟨j₀, -, -, -, hrows⟩
    change _ = some row at hrow
    rw [Sys.setProc_db, Sys.setJobs_jobs, show _ = _ from hrows id,
      if_neg fun heq => hclaim heq.symm] at hrow
    exact hrow
  | heartbeat => exact absurd rfl (hbeat _)
  | cmd x hproc => exact exec_running hrow hrun
  | _ => exact hrow

/-- A heartbeat changes no owner, and no row but the one its worker has locked. -/
theorem row_heartbeat {t : Jobs} {now : Time} {id' : JobId} {w' : WorkerId} {row : Job}
    (hrow : (t.heartbeat now id' w').row id = some row) :
    ∃ old, t.row id = some old ∧ row.state = old.state ∧
      (row = old ∨ id' = id ∧ old.lockedBy = some w') := by
  rw [heartbeat, row_update] at hrow
  rcases Option.map_eq_some_iff.mp hrow with ⟨old, hold, rfl⟩
  refine ⟨old, hold, ?_⟩
  have hid := (row_eq_some.mp hold).2
  unfold updateRow
  split
  · rename_i hp
    simp only [Bool.and_eq_true, beq_iff_eq] at hp
    exact ⟨rfl, .inr ⟨hp.1.1.symm.trans hid, hp.1.2⟩⟩
  · exact ⟨rfl, .inl rfl⟩

/-! ## The lease of a job whose stage is over -/

/-- The label claims the job again. -/
def TaskLabel.Claims (id : JobId) : TaskLabel → Prop
  | .base a => a.Claims id
  | _ => False

/-- Worker `w` is still at a stage of the job. -/
def AtWork (s : Sys) (id : JobId) (w : WorkerId) : Prop :=
  ∃ i job body, s.procs i = .stage job body ∧ job.id = id ∧ job.lockedBy = some w

/-- The row says that worker `w` has run the job since `τ`. -/
def LockedSince (s : Sys) (id : JobId) (w : WorkerId) (τ : Time) : Prop :=
  ∃ row, s.db.jobs.row id = some row ∧ row.state = .running ∧ row.lockedBy = some w ∧
    row.lockedAt = some τ

/-- Nobody renews the lease of worker `w` any more, and the row either says so or has been
taken back. -/
structure Unrenewed (t : Tasks) (id : JobId) (w : WorkerId) (τ : Time) : Prop where
  beats : ∀ i job, t.beats i = some job → job.id = id → job.lockedBy ≠ some w
  row : ∀ row, t.sys.db.jobs.row id = some row → row.state = .running →
    row.lockedBy = some w ∧ row.lockedAt = some τ

theorem unrenewed_of_over (hbeat : Beating t) {τ : Time} (hover : ¬ AtWork t.sys id w)
    (hrow : LockedSince t.sys id w τ) : Unrenewed t id w τ where
  beats i job hjob hid hw := by
    rcases hbeat i job hjob with ⟨body, hproc⟩
    exact hover ⟨i, job, body, hproc, hid, hw⟩
  row row hrow' hrun := by
    rcases hrow with ⟨row₀, hrow₀, -, hby, hat⟩
    have hsame : row₀ = row := Option.some.inj (hrow₀.symm.trans hrow')
    exact ⟨hsame ▸ hby, hsame ▸ hat⟩

/-- A heartbeat task that runs after a step is one that ran before it or has just been
spawned by a claim. -/
theorem taskMoved_beats (h : TaskMoved cfg t a t') {i : ℕ} {job : Job}
    (hjob : t'.beats i = some job) :
    t.beats i = some job ∨
      ∃ w kinds u, a = .base (.claim i w kinds job.id) ∧
        t.sys.db.jobs.claimOne t.sys.db.now w kinds job.id = some (job, u) := by
  cases h with
  | @base b s hno hmove =>
    by_cases hi : b.proc = some i
    · simp only [Tasks.follow, hi, Function.update_self] at hjob
      rcases beatAfter_eq_some hjob with ⟨job', body, hproc, hold | ⟨⟨k, w, kinds, id', rfl⟩, rfl⟩⟩
      · exact .inl hold
      · right
        cases hmove with
        | @claim _ _ _ _ j u hidle hone =>
          cases hi
          rw [Sys.setProc_self] at hproc
          cases hproc
          rcases claimOne_eq_some hone with ⟨j₀, hrow, -, hj, -⟩
          have hid : job.id = id' := by
            rw [show job = _ from hj]
            exact (row_eq_some.mp hrow).2
          subst hid
          exact ⟨w, kinds, u, rfl, hone⟩
    · left
      cases hb : b.proc with
      | none => simpa [Tasks.follow, hb] using hjob
      | some k =>
        have hne : i ≠ k := by
          rintro rfl
          exact hi hb
        simpa [Tasks.follow, hb, hne] using hjob
  | @beat k job' w hk hw =>
    left
    by_cases hland : landed t.sys.db.jobs job'.id w = true
    · simpa [hland] using hjob
    · by_cases hi : i = k
      · subst hi
        simp [hland] at hjob
      · simpa [hland, hi] using hjob
  | @beatErr k job' hk =>
    left
    by_cases hi : i = k
    · subst hi
      simp at hjob
    · simpa [hi] using hjob
  | panic | cancel => exact .inl hjob

theorem unrenewed_moved {τ : Time} (hun : Unrenewed t id w τ) (hclaim : ¬ a.Claims id)
    (h : TaskMoved cfg t a t') : Unrenewed t' id w τ := by
  constructor
  · intro i job hjob hid
    rcases taskMoved_beats h hjob with hold | ⟨w', kinds, u, rfl, -⟩
    · exact hun.beats i job hold hid
    · exact absurd hid hclaim
  · intro row hrow hrun
    cases h with
    | base hno hmove => exact hun.row row (moved_running hmove hno hclaim hrow hrun) hrun
    | @beat k job w' hk hw =>
      rcases row_heartbeat hrow with ⟨old, hold, hstate, heq | ⟨hid, hby⟩⟩
      · exact hun.row row (heq ▸ hold) hrun
      · have hlocked := hun.row old hold (hstate ▸ hrun)
        have hw' : w' = w := Option.some.inj (hby.symm.trans hlocked.1)
        exact absurd (hw' ▸ hw) (hun.beats k job hk hid)
    | _ => exact hun.row row hrow hrun

/-- When a lease ends with its stage: no heartbeat task changes a row after its stage is
over, and a job that a worker left `running` keeps its `locked_at` until it is claimed
again, so that a reap after the lease time takes it back. -/
def LeaseEnds (cfg : Config) (ok : Tasks → TaskLabel → Prop) (t : Tasks) : Prop :=
  (∀ i t', (∀ job body, t.sys.procs i ≠ .stage job body) →
    taskStep cfg t (.beat i) = some t' → t'.sys.db.jobs.rows = t.sys.db.jobs.rows) ∧
  (∀ id w τ, ¬ AtWork t.sys id w → LockedSince t.sys id w τ →
    ∀ tr t', Run (taskStep cfg) (fun t a => ok t a ∧ ¬ a.Claims id) t tr t' →
      (∀ row, t'.sys.db.jobs.row id = some row → row.state = .running → row.lockedAt = some τ) ∧
      (τ + cfg.lease < t'.sys.db.now →
        ∀ k x rest t'', t'.sys.procs k = .todo (.reapStuck :: rest) →
          taskStep cfg t' (.base (.step k x)) = some t'' →
          ∀ row, t''.sys.db.jobs.row id = some row → row.state ≠ .running))

/-- A reap leaves no row running whose lease time is over. -/
theorem row_reapStuck {u : Jobs} {now lease : Time} {m : ℕ} {row : Job} {τ : Time}
    (hlocked : ∀ row, u.row id = some row → row.state = .running → row.lockedAt = some τ)
    (hlate : τ + lease < now) (hrow : (u.reapStuck now lease m).row id = some row) :
    row.state ≠ .running := by
  intro hrun
  have hold : u.row id = some row :=
    running_of_reapStuck hrow hrun
  have hstuck : stuck now lease row = true := by
    simp [stuck, hrun, hlocked row hold hrun, hlate]
  rw [reapStuck, row_update, hold, Option.map_some, updateRow_of_pos hstuck] at hrow
  exact reaped_state_ne row (by rwa [Option.some.inj hrow])

/-- In every run in which no process unwinds or is dropped while its heartbeat task runs,
a lease ends with its stage. -/
theorem leaseEnds_of_abortsBeat {tr : List TaskLabel}
    (h : Run (taskStep cfg) AbortsBeat Tasks.start tr t) : LeaseEnds cfg AbortsBeat t := by
  have hbeat : Beating t := beating_run h
  constructor
  · intro i t' hover hstep
    cases taskStep_moved hstep with
    | @beat _ job w hjob hw =>
      rcases hbeat i job hjob with ⟨body, hproc⟩
      exact absurd hproc (hover job body)
  · intro id w τ hover hlocked tr' t' hrun
    have hun : Unrenewed t' id w τ :=
      hrun.invariant (unrenewed_of_over hbeat hover hlocked) fun t a t' hun hok hs =>
        unrenewed_moved hun hok.2 (taskStep_moved hs)
    have hkept (row : Job) (hrow : t'.sys.db.jobs.row id = some row)
        (hrun : row.state = .running) : row.lockedAt = some τ := (hun.row row hrow hrun).2
    refine ⟨hkept, fun hlate k x rest t'' hproc hstep row hrow => ?_⟩
    cases taskStep_moved hstep with
    | base hno hmove =>
      obtain rfl := next_of_todo hmove hproc
      exact row_reapStuck hkept hlate hrow

/-- Recording 7 is completed and worker 1 claims its transcode job (process 2). -/
def claimedRun : List Label :=
  [Label.request 0 (.create 7), .step 0 {}, .request 1 (.complete 7 none none)] ++ steps 1 4 ++
    [Label.claim 2 1 [.transcode] 1]

/-- The transcode stage panics; its heartbeat task ticks again fifteen seconds later. -/
def panickedRun : List TaskLabel :=
  claimedRun.map .base ++ [TaskLabel.panic 2, .base (.tick 15000000)]

def panickedState : Tasks := (exec (taskStep {}) Tasks.start panickedRun).get (by decide +kernel)

theorem not_leaseEnds :
    ¬ ∀ (tr : List TaskLabel) (t : Tasks),
      Run (taskStep {}) anyStep Tasks.start tr t → LeaseEnds {} anyStep t := by
  intro h
  have hended : panickedState.sys.procs 2 = .ended none [] := by decide +kernel
  have hbeat : ((taskStep {} panickedState (.beat 2)).map fun t' => t'.sys.db.jobs.rows) ≠
      some panickedState.sys.db.jobs.rows ∧
      (taskStep {} panickedState (.beat 2)).isSome = true := by decide +kernel
  rcases Option.isSome_iff_exists.mp hbeat.2 with ⟨t', ht'⟩
  have hover (job : Job) (body : List Stmt) : panickedState.sys.procs 2 ≠ .stage job body := by
    rw [hended]
    simp
  have hrows : t'.sys.db.jobs.rows = panickedState.sys.db.jobs.rows :=
    (h panickedRun panickedState (run_of_isSome _)).1 2 t' hover ht'
  apply hbeat.1
  rw [ht', Option.map_some, hrows]

/-- The worker dies instead, with every task in it. -/
def diedRun : List TaskLabel := claimedRun.map .base ++ [TaskLabel.base (.stop 2)]

def diedState : Tasks := (exec (taskStep {}) Tasks.start diedRun).get (by decide +kernel)

/-- The lease time passes and the reaper is about to scan. -/
def lateRun : List TaskLabel := [.base (.tick 45000001), .base (.reaper 3)]

def lateState : Tasks := (exec (taskStep {}) diedState lateRun).get (by decide +kernel)

theorem lockedSince_diedState : LockedSince diedState.sys 1 1 0 := by
  have hrow : ((diedState.sys.db.jobs.row 1).map fun row =>
      (row.state, row.lockedBy, row.lockedAt)) = some (.running, some 1, some 0) := by
    decide +kernel
  rcases Option.map_eq_some_iff.mp hrow with ⟨row, hrow, heq⟩
  simp only [Prod.mk.injEq] at heq
  exact ⟨row, hrow, heq.1, heq.2.1, heq.2.2⟩

theorem not_atWork_diedState : ¬ AtWork diedState.sys 1 1 := by
  rintro ⟨i, job, body, hproc, -⟩
  have hno : ∀ k < 3, (diedState.sys.procs k).job? = none := by decide +kernel
  by_cases hi : i < 3
  · have hnone := hno i hi
    rw [hproc] at hnone
    cases hnone
  · obtain ⟨n, rfl⟩ : ∃ n, i = n + 3 := ⟨i - 3, by omega⟩
    have hidle : diedState.sys.procs (n + 3) = .idle := rfl
    rw [hidle] at hproc
    cases hproc

theorem leaseEnds_of_abortsBeat_diedState : LeaseEnds {} AbortsBeat diedState ∧
    ∀ t, taskStep {} lateState (.base (.step 3 {})) = some t →
      ∀ row, t.sys.db.jobs.row 1 = some row → row.state ≠ .running := by
  have hrun : Run (taskStep {}) AbortsBeat Tasks.start diedRun diedState := by
    apply run_of_allowed (Option.some_get _).symm
    intro a ha _
    simp only [diedRun, List.mem_append, List.mem_map, List.mem_singleton] at ha
    rcases ha with ⟨b, -, rfl⟩ | rfl
    · trivial
    · trivial
  have hlate : Run (taskStep {}) (fun t a => AbortsBeat t a ∧ ¬ a.Claims 1) diedState lateRun
      lateState := by
    apply run_of_allowed (Option.some_get _).symm
    intro a ha _
    simp only [lateRun, List.mem_cons, List.not_mem_nil, or_false] at ha
    rcases ha with rfl | rfl
    · exact ⟨trivial, id⟩
    · exact ⟨trivial, id⟩
  have hends := leaseEnds_of_abortsBeat hrun
  refine ⟨hends, fun t hstep => ?_⟩
  have hafter := hends.2 1 1 0 not_atWork_diedState lockedSince_diedState lateRun lateState hlate
  exact hafter.2 (by decide +kernel) 3 {} [] t (by decide +kernel) hstep

end ScribeLocal.Server
