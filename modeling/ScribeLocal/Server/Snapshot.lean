import ScribeLocal.Server.Follows

/-! # What a process remembers of its job

A worker carries the row its claim returned for as long as the stage runs. The key
columns of that row never change under it, and the id is never given to another row.
-/
namespace ScribeLocal
open Table

namespace Jobs

/-- `t'` comes after `t`: ids are not reused and key columns keep their values. -/
structure Extends (t t' : Jobs) : Prop where
  nextId_le : t.nextId ≤ t'.nextId
  row_of_row : ∀ id < t.nextId, ∀ j', t'.row id = some j' →
    ∃ j, t.row id = some j ∧ j'.kind = j.kind ∧ j'.recordingId = j.recordingId

variable {t t' : Jobs} {p : Job → Bool} {f : Job → Job} {now : Time}

theorem Extends.refl (t : Jobs) : t.Extends t := ⟨le_rfl, fun _ _ j h => ⟨j, h, rfl, rfl⟩⟩

theorem extends_update (hf : Keeps f) (hnext : t'.nextId = t.nextId)
    (hrows : t'.rows = updateWhere p f t.rows) : t.Extends t' := by
  apply Extends.mk hnext.ge
  intro id _ j' hj'
  rw [row_of_rows hf hrows] at hj'
  rcases Option.map_eq_some_iff.mp hj' with ⟨j, hj, rfl⟩
  exact ⟨j, hj, column_updateRow hf.kind j, column_updateRow hf.recordingId j⟩

theorem extends_tryUpdate {hf : Keeps f} (h : t.tryUpdate p f hf = some t') : t.Extends t' :=
  extends_update hf (tryUpdate_rows h).2 (tryUpdate_rows h).1

theorem row_delete {id : JobId} {j : Job} :
    (t.delete p).row id = some j ↔ t.row id = some j ∧ p j = false := by
  rw [row_eq_some, row_eq_some]
  change j ∈ deleteWhere p t.rows ∧ j.id = id ↔ _
  rw [mem_deleteWhere]
  tauto

theorem extends_delete : t.Extends (t.delete p) :=
  ⟨le_rfl, fun _ _ j h => ⟨j, (row_delete.mp h).1, rfl, rfl⟩⟩

theorem insert_nextId {r : Uuid} {k : JobKind} {payload : Payload} {priority : ℤ} :
    (t.insert now r k payload priority).2.nextId = t.nextId + 1 := by
  unfold insert
  split <;> rfl

theorem row_insert_of_lt {r : Uuid} {k : JobKind} {payload : Payload} {priority : ℤ} {id : JobId}
    (hid : id ≠ t.nextId) : (t.insert now r k payload priority).2.row id = t.row id := by
  rcases hins : t.insert now r k payload priority with ⟨_ | j, t'⟩
  · exact row_insert_conflict hins
  · rw [(row_insert hins id).2, if_neg hid]

theorem extends_insert {r : Uuid} {k : JobKind} {payload : Payload} {priority : ℤ} :
    t.Extends (t.insert now r k payload priority).2 := by
  apply Extends.mk
  · rw [insert_nextId]
    exact Nat.le_succ _
  · intro id hid j hj
    rw [row_insert_of_lt (Nat.ne_of_lt hid)] at hj
    exact ⟨j, hj, rfl, rfl⟩

theorem extends_claimOne {w : WorkerId} {kinds : List JobKind} {id : JobId} {x : Job × Jobs}
    (h : t.claimOne now w kinds id = some x) : t.Extends x.2 := by
  unfold claimOne at h
  split at h
  · cases h
  · split at h
    · cases h
      exact extends_update keeps_claimed rfl rfl
    · cases h

theorem extends_failWrite {id : JobId} {error : String} {n m : ℕ} {backoff : Time}
    {x : Bool × Jobs} (h : t.failWrite now id error n m backoff = some x) : t.Extends x.2 :=
  extends_update keeps_failed (failWrite_eq_some h).2.1 (failWrite_eq_some h).2.2

end Jobs

namespace Server
open Jobs Transition

variable {cfg : Config} {s s' : Sys} {a : Label} {x : Heard} {db : Db} {job : Job}

theorem exec_extends (c : Cmd) : db.jobs.Extends (c.exec cfg x db).1.jobs := by
  cases c with
  | insertJob r k payload strict =>
    simp only [Cmd.exec]
    split
    · exact .refl _
    · have hext : db.jobs.Extends (db.jobs.insert db.now r k payload 0).2 := extends_insert
      rcases hins : db.jobs.insert db.now r k payload 0 with ⟨_ | j, t⟩
      · rwa [hins] at hext
      · rwa [hins] at hext
  | resetForReprocess r =>
    simp only [Cmd.exec]
    split
    · exact extends_delete
    · exact .refl _
  | resetForRediarize r =>
    simp only [Cmd.exec]
    split
    · exact .refl _
    · split
      · exact extends_delete
      · exact .refl _
  | completeJob job => exact extends_update keeps_completed rfl rfl
  | reapStuck => exact extends_update keeps_reaped rfl rfl
  | failUpdate job error n =>
    simp only [Cmd.exec]
    split
    · exact .refl _
    · rename_i h
      exact extends_failWrite h
    · rename_i h
      exact extends_failWrite h
  | deferJob job delay =>
    simp only [Cmd.exec]
    split
    · exact .refl _
    · rename_i h
      exact extends_tryUpdate h
  | _ =>
    simp only [Cmd.exec, fetched]
    first
    | exact .refl _
    | split <;> exact .refl _

theorem moved_extends (h : Moved cfg s a s') : s.db.jobs.Extends s'.db.jobs := by
  cases h with
  | claim _ hclaim => exact extends_claimOne hclaim
  | cmd x => exact exec_extends _
  | heartbeat => exact extends_update keeps_renewed rfl rfl
  | _ => exact .refl _

/-- The job a command reports on. -/
def Cmd.job? : Cmd → Option Job
  | .completeJob job | .failSelect job _ | .failUpdate job _ _ | .deferJob job _ => some job
  | _ => none

/-- The job a process runs a stage of, or is about to report on. -/
def Proc.job? : Proc → Option Job
  | .stage job _ => some job
  | .todo (c :: _) => c.job?
  | _ => none

/-- A report is always the last thing on a process's list. -/
def Proc.Tidy : Proc → Prop
  | .todo (_ :: rest) => ∀ c ∈ rest, c.job? = none
  | _ => True

structure Snapshot (s : Sys) : Prop where
  tidy : ∀ i, (s.procs i).Tidy
  id_lt : ∀ i job, (s.procs i).job? = some job → job.id < s.db.jobs.nextId
  columns : ∀ i job row, (s.procs i).job? = some job → s.db.jobs.row job.id = some row →
    row.kind = job.kind ∧ row.recordingId = job.recordingId

/-- The commands that follow a command report on no job, but for `fail`'s `UPDATE`. -/
theorem exec_next {c : Cmd} {cs : List Cmd} (h : (c.exec cfg x db).2 = .next cs) :
    (∀ c' ∈ cs, c'.job? = none) ∨
      ∃ job error n, c = .failSelect job error ∧ cs = [.failUpdate job error n] := by
  by_cases hfail : ∃ job error, c = .failSelect job error
  · rcases hfail with ⟨job, error, rfl⟩
    simp only [Cmd.exec] at h
    split at h
    · cases h
    · cases h
      exact .inr ⟨job, error, _, rfl, rfl⟩
  · left
    intro c' hc'
    cases exec_follows h hc' with
    | fail => exact absurd ⟨_, _, rfl⟩ hfail
    | _ => rfl

/-- After a command the process is tidy again, and holds the job it held before or none. -/
theorem advance_job {c : Cmd} {rest : List Cmd} (htidy : (Proc.todo (c :: rest)).Tidy) :
    (advance rest (c.exec cfg x db).2).Tidy ∧
      ∀ job, (advance rest (c.exec cfg x db).2).job? = some job →
        c.job? = some job ∧ ∃ error, c = .failSelect job error := by
  cases hflow : (c.exec cfg x db).2 with
  | reply code => exact ⟨trivial, fun _ h => nomatch h⟩
  | abort => exact ⟨trivial, fun _ h => nomatch h⟩
  | next cs =>
    rcases exec_next hflow with hcs | ⟨job, error, n, rfl, rfl⟩
    · have hall : ∀ c' ∈ cs ++ rest, c'.job? = none := by
        intro c' hc'
        rcases List.mem_append.mp hc' with hc' | hc'
        · exact hcs c' hc'
        · exact htidy c' hc'
      simp only [advance]
      generalize cs ++ rest = l at hall
      cases l with
      | nil => exact ⟨trivial, fun _ h => nomatch h⟩
      | cons c₁ l =>
        constructor
        · exact fun c' hc' => hall c' (List.mem_cons_of_mem _ hc')
        · intro job h
          simp [Proc.job?, hall c₁ List.mem_cons_self] at h
    · refine ⟨htidy, fun job' h => ?_⟩
      cases h
      exact ⟨rfl, error, rfl⟩

/-- A process holds after a step the job it held before, unless it has just claimed it. -/
theorem moved_job (hs : Snapshot s) (h : Moved cfg s a s') {i : ℕ}
    (hjob : (s'.procs i).job? = some job) :
    (s.procs i).job? = some job ∨ ∃ w kinds t,
      a = .claim i w kinds job.id ∧ s.db.jobs.claimOne s.db.now w kinds job.id = some (job, t) := by
  cases h with
  | tick => exact .inl hjob
  | heartbeat => exact .inl hjob
  | @request k q hidle =>
    by_cases hik : i = k
    · subst hik
      rw [Sys.setProc_self] at hjob
      cases q <;> cases hjob
    · rw [Sys.setProc_of_ne hik] at hjob
      exact .inl hjob
  | @reaper k =>
    by_cases hik : i = k
    · subst hik
      rw [Sys.setProc_self] at hjob
      cases hjob
    · rw [Sys.setProc_of_ne hik] at hjob
      exact .inl hjob
  | @claim k w kinds id j t hidle hclaim =>
    by_cases hik : i = k
    · subst hik
      rw [Sys.setProc_self] at hjob
      cases hjob
      rcases claimOne_eq_some hclaim with ⟨j₀, hrow, -, hj, -⟩
      have hid : job.id = id := by
        change job = claimed s.db.now w j₀ at hj
        rw [hj]
        exact (row_eq_some.mp hrow).2
      rw [hid]
      exact .inr ⟨w, kinds, t, rfl, hclaim⟩
    · rw [Sys.setProc_of_ne hik] at hjob
      exact .inl hjob
  | @cmd k c rest x hproc =>
    by_cases hik : i = k
    · subst hik
      rw [Sys.setProc_self] at hjob
      have htidy := hs.tidy i
      rw [hproc] at htidy ⊢
      exact .inl ((advance_job htidy).2 job hjob).1
    · rw [Sys.setProc_of_ne hik] at hjob
      exact .inl hjob
  | @stop k =>
    by_cases hik : i = k
    · subst hik
      rw [Sys.setProc_self] at hjob
      cases hp : s.procs i <;> rw [hp] at hjob <;> cases hjob
    · rw [Sys.setProc_of_ne hik] at hjob
      exact .inl hjob
  | @stmt k _ _ _ _ _ _ hproc | @stmtErr k _ _ _ _ hproc | @bodyDone k _ _ hproc
  | @stageErr k _ _ _ hproc | @windowClosed k _ _ _ hproc =>
    by_cases hik : i = k
    · subst hik
      rw [Sys.setProc_self] at hjob
      cases hjob
      rw [hproc]
      exact .inl rfl
    · rw [Sys.setProc_of_ne hik] at hjob
      exact .inl hjob

theorem snapshot_start : Snapshot Sys.start where
  tidy _ := trivial
  id_lt _ _ h := nomatch h
  columns _ _ _ h := nomatch h

theorem moved_tidy (hs : Snapshot s) (h : Moved cfg s a s') (i : ℕ) : (s'.procs i).Tidy := by
  have hkeep {k : ℕ} {p : Proc} {s₁ : Sys} (hprocs : s₁.procs = s.procs) (hp : p.Tidy) :
      ((s₁.setProc k p).procs i).Tidy := by
    by_cases hik : i = k
    · rw [hik, Sys.setProc_self]
      exact hp
    · rw [Sys.setProc_of_ne hik, hprocs]
      exact hs.tidy i
  cases h with
  | tick => exact hs.tidy i
  | heartbeat => exact hs.tidy i
  | @cmd k c rest x hproc =>
    have htidy := hs.tidy k
    rw [hproc] at htidy
    exact hkeep rfl (advance_job htidy).1
  | @stop k =>
    apply hkeep rfl
    cases s.procs k <;> trivial
  | claim | stmt => exact hkeep rfl trivial
  | request | reaper | stmtErr | bodyDone | stageErr | windowClosed =>
    exact hkeep rfl fun c hc => nomatch hc

theorem snapshot_moved (hs : Snapshot s) (h : Moved cfg s a s') : Snapshot s' := by
  have hext := moved_extends h
  have hknown (i : ℕ) (job : Job) (hjob : (s'.procs i).job? = some job) :
      job.id < s.db.jobs.nextId ∧ ∀ row, s.db.jobs.row job.id = some row →
        row.kind = job.kind ∧ row.recordingId = job.recordingId := by
    rcases moved_job hs h hjob with hjob | ⟨w, kinds, t, -, hclaim⟩
    · exact ⟨hs.id_lt i job hjob, fun row => hs.columns i job row hjob⟩
    · rcases claimOne_eq_some hclaim with ⟨j₀, hrow, -, hj, -⟩
      change job = claimed s.db.now w j₀ at hj
      have hmem := row_eq_some.mp hrow
      refine ⟨hmem.2 ▸ s.db.jobs.id_lt j₀ hmem.1, fun row hrow' => ?_⟩
      rw [hrow] at hrow'
      cases hrow'
      rw [hj]
      exact ⟨rfl, rfl⟩
  constructor
  · exact moved_tidy hs h
  · intro i job hjob
    exact (hknown i job hjob).1.trans_le hext.nextId_le
  · intro i job row hjob hrow
    rcases hknown i job hjob with ⟨hlt, hcols⟩
    rcases hext.row_of_row job.id hlt row hrow with ⟨row₀, hrow₀, hk, hr⟩
    have hcol := hcols row₀ hrow₀
    exact ⟨hk.trans hcol.1, hr.trans hcol.2⟩

end Server

end ScribeLocal
