import ScribeLocal.Server.Snapshot

/-! # Lease ownership

`heartbeat` renews only a lease its worker still holds; `complete`, `fail` and
`defer` write `WHERE id = $1`. They are safe as long as the reaper takes back only
jobs whose worker has stopped, which is what its lease of three heartbeats is for.
-/
namespace ScribeLocal.Server
open Table Jobs Transition

variable {cfg : Config} {s s' : Sys} {a : Label} {x : Heard} {db : Db} {job : Job}

/-- Process `i` runs a stage of `job` or is about to report on it. -/
def Holds (s : Sys) (i : ℕ) (job : Job) : Prop := (s.procs i).job? = some job

/-- The row says that the worker of `job` has its lease. -/
def Leases (row job : Job) : Prop := row.state = .running ∧ row.lockedBy = job.lockedBy

/-- Process `i` holds `job`, but its lease was taken back. -/
def LeaseLost (s : Sys) (i : ℕ) (job : Job) : Prop :=
  Holds s i job ∧ ∃ row, s.db.jobs.row job.id = some row ∧ ¬ Leases row job

/-- A reap takes back only jobs that no process holds any more. -/
def ReapsDead (cfg : Config) (s : Sys) : Label → Prop
  | .step i _ => ∀ rest, s.procs i = .todo (.reapStuck :: rest) → ∀ row ∈ s.db.jobs.rows,
      stuck s.db.now cfg.lease row = true → ∀ k job, Holds s k job → job.id ≠ row.id
  | _ => True

/-! ## Who may change a row -/

private theorem row_of_report {t t' : Jobs} {f : Job → Job} {id : JobId} (hf : Keeps f)
    (hrows : t'.rows = updateWhere (fun j => j.id == id) f t.rows) {id' : JobId} {row' : Job}
    (h : t'.row id' = some row') : ∃ row, t.row id' = some row ∧ (row' = row ∨ id = id') := by
  have hrow := row_of_rows hf hrows id'
  by_cases hid : id = id'
  · rw [hrow] at h
    rcases Option.map_eq_some_iff.mp h with ⟨row, hrow', -⟩
    exact ⟨row, hrow', .inr hid⟩
  · rw [hrow, map_updateRow_of_ne (by simp) hid] at h
    exact ⟨row', h, .inl rfl⟩

/-- A command changes the row of the job it reports on, or is a reap of that row. -/
theorem exec_row {c : Cmd} {id : JobId} {row' : Job} (hid : id < db.jobs.nextId)
    (h : (c.exec cfg x db).1.jobs.row id = some row') :
    ∃ row, db.jobs.row id = some row ∧ (row' = row ∨
      (∃ job, c.job? = some job ∧ (∀ error, c ≠ .failSelect job error) ∧ job.id = id) ∨
      (c = .reapStuck ∧ stuck db.now cfg.lease row = true)) := by
  cases c with
  | insertJob r k payload strict =>
    simp only [Cmd.exec] at h
    split at h
    · exact ⟨row', h, .inl rfl⟩
    · have hrow : (db.jobs.insert db.now r k payload 0).2.row id = db.jobs.row id :=
        row_insert_of_lt (Nat.ne_of_lt hid)
      rcases hins : db.jobs.insert db.now r k payload 0 with ⟨_ | j, t⟩
      · rw [hins] at h hrow
        exact ⟨row', hrow ▸ h, .inl rfl⟩
      · rw [hins] at h hrow
        exact ⟨row', hrow ▸ h, .inl rfl⟩
  | resetForReprocess r =>
    simp only [Cmd.exec] at h
    split at h
    · exact ⟨row', (row_delete.mp h).1, .inl rfl⟩
    · exact ⟨row', h, .inl rfl⟩
  | resetForRediarize r =>
    simp only [Cmd.exec] at h
    split at h
    · exact ⟨row', h, .inl rfl⟩
    · split at h
      · exact ⟨row', (row_delete.mp h).1, .inl rfl⟩
      · exact ⟨row', h, .inl rfl⟩
  | completeJob job =>
    rcases row_of_report (t := db.jobs) keeps_completed rfl h with ⟨row, hrow, heq | heq⟩
    · exact ⟨row, hrow, .inl heq⟩
    · exact ⟨row, hrow, .inr (.inl ⟨job, rfl, by simp, heq⟩)⟩
  | reapStuck =>
    change (reapStuck _ _ _ _).row id = some row' at h
    rw [reapStuck, row_update] at h
    rcases Option.map_eq_some_iff.mp h with ⟨row, hrow, rfl⟩
    by_cases hstuck : stuck db.now cfg.lease row = true
    · exact ⟨row, hrow, .inr (.inr ⟨rfl, hstuck⟩)⟩
    · exact ⟨row, hrow, .inl (updateRow_of_neg (by simpa using hstuck))⟩
  | failUpdate job error n =>
    simp only [Cmd.exec] at h
    split at h
    · exact ⟨row', h, .inl rfl⟩
    · rename_i hwrite
      rcases row_of_report keeps_failed (failWrite_eq_some hwrite).2.2 h with ⟨row, hrow, heq | heq⟩
      · exact ⟨row, hrow, .inl heq⟩
      · exact ⟨row, hrow, .inr (.inl ⟨job, rfl, by simp, heq⟩)⟩
    · rename_i hwrite
      rcases row_of_report keeps_failed (failWrite_eq_some hwrite).2.2 h with ⟨row, hrow, heq | heq⟩
      · exact ⟨row, hrow, .inl heq⟩
      · exact ⟨row, hrow, .inr (.inl ⟨job, rfl, by simp, heq⟩)⟩
  | deferJob job delay =>
    simp only [Cmd.exec] at h
    split at h
    · exact ⟨row', h, .inl rfl⟩
    · rename_i t hdefer
      rcases row_of_report keeps_deferred (tryUpdate_rows hdefer).1 h with ⟨row, hrow, heq | heq⟩
      · exact ⟨row, hrow, .inl heq⟩
      · exact ⟨row, hrow, .inr (.inl ⟨job, rfl, by simp, heq⟩)⟩
  | _ =>
    refine ⟨row', ?_, .inl rfl⟩
    simp only [Cmd.exec, fetched] at h
    first
    | exact h
    | split at h <;> exact h

/-- Every process that holds a job has its lease, and no two hold the same one. -/
structure Leased (s : Sys) : Prop where
  held : ∀ i job row, Holds s i job → s.db.jobs.row job.id = some row → Leases row job
  unique : ∀ i k job job', Holds s i job → Holds s k job' → job.id = job'.id → i = k

/-- Of the jobs of one recording and kind that still have a row, one process holds one. -/
theorem holder_unique (hs : Snapshot s) (hl : Leased s) {i j : ℕ} {job job' row row' : Job}
    {r : Uuid} (hi : Holds s i job) (hj : Holds s j job') (hr : job.recordingId = some r)
    (hr' : job'.recordingId = some r) (hk : job.kind = job'.kind)
    (hrow : s.db.jobs.row job.id = some row) (hrow' : s.db.jobs.row job'.id = some row') :
    i = j := by
  have hcols := hs.columns i job row hi hrow
  have hcols' := hs.columns j job' row' hj hrow'
  have hcollide : row.Collides row' :=
    ⟨Job.isLive_of_running (hl.held i job row hi hrow).1,
      Job.isLive_of_running (hl.held j job' row' hj hrow').1,
      hcols.1.trans (hk.trans hcols'.1.symm), r, hcols.2.trans hr, hcols'.2.trans hr'⟩
  have hmem := row_eq_some.mp hrow
  have hmem' := row_eq_some.mp hrow'
  have hsame : row = row' := s.db.jobs.eq_of_collides hmem.1 hmem'.1 hcollide
  apply hl.unique i j job job' hi hj
  rw [← hmem.2, ← hmem'.2, hsame]

/-- A row some process holds changes only by a step of that process. -/
theorem moved_row (hs : Snapshot s) (hl : Leased s) (hreap : ReapsDead cfg s a)
    (h : Moved cfg s a s') {i : ℕ} {row' : Job} (hjob : Holds s i job)
    (hrow' : s'.db.jobs.row job.id = some row') :
    ∃ row, s.db.jobs.row job.id = some row ∧ (row' = row ∨
      (a = .heartbeat i ∧ row'.state = row.state ∧ row'.lockedBy = row.lockedBy) ∨
      ∃ x, a = .step i x ∧ ¬ Holds s' i job) := by
  have hid : job.id < s.db.jobs.nextId := hs.id_lt i job hjob
  cases h with
  | claim hidle hclaim =>
    rcases claimOne_eq_some hclaim with ⟨j₀, hrow₀, hqueued, -, hrows⟩
    change _ = some row' at hrow'
    rw [Sys.setProc_db, Sys.setJobs_jobs] at hrow'
    rw [show _ = _ from hrows job.id] at hrow'
    split at hrow'
    · rename_i heq
      rw [← heq] at hrow₀
      have hrunning := (hl.held i job j₀ hjob hrow₀).1
      rw [hqueued] at hrunning
      cases hrunning
    · exact ⟨row', hrow', .inl rfl⟩
  | @heartbeat k job₂ body w hproc hw =>
    rw [Sys.setJobs_jobs, heartbeat, row_update] at hrow'
    rcases Option.map_eq_some_iff.mp hrow' with ⟨row, hrow, rfl⟩
    by_cases hidk : job₂.id = job.id
    · have hk : Holds s k job₂ := by
        rw [Holds, hproc]
        rfl
      rw [hl.unique k i job₂ job hk hjob hidk]
      refine ⟨row, hrow, .inr (.inl ⟨rfl, ?_, ?_⟩)⟩
      · unfold updateRow
        split <;> rfl
      · unfold updateRow
        split <;> rfl
    · have hrowid := (row_eq_some.mp hrow).2
      rw [updateRow_of_neg (by simp [hrowid, Ne.symm hidk])]
      exact ⟨row, hrow, .inl rfl⟩
  | @cmd k c rest x hproc =>
    rcases exec_row hid hrow' with ⟨row, hrow, rfl | ⟨job₂, hc, hsel, heq⟩ | ⟨rfl, hstuck⟩⟩
    · exact ⟨row', hrow, .inl rfl⟩
    · have hk : Holds s k job₂ := by
        rw [Holds, hproc]
        exact hc
      have hki := hl.unique k i job₂ job hk hjob heq
      subst hki
      refine ⟨row, hrow, .inr (.inr ⟨x, rfl, fun hold => ?_⟩)⟩
      have htidy := hs.tidy k
      rw [hproc] at htidy
      rw [Holds, Sys.setProc_self] at hold
      rcases (advance_job htidy).2 job hold with ⟨hjob₂, error, hfail⟩
      have hsame : job₂ = job := Option.some.inj (hc.symm.trans hjob₂)
      exact hsel error (hsame ▸ hfail)
    · exact absurd (row_eq_some.mp hrow).2.symm
        (hreap rest hproc row (row_eq_some.mp hrow).1 hstuck i job hjob)
  | _ => exact ⟨row', hrow', .inl rfl⟩

theorem leased_start : Leased Sys.start where
  held _ _ _ h := nomatch h
  unique _ _ _ _ h := nomatch h

theorem leased_moved (hs : Snapshot s) (hl : Leased s) (hreap : ReapsDead cfg s a)
    (h : Moved cfg s a s') : Leased s' := by
  constructor
  · intro i job row' hjob hrow'
    rcases moved_job hs h hjob with hold | ⟨w, kinds, t, rfl, hclaim⟩
    · rcases moved_row hs hl hreap h hold hrow' with ⟨row, hrow, rfl | ⟨-, hst, hlk⟩ | ⟨x, -, hno⟩⟩
      · exact hl.held i job row' hold hrow
      · have hlease := hl.held i job row hold hrow
        exact ⟨hst.trans hlease.1, hlk.trans hlease.2⟩
      · exact absurd hjob hno
    · cases h with
      | @claim _ _ _ _ j t' hidle hclaim' =>
        rcases claimOne_eq_some hclaim' with ⟨j₀, -, -, hj, hrows⟩
        rw [Holds, Sys.setProc_self] at hjob
        cases hjob
        change t'.row job.id = some row' at hrow'
        rw [show t'.row job.id = _ from hrows job.id, if_pos rfl] at hrow'
        change job = claimed s.db.now w j₀ at hj
        rw [← Option.some.inj hrow', hj]
        exact ⟨rfl, rfl⟩
  · intro i k job job' hi hk hid
    have hfresh {k : ℕ} {job job' : Job} {w : WorkerId} {kinds : List JobKind} {t : Jobs}
        (hclaim : s.db.jobs.claimOne s.db.now w kinds job.id = some (job, t))
        (hold : Holds s k job') (hid : job.id = job'.id) : False := by
      rcases claimOne_eq_some hclaim with ⟨j₀, hrow₀, hqueued, -, -⟩
      rw [hid] at hrow₀
      have hrunning := (hl.held k job' j₀ hold hrow₀).1
      rw [hqueued] at hrunning
      cases hrunning
    rcases moved_job hs h hi with hoi | ⟨w, kinds, t, hai, hclaim⟩
    · rcases moved_job hs h hk with hok | ⟨w', kinds', t', hak, hclaim'⟩
      · exact hl.unique i k job job' hoi hok hid
      · exact (hfresh hclaim' hoi hid.symm).elim
    · rcases moved_job hs h hk with hok | ⟨w', kinds', t', hak, hclaim'⟩
      · exact (hfresh hclaim hok hid).elim
      · exact (Label.claim.inj (hai.symm.trans hak)).1

theorem leased_run {tr : List Label} (h : Run (step cfg) (ReapsDead cfg) Sys.start tr s) :
    Snapshot s ∧ Leased s :=
  h.invariant (I := fun s => Snapshot s ∧ Leased s) ⟨snapshot_start, leased_start⟩
    fun _ _ _ hs hreap hstep => ⟨snapshot_moved hs.1 (step_moved hstep), leased_moved hs.1 hs.2 hreap (step_moved hstep)⟩

/-- In every run whose reaps take back only jobs of stopped workers, no report is
ever made on a lost lease, no job is held twice, and the row of a job that a worker
holds is written by that worker alone. -/
theorem lease_ownership {tr : List Label}
    (h : Run (step cfg) (ReapsDead cfg) Sys.start tr s) :
    (∀ i job, ¬ LeaseLost s i job) ∧
    (∀ i k job job', Holds s i job → Holds s k job' → job.id = job'.id → i = k) ∧
    (∀ a s' i job row row', ReapsDead cfg s a → step cfg s a = some s' → Holds s i job →
      s.db.jobs.row job.id = some row → s'.db.jobs.row job.id = some row' → row' ≠ row →
      a = .heartbeat i ∨ ∃ x, a = .step i x) := by
  have hinv := leased_run h
  refine ⟨?_, hinv.2.unique, ?_⟩
  · rintro i job ⟨hjob, row, hrow, hno⟩
    exact hno (hinv.2.held i job row hjob hrow)
  · intro a s' i job row row' hreap hstep hjob hrow hrow' hne
    rcases moved_row hinv.1 hinv.2 hreap (step_moved hstep) hjob hrow' with
      ⟨row₀, hrow₀, heq | ⟨ha, -, -⟩ | ⟨x, ha, -⟩⟩
    · rw [hrow] at hrow₀
      exact absurd (heq.trans (Option.some.inj hrow₀).symm) hne
    · exact .inl ha
    · exact .inr ⟨x, ha⟩

/-- Recording 7 is completed and its transcode job claimed by worker 1 (process 2);
the lease expires, the job is reaped and worker 2 (process 4) claims it. -/
def staleRun : List Label :=
  [.request 0 (.create 7), .step 0 {}, .request 1 (.complete 7 none none), .step 1 {}, .step 1 {},
    .step 1 {}, .step 1 {}, .claim 2 1 [.transcode] 1, .tick 45000001, .reaper 3, .step 3 {},
    .claim 4 2 [.transcode] 1, .step 2 {}, .step 2 {}, .step 2 {}]

/-- What worker 1 remembers of the job. -/
def staleJob : Job where
  id := 1
  recordingId := some 7
  kind := .transcode
  state := .running
  priority := 0
  attempts := 0
  runAfter := 0
  lockedBy := some 1
  lockedAt := some 0
  payload := {}
  error := none
  createdAt := 0
  updatedAt := 0

def staleState : Sys := (exec (step {}) Sys.start staleRun).get (by decide)

theorem leaseLost_staleState : LeaseLost staleState 2 staleJob := by
  have hrow : (staleState.db.jobs.row 1).map Job.lockedBy = some (some 2) := by decide
  rcases Option.map_eq_some_iff.mp hrow with ⟨row, hrow₁, hby⟩
  refine ⟨rfl, row, hrow₁, fun hlease => ?_⟩
  have hworker : row.lockedBy = some 1 := hlease.2
  simp [hworker] at hby

/-- Worker 1 then marks done the job that worker 2 is running. -/
theorem not_unchanged_of_leaseLost :
    ¬ ∀ (tr : List Label) (s s' : Sys) (i : ℕ) (job : Job) (x : Heard),
      Run (step {}) anyStep Sys.start tr s → LeaseLost s i job →
      step {} s (.step i x) = some s' → s'.db.jobs.row job.id = s.db.jobs.row job.id := by
  intro h
  have hnext : (step {} staleState (.step 2 {})).isSome = true := by decide
  have hrunning : (staleState.db.jobs.row 1).map Job.state = some .running := by decide
  have hdone : ((step {} staleState (.step 2 {})).map fun s' => (s'.db.jobs.row 1).map Job.state) =
      some (some .done) := by decide
  rcases Option.isSome_iff_exists.mp hnext with ⟨s', hs'⟩
  have heq : s'.db.jobs.row 1 = staleState.db.jobs.row 1 :=
    h staleRun staleState s' 2 staleJob {} (run_of_isSome _) leaseLost_staleState hs'
  rw [hs', Option.map_some, heq] at hdone
  simp [hrunning] at hdone

/-- A test that lets a reap through only when it takes nothing back from the first `n` processes. -/
def reapsStopped (n : ℕ) (s : Sys) : Label → Bool
  | .step i _ => match s.procs i with
    | .todo (.reapStuck :: _) => s.db.jobs.rows.all fun row => !stuck s.db.now (Config.lease {}) row ||
        (List.range n).all fun k => (s.procs k).job?.all fun job => job.id ≠ row.id
    | _ => true
  | _ => true

theorem reapsDead_of_reapsStopped {n : ℕ} {a : Label} (hs : s.Within n)
    (h : reapsStopped n s a = true) : ReapsDead {} s a := by
  cases a with
  | step i x =>
    intro rest hproc row hrow hstuck k job hjob
    simp only [reapsStopped, hproc, List.all_eq_true, Bool.or_eq_true, Bool.not_eq_true',
      List.mem_range] at h
    rcases h row hrow with hspared | hfree
    · simp [hstuck] at hspared
    · by_cases hk : k < n
      · have hall := hfree k hk
        rw [show (s.procs k).job? = some job from hjob] at hall
        simpa using hall
      · rw [Holds, hs k (Nat.le_of_not_lt hk)] at hjob
        cases hjob
  | _ => trivial

/-- Worker 1 has died when its job is taken back and worker 2 claims it. -/
def takenBackRun : List Label :=
  [.request 0 (.create 7), .step 0 {}, .request 1 (.complete 7 none none), .step 1 {}, .step 1 {},
    .step 1 {}, .step 1 {}, .claim 2 1 [.transcode] 1, .tick 30000000, .heartbeat 2, .stop 2,
    .tick 45000001, .reaper 3, .step 3 {}, .claim 4 2 [.transcode] 1]

def takenBackState : Sys :=
  (exec (guarded (step {}) (amid 5 (reapsStopped 5))) Sys.start takenBackRun).get (by decide +kernel)

theorem lease_ownership_takenBackState :
    (takenBackState.db.jobs.row 1).map Job.lockedBy = some (some 2) ∧
      ∀ i job, ¬ LeaseLost takenBackState i job :=
  ⟨by decide +kernel, (lease_ownership
    (run_of_amid (n := 5) _ fun _ _ => reapsDead_of_reapsStopped)).1⟩

end ScribeLocal.Server
