import ScribeLocal.Server.Determined

/-!
# The checklist a client polls

While a recording is processed its jobs are reported as six stages, of each kind the job with
the highest id. What a poll can show, and what a later one can.
-/
namespace ScribeLocal

def JobState.asStr : JobState → String
  | .queued => "queued"
  | .running => "running"
  | .done => "done"
  | .failed => "failed"

theorem JobState.asStr_eq_done {st : JobState} : st.asStr = "done" ↔ st = .done := by
  cases st <;> decide

namespace Server
open Table Jobs Transition

variable {cfg : Config} {r : Uuid} {s s' : Sys} {a : Label} {k : JobKind} {tr tr' : List Label}
  {row : Job} {jobs : List Job}

/-! ## `build_progress` -/

structure StageProgress where
  kind : JobKind
  state : String
  startedAt : Option Time
  finishedAt : Option Time
  attempts : ℕ
  error : Option String
  deriving DecidableEq

structure PipelineProgress where
  stages : List StageProgress
  current : Option JobKind
  completed : ℕ
  total : ℕ
  deriving DecidableEq

def stageOfJob (kind : JobKind) (job : Job) : StageProgress where
  kind := kind
  state := job.state.asStr
  startedAt := job.lockedAt
  finishedAt := match job.state with
    | .done | .failed => some job.updatedAt
    | _ => none
  attempts := job.attempts
  error := job.error

/-- Of several jobs of the kind the last one counts. -/
def stageProgress (jobs : List Job) (kind : JobKind) : StageProgress :=
  match (jobs.filter fun j => j.kind == kind).getLast? with
  | some job => stageOfJob kind job
  | none => ⟨kind, "pending", none, none, 0, none⟩

def buildProgress (jobs : List Job) : PipelineProgress :=
  let stages := JobKind.pipelineStages.map (stageProgress jobs)
  { stages := stages
    current := (stages.find? fun stage => stage.state == "running").map StageProgress.kind
    completed := (stages.filter fun stage => stage.state == "done").length
    total := JobKind.pipelineStages.length }

def listJobsByRecording (t : Jobs) (r : Uuid) : List Job :=
  (t.rows.filter fun j => j.recordingId == some r).insertionSort fun a b => a.id ≤ b.id

/-- What a poll of `r` shows while `r` is processed. -/
def checklist (r : Uuid) (s : Sys) : PipelineProgress := buildProgress (listJobsByRecording s.db.jobs r)

/-! ## Stages and rows -/

theorem mem_stages {stage : StageProgress} : stage ∈ (buildProgress jobs).stages ↔
    ∃ k, k.isPipeline = true ∧ stageProgress jobs k = stage := by
  simp only [buildProgress, List.mem_map, JobKind.mem_pipelineStages]

theorem completed_eq : (buildProgress jobs).completed =
    JobKind.pipelineStages.countP fun k => (stageProgress jobs k).state == "done" := by
  rw [List.countP_eq_length_filter, buildProgress, List.filter_map, List.length_map]
  rfl

theorem mem_listJobs {t : Jobs} : row ∈ listJobsByRecording t r ↔
    row ∈ t.rows ∧ row.recordingId = some r := by
  rw [listJobsByRecording, List.mem_insertionSort, List.mem_filter, beq_iff_eq]

theorem kind_stageProgress : (stageProgress jobs k).kind = k := by
  unfold stageProgress
  split <;> rfl

/-- A stage that is not pending shows a job. -/
theorem row_of_stage (h : (stageProgress jobs k).state ≠ "pending") :
    ∃ row ∈ jobs, row.kind = k ∧ stageProgress jobs k = stageOfJob k row := by
  unfold stageProgress at h ⊢
  split
  · next row hlast =>
    have hmem := List.mem_filter.mp (List.mem_of_getLast? hlast)
    exact ⟨row, hmem.1, eq_of_beq hmem.2, rfl⟩
  · next hlast =>
    rw [hlast] at h
    exact absurd rfl h

/-- The only job of its kind is the one shown. -/
theorem stage_of_row (hone : rowCount s.db.jobs r k ≤ 1) (hrow : row ∈ s.db.jobs.rows)
    (hof : row.recordingId = some r ∧ row.kind = k) :
    stageProgress (listJobsByRecording s.db.jobs r) k = stageOfJob k row := by
  have hmem : row ∈ (listJobsByRecording s.db.jobs r).filter fun j => j.kind == k :=
    List.mem_filter.mpr ⟨mem_listJobs.mpr ⟨hrow, hof.1⟩, beq_iff_eq.mpr hof.2⟩
  obtain ⟨last, hlast⟩ := List.getLast?_isSome.mpr (List.ne_nil_of_mem hmem) |> Option.isSome_iff_exists.mp
  have hin := List.mem_filter.mp (List.mem_of_getLast? hlast)
  have hinRows := mem_listJobs.mp hin.1
  have hsame : row = last := by
    by_contra hne
    have htwo := two_le_rowCount hrow hinRows.1 hne hof ⟨hinRows.2, eq_of_beq hin.2⟩
    omega
  rw [stageProgress, hlast, hsame]

theorem done_of_stage (h : (stageProgress (listJobsByRecording s.db.jobs r) k).state = "done") :
    ∃ row ∈ s.db.jobs.rows, (row.recordingId = some r ∧ row.kind = k) ∧ row.state = .done ∧
      stageProgress (listJobsByRecording s.db.jobs r) k = stageOfJob k row := by
  obtain ⟨row, hrow, hk, hshown⟩ := row_of_stage (by rw [h]; decide)
  have hrow' := mem_listJobs.mp hrow
  rw [hshown] at h
  exact ⟨row, hrow'.1, ⟨hrow'.2, hk⟩, JobState.asStr_eq_done.mp h, hshown⟩

theorem stage_of_done (hsingle : Single r s) (hk : k.isPipeline = true) (hdone : Done s r k) :
    (stageProgress (listJobsByRecording s.db.jobs r) k).state = "done" := by
  obtain ⟨row, hrow, hof, hst⟩ := has_iff.mp hdone
  rw [stage_of_row (hsingle.once k hk) hrow hof]
  exact JobState.asStr_eq_done.mpr (eq_of_beq hst)

/-! ## Runs -/

structure Polled (cfg : Config) (r : Uuid) (s : Sys) : Prop where
  snapshot : Snapshot s
  leased : Leased s
  single : Single r s
  readied : Readied r s

theorem polled_step (hp : Polled cfg r s) (hok : Punctual cfg r s a)
    (hstep : step cfg s a = some s') : Polled cfg r s' := by
  have hmoved := step_moved hstep
  exact ⟨snapshot_moved hp.snapshot hmoved,
    leased_moved hp.snapshot hp.leased hok.reapsDead hmoved,
    single_moved hp.snapshot hp.leased hp.single hok hmoved,
    readied_moved hp.leased hp.single.noEdits hp.readied hmoved⟩

theorem polled_run (h : Run (step cfg) (Punctual cfg r) Sys.start tr s) : Polled cfg r s := by
  apply h.invariant
  · exact ⟨snapshot_start, leased_start, single_start, fun _ _ h => (nomatch h), fun h => nomatch h⟩
  · exact fun s a s' hp hok hstep => polled_step hp hok hstep

/-- The row of a stage that is done stays as it is. -/
theorem done_row_run (hp : Polled cfg r s) (h : Run (step cfg) (Punctual cfg r) s tr s')
    (hrow : row ∈ s.db.jobs.rows) (hr : row.recordingId = some r) (hdone : row.state = .done) :
    Polled cfg r s' ∧ row ∈ s'.db.jobs.rows := by
  apply h.invariant (I := fun s => Polled cfg r s ∧ row ∈ s.db.jobs.rows) ⟨hp, hrow⟩
  rintro s a s' ⟨hp, hrow⟩ hok hstep
  refine ⟨polled_step hp hok hstep, ?_⟩
  rcases moved_done_row hp.leased (step_moved hstep) hrow hr hdone with hkept |
    ⟨⟨i, x, c, rest, -, hproc, hreset⟩, -⟩
  · exact hkept
  · exact absurd hreset (noReset hp.single.noEdits hproc)

/-- A stage that is done is shown as it is from then on. -/
theorem stage_kept (hp : Polled cfg r s) (h : Run (step cfg) (Punctual cfg r) s tr s')
    (hk : k.isPipeline = true)
    (hdone : (stageProgress (listJobsByRecording s.db.jobs r) k).state = "done") :
    stageProgress (listJobsByRecording s'.db.jobs r) k =
      stageProgress (listJobsByRecording s.db.jobs r) k := by
  obtain ⟨row, hrow, hof, hst, hshown⟩ := done_of_stage hdone
  obtain ⟨hp', hrow'⟩ := done_row_run hp h hrow hof.1 hst
  rw [hshown, stage_of_row (hp'.single.once k hk) hrow' hof]

/-- In every run without failures and edits, whose reaps spare the jobs of `r` and those still worked
on, and in which a job completes only when nobody is still on the way to enqueue its kind: a stage
that is not pending comes after stages that are done, so does the one that is current; a stage that
is done is shown unchanged by every later poll, and the count of such stages never falls; all six
are done once the recording is ready. -/
theorem checklist_of_run (h : Run (step cfg) (Punctual cfg r) Sys.start tr s)
    (h' : Run (step cfg) (Punctual cfg r) s tr' s') :
    (∀ stage ∈ (checklist r s).stages, stage.state ≠ "pending" → ∀ p ∈ stage.kind.predecessors,
      ∃ before ∈ (checklist r s).stages, before.kind = p ∧ before.state = "done") ∧
    (∀ k, (checklist r s).current = some k → ∀ p ∈ k.predecessors,
      ∃ before ∈ (checklist r s).stages, before.kind = p ∧ before.state = "done") ∧
    (∀ stage ∈ (checklist r s).stages, stage.state = "done" → stage ∈ (checklist r s').stages) ∧
    (checklist r s).completed ≤ (checklist r s').completed ∧
    (s.db.status r = some .ready → (checklist r s).completed = (checklist r s).total) := by
  have hp := polled_run h
  have hbefore : ∀ stage ∈ (checklist r s).stages, stage.state ≠ "pending" →
      ∀ p ∈ stage.kind.predecessors,
        ∃ before ∈ (checklist r s).stages, before.kind = p ∧ before.state = "done" := by
    intro stage hstage hstate p hpred
    obtain ⟨k, hk, rfl⟩ := mem_stages.mp hstage
    obtain ⟨row, hrow, hkind, -⟩ := row_of_stage hstate
    rw [kind_stageProgress] at hpred
    have hrow' := mem_listJobs.mp hrow
    have hdone := hp.single.gated row hrow'.1 hrow'.2 p (hkind ▸ hpred)
    have hpk := (JobKind.isPipeline_of_mem_predecessors hpred).1
    exact ⟨_, mem_stages.mpr ⟨p, hpk, rfl⟩, kind_stageProgress, stage_of_done hp.single hpk hdone⟩
  refine ⟨hbefore, ?_, ?_, ?_, ?_⟩
  · intro k hcurrent p hpred
    obtain ⟨stage, hfind, rfl⟩ := Option.map_eq_some_iff.mp hcurrent
    have hrunning : stage.state = "running" := by simpa using List.find?_some hfind
    exact hbefore stage (List.mem_of_find?_eq_some hfind) (by rw [hrunning]; decide) p hpred
  · intro stage hstage hdone
    obtain ⟨k, hk, rfl⟩ := mem_stages.mp hstage
    exact mem_stages.mpr ⟨k, hk, stage_kept hp h' hk hdone⟩
  · rw [checklist, checklist, completed_eq, completed_eq]
    apply List.countP_mono_left
    intro k hmem hdone
    rw [beq_iff_eq] at hdone ⊢
    rw [stage_kept hp h' (JobKind.mem_pipelineStages.mp hmem) hdone, hdone]
  · intro hready
    have hboth := hp.readied.ready hready
    rw [checklist, completed_eq]
    refine List.countP_eq_length.mpr fun k hmem => ?_
    have hk := JobKind.mem_pipelineStages.mp hmem
    exact beq_iff_eq.mpr (stage_of_done hp.single hk (all_done hp.single hboth.1 hboth.2 hk))

/-- The pipeline with merge running. -/
def mergingState : Sys := (exec (step {}) Sys.start (pipelineRun.take 33)).get (by decide +kernel)

theorem checklist_of_run_mergingState :
    (checklist 7 mergingState).current = some .merge ∧ (checklist 7 mergingState).completed = 3 ∧
      3 ≤ (checklist 7 readyState).completed := by
  obtain ⟨s', hall⟩ : ∃ s', Run (step {}) (Punctual {} 7) Sys.start pipelineRun s' :=
    ⟨_, run_of_amid (n := 8) (b := fun s a => calm s a && timely 8 7 s a) (by decide +kernel)
      fun _ _ => punctual_of_timely⟩
  have hready : Run (step {}) (Undisturbed {} 7) Sys.start pipelineRun readyState := run_readyState
  have hlast : s' = readyState := Option.some.inj (hall.exec_eq.symm.trans hready.exec_eq)
  rw [← List.take_append_drop 33 pipelineRun, hlast] at hall
  obtain ⟨s, hrun, hrest⟩ := hall.split
  have hs : s = mergingState := by
    apply Option.some.inj
    rw [← hrun.exec_eq, mergingState, Option.some_get]
  have hcount : (checklist 7 mergingState).completed = 3 := by decide +kernel
  have hchecklist := checklist_of_run hrun hrest
  rw [hs, hcount] at hchecklist
  exact ⟨by decide +kernel, hcount, hchecklist.2.2.2.1⟩

end Server
end ScribeLocal
