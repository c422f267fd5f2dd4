import ScribeLocal.Server.Snapshot
import ScribeLocal.Server.Tables

/-! # Which statements a process can still issue

The statements of a stage concern the recording of its job and belong to the stage
of its kind; a request handler issues none of them.
-/
namespace ScribeLocal.Server
open Jobs Transition

variable {cfg : Config} {s s' : Sys} {a : Label} {x : Heard} {db : Db} {job : Job} {c : Cmd}

/-- The statements every process has left to issue. -/
structure Staged (s : Sys) : Prop where
  body : ∀ i job body, s.procs i = .stage job body → ∀ st ∈ body,
    job.recordingId = some st.recording ∧ st.stage = some job.kind
  merge : ∀ i job body, s.procs i = .stage job body → job.kind = .merge →
    ∃ r, body <:+ [.getTranscript r, .getDiarization r, .clearUtterances r, .insertMerged r]
  handler : ∀ i cs, s.procs i = .todo cs → ∀ st, .content st ∈ cs → st.stage = none

theorem jobBody_stage {st : Stmt} (h : st ∈ jobBody cfg job) :
    job.recordingId = some st.recording ∧ st.stage = some job.kind := by
  unfold jobBody at h
  cases hr : job.recordingId with
  | none => simp [hr] at h
  | some r =>
    rw [hr] at h
    have hst := stageBody_stage h
    exact ⟨by rw [hst.1], hst.2⟩

theorem jobBody_merge (hk : job.kind = .merge) : ∃ r, jobBody cfg job <:+
    [.getTranscript r, .getDiarization r, .clearUtterances r, .insertMerged r] := by
  unfold jobBody
  cases job.recordingId with
  | none => exact ⟨0, List.nil_suffix⟩
  | some r =>
    rw [hk]
    exact ⟨r, List.suffix_rfl⟩

/-- A statement of the merge stage is followed by no further one. -/
theorem follows_merge {now : Time} {status : Uuid → Option RecordingStatus} {c c' : Content}
    {st : Stmt} {sts : List Stmt} (h : st.exec now status x c = some (c', sts))
    (hst : st.stage = some .merge) : sts = [] := by
  cases st with
  | getTranscript | getDiarization =>
    simp only [Stmt.exec] at h
    split at h
    · cases h
      rfl
    · cases h
  | clearUtterances | insertMerged =>
    cases h
    rfl
  | _ => cases hst

theorem staged_start : Staged Sys.start where
  body _ _ _ h := nomatch h
  merge _ _ _ h := nomatch h
  handler _ _ h := nomatch h

theorem first_content {q : Request} {st : Stmt} (h : q.first = .content st) : False := by
  cases q <;> cases h

theorem staged_moved (hst : Staged s) (h : Moved cfg s a s') : Staged s' := by
  -- a step that leaves the stages alone, and the one process that moves with a known list
  have hkeep {k : ℕ} {p : Proc} {s₁ : Sys} (hprocs : s₁.procs = s.procs)
      (hbody : ∀ job body, p = .stage job body → (∀ st ∈ body,
        job.recordingId = some st.recording ∧ st.stage = some job.kind) ∧
        (job.kind = .merge → ∃ r, body <:+
          [.getTranscript r, .getDiarization r, .clearUtterances r, .insertMerged r]))
      (htodo : ∀ cs, p = .todo cs → ∀ st, .content st ∈ cs → st.stage = none) :
      Staged (s₁.setProc k p) := by
    constructor
    · intro i job body hproc
      by_cases hik : i = k
      · rw [hik, Sys.setProc_self] at hproc
        exact (hbody job body hproc).1
      · rw [Sys.setProc_of_ne hik, hprocs] at hproc
        exact hst.body i job body hproc
    · intro i job body hproc
      by_cases hik : i = k
      · rw [hik, Sys.setProc_self] at hproc
        exact (hbody job body hproc).2
      · rw [Sys.setProc_of_ne hik, hprocs] at hproc
        exact hst.merge i job body hproc
    · intro i cs hproc
      by_cases hik : i = k
      · rw [hik, Sys.setProc_self] at hproc
        exact htodo cs hproc
      · rw [Sys.setProc_of_ne hik, hprocs] at hproc
        exact hst.handler i cs hproc
  cases h with
  | tick | heartbeat => exact ⟨hst.body, hst.merge, hst.handler⟩
  | request q =>
    refine hkeep rfl ?_ ?_
    · intro job body hp
      cases hp
    · rintro cs ⟨⟩ st hmem
      exact (first_content (List.mem_singleton.mp hmem).symm).elim
  | reaper | bodyDone | stmtErr | stageErr | windowClosed =>
    refine hkeep rfl ?_ ?_
    · intro job body hp
      cases hp
    · rintro cs ⟨⟩ st hmem
      simp at hmem
  | @claim i w kinds id j t =>
    refine hkeep (show (s.setJobs t).procs = s.procs from rfl) ?_ ?_
    · rintro job body ⟨⟩
      exact ⟨fun st => jobBody_stage, jobBody_merge⟩
    · intro cs hp
      cases hp
  | @cmd i c rest x hproc =>
    have hprocs : ({ s with db := (c.exec cfg x s.db).1 } : Sys).procs = s.procs := rfl
    refine hkeep hprocs ?_ ?_
    · intro job body hp
      cases hflow : (c.exec cfg x s.db).2 <;> rw [hflow] at hp <;> cases hp
    · intro cs hp st hmem
      cases hflow : (c.exec cfg x s.db).2 with
      | reply code => simp [hflow, advance] at hp
      | abort => simp [hflow, advance] at hp
      | next cs' =>
        rw [hflow] at hp
        cases hp
        rcases List.mem_append.mp hmem with hmem | hmem
        · exact follows_content (exec_follows hflow hmem) fun st₀ hst₀ =>
            hst.handler i _ hproc st₀ (hst₀ ▸ List.mem_cons_self)
        · exact hst.handler i _ hproc st (List.mem_cons_of_mem _ hmem)
  | @stmt i job st body c sts x hproc hexec =>
    have hprocs : ({ s with db := { s.db with content := c } } : Sys).procs = s.procs := rfl
    have hhead := hst.body i job _ hproc st List.mem_cons_self
    refine hkeep hprocs ?_ ?_
    · rintro job' body' ⟨⟩
      constructor
      · intro st' hst'
        rcases List.mem_append.mp hst' with hst' | hst'
        · have hfollow := Stmt.exec_follows hexec hst'
          rw [hfollow.1, hfollow.2.1]
          exact hhead
        · exact hst.body i job _ hproc st' (List.mem_cons_of_mem _ hst')
      · intro hk
        rcases hst.merge i job _ hproc hk with ⟨r, hsuffix⟩
        rw [follows_merge hexec (hk ▸ hhead.2), List.nil_append]
        exact ⟨r, (List.suffix_cons st body).trans hsuffix⟩
    · intro cs hp
      cases hp
  | @stop i =>
    refine hkeep rfl ?_ ?_
    · intro job body hp
      cases hproc : s.procs i <;> rw [hproc] at hp <;> cases hp
    · intro cs hp
      cases hproc : s.procs i <;> rw [hproc] at hp <;> cases hp

/-- Where the statements of a stage come from: they were there before, the job has just been
claimed, or the statement before them has been executed. -/
theorem moved_stage {i : ℕ} {body : List Stmt} (h : Moved cfg s a s')
    (hproc : s'.procs i = .stage job body) :
    (s.procs i = .stage job body ∧ ∀ x, a ≠ .step i x) ∨
      (body = jobBody cfg job ∧ ∃ w kinds id t, a = .claim i w kinds id ∧
        s.db.jobs.claimOne s.db.now w kinds id = some (job, t)) ∨
      ∃ x st rest c sts, a = .step i x ∧ s.procs i = .stage job (st :: rest) ∧
        st.exec s.db.now s.db.status x s.db.content = some (c, sts) ∧ body = sts ++ rest ∧
        s'.db = { s.db with content := c } := by
  -- the process that moves becomes `p`
  have hset {k : ℕ} {p : Proc} {s₁ : Sys} (hprocs : s₁.procs = s.procs)
      (hk : (s₁.setProc k p).procs i = .stage job body) :
      (i ≠ k ∧ s.procs i = .stage job body) ∨ (i = k ∧ p = .stage job body) := by
    by_cases hik : i = k
    · rw [hik, Sys.setProc_self] at hk
      exact .inr ⟨hik, hk⟩
    · rw [Sys.setProc_of_ne hik, hprocs] at hk
      exact .inl ⟨hik, hk⟩
  have hnot {k : ℕ} {x : Heard} (hik : i ≠ k) (x' : Heard) : Label.step k x ≠ .step i x' := by
    intro heq
    exact hik (Label.step.inj heq).1.symm
  cases h with
  | tick | heartbeat => exact .inl ⟨hproc, by simp⟩
  | request | reaper | stageErr | windowClosed =>
    rcases hset rfl hproc with ⟨-, hold⟩ | ⟨-, hp⟩
    · exact .inl ⟨hold, by simp⟩
    · cases hp
  | @stop k =>
    rcases hset rfl hproc with ⟨-, hold⟩ | ⟨-, hp⟩
    · exact .inl ⟨hold, by simp⟩
    · cases hk : s.procs k <;> rw [hk] at hp <;> cases hp
  | @claim k w kinds id j t _ hclaim =>
    rcases hset (show (s.setJobs t).procs = s.procs from rfl) hproc with ⟨-, hold⟩ | ⟨rfl, hp⟩
    · exact .inl ⟨hold, by simp⟩
    · cases hp
      exact .inr (.inl ⟨rfl, w, kinds, id, t, rfl, hclaim⟩)
  | stmtErr | bodyDone =>
    rcases hset rfl hproc with ⟨hik, hold⟩ | ⟨-, hp⟩
    · exact .inl ⟨hold, hnot hik⟩
    · cases hp
  | @cmd k c rest x =>
    have hprocs : ({ s with db := (c.exec cfg x s.db).1 } : Sys).procs = s.procs := rfl
    rcases hset hprocs hproc with ⟨hik, hold⟩ | ⟨-, hp⟩
    · exact .inl ⟨hold, hnot hik⟩
    · cases hflow : (c.exec cfg x s.db).2 <;> rw [hflow] at hp <;> cases hp
  | @stmt k job' st rest c sts x hk hexec =>
    have hprocs : ({ s with db := { s.db with content := c } } : Sys).procs = s.procs := rfl
    rcases hset hprocs hproc with ⟨hik, hold⟩ | ⟨rfl, hp⟩
    · exact .inl ⟨hold, hnot hik⟩
    · cases hp
      exact .inr (.inr ⟨x, st, rest, c, sts, rfl, hk, hexec, rfl, rfl⟩)

/-- A process comes to complete a job when its stage has run out of statements. -/
theorem moved_complete (hs : Snapshot s) (h : Moved cfg s a s') {i : ℕ} {rest : List Cmd}
    (hproc : s'.procs i = .todo (.completeJob job :: rest)) :
    s.procs i = .todo (.completeJob job :: rest) ∨ ∃ x, a = .step i x ∧ s.procs i = .stage job [] := by
  by_cases hi : a.proc = some i
  · cases h with
    | tick => cases hi
    | heartbeat => exact .inl hproc
    | request q =>
      cases hi
      rw [Sys.setProc_self] at hproc
      cases q <;> cases hproc
    | reaper | stmtErr | stageErr | windowClosed | claim | stmt =>
      cases hi
      rw [Sys.setProc_self] at hproc
      cases hproc
    | bodyDone x hstage =>
      cases hi
      rw [Sys.setProc_self] at hproc
      cases hproc
      exact .inr ⟨x, rfl, hstage⟩
    | @stop k =>
      cases hi
      rw [Sys.setProc_self] at hproc
      cases hk : s.procs i <;> rw [hk] at hproc <;> cases hproc
    | @cmd k c rest' x hk =>
      cases hi
      rw [Sys.setProc_self] at hproc
      have htidy := hs.tidy i
      rw [hk] at htidy
      cases hflow : (c.exec cfg x s.db).2 with
      | reply | abort => simp [hflow, advance] at hproc
      | next cs =>
        rw [hflow] at hproc
        have hin : Cmd.completeJob job ∈ cs ++ rest' := by
          rw [Proc.todo.inj hproc]
          exact List.mem_cons_self
        rcases List.mem_append.mp hin with hin | hin
        · rcases exec_next hflow with hnone | ⟨_, _, _, -, rfl⟩
          · cases hnone _ hin
          · simp at hin
        · cases htidy _ hin
  · rw [moved_procs_of_ne h hi] at hproc
    exact .inl hproc

/-! ## What a command writes -/

/-- The content tables after a command. -/
inductive Cmd.Writes (x : Heard) (db : Db) : Cmd → Content → Prop
  | nothing {c : Cmd} : Cmd.Writes x db c db.content
  | content {st : Stmt} {c' : Content} {sts : List Stmt}
      (hexec : st.exec db.now db.status x db.content = some (c', sts)) :
      Cmd.Writes x db (.content st) c'
  | participants {r : Uuid} {expected : Option ℤ} (hsome : (db.status r).isSome = true) :
      Cmd.Writes x db (.setParticipants r expected) { db.content with
        participantsExpected := Function.update db.content.participantsExpected r expected }
  | reprocess {r : Uuid} (hsome : (db.status r).isSome = true) :
      Cmd.Writes x db (.resetForReprocess r) (db.content.resetForReprocess r)
  | rediarize {r : Uuid} (htranscript : (db.content.transcript r).isSome = true)
      (hsome : (db.status r).isSome = true) :
      Cmd.Writes x db (.resetForRediarize r) (db.content.resetForRediarize r)

theorem exec_writes (cfg : Config) (x : Heard) (db : Db) (c : Cmd) :
    c.Writes x db (c.exec cfg x db).1.content := by
  cases c with
  | content st =>
    simp only [Cmd.exec]
    split
    · exact .nothing
    · rename_i hexec
      exact .content hexec
  | setParticipants r expected =>
    simp only [Cmd.exec]
    split
    · rename_i hsome
      exact .participants hsome
    · exact .nothing
  | resetForReprocess r =>
    simp only [Cmd.exec]
    split
    · rename_i hsome
      exact .reprocess hsome
    · exact .nothing
  | resetForRediarize r =>
    simp only [Cmd.exec]
    split
    · exact .nothing
    · rename_i htranscript
      split
      · rename_i hsome
        exact .rediarize (by simpa [Option.isSome_iff_ne_none] using htranscript) hsome
      · exact .nothing
  | _ =>
    simp only [Cmd.exec, fetched]
    repeat' split
    all_goals exact .nothing

end ScribeLocal.Server
