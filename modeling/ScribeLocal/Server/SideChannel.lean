import ScribeLocal.Server.Errands

/-! # The live side-channel and the lifecycle of a recording

Live jobs run through the same failure branch and the same reaper as the stages of
the pipeline. As long as none of them uses its last attempt, uploads and live jobs
leave a recording in `uploading`, and the first complete sent for it is accepted.
-/
namespace ScribeLocal.Server
open Table Jobs Transition

variable {cfg : Config} {r : Uuid} {s s' : Sys} {a : Label} {x : Heard} {db : Db} {c : Cmd}
  {rest : List Cmd} {job : Job} {i : ℕ}

/-- Executing the command accepts a complete, reprocess, rediarize, summarize or
speaker edit of recording `r`. -/
def Cmd.accepts (r : Uuid) (db : Db) : Cmd → Prop
  | .completeRead r' _ _ => r' = r ∧ db.status r = some .uploading
  | .reprocessRead r' | .summarizeRead r' _ => r' = r ∧ (db.status r).isSome = true
  | .resetForRediarize r' => r' = r ∧ (db.content.transcript r).isSome = true
  | .content (.deleteSpeaker r' idx) =>
    r' = r ∧ (db.content.speakers.any fun p => p.recordingId == r && p.localIdx == idx) = true
  | _ => False

/-- No edit of recording `r` is accepted. -/
def Unedited (r : Uuid) (s : Sys) : Label → Prop
  | .step i _ => ∀ c rest, s.procs i = .todo (c :: rest) → ¬ c.accepts r s.db
  | _ => True

/-- No job of recording `r` uses its last attempt, by a failure report or by a reap. -/
def SparesLast (cfg : Config) (r : Uuid) (s : Sys) : Label → Prop
  | .step i _ =>
    (∀ job error n rest, s.procs i = .todo (.failUpdate job error n :: rest) →
      job.recordingId = some r → n < cfg.maxAttempts) ∧
    (∀ rest, s.procs i = .todo (.reapStuck :: rest) → ∀ row ∈ s.db.jobs.rows,
      stuck s.db.now cfg.lease row = true → exhausted cfg.maxAttempts row = true →
        row.recordingId ≠ some r)
  | _ => True

/-- The lists of commands a process can be left with while nobody edits `r`. -/
inductive Aside (r : Uuid) : List Cmd → Prop
  | spare {cs : List Cmd} (h : ∀ c ∈ cs, c.spares r) : Aside r cs
  | call (q : Request) (hq : q.recording = r) : Aside r [q.first]
  | rediarize : Aside r [.resetForRediarize r]
  | speaker (idx : ℤ) (rest : List Cmd) : Aside r (.content (.deleteSpeaker r idx) :: rest)
  | report {c : Cmd} {job : Job} (hc : c.job? = some job) : Aside r [c]

/-- What holds of a recording nobody has edited. -/
structure SideOnly (r : Uuid) (s : Sys) : Prop where
  status : s.db.status r = none ∨ s.db.status r = some .uploading
  aside : ∀ i cs, s.procs i = .todo cs → Aside r cs
  kinds : ∀ row ∈ s.db.jobs.rows, row.recordingId = some r → row.kind = .transcribeSegment
  held : ∀ i job, (s.procs i).job? = some job → job.recordingId = some r →
    job.kind = .transcribeSegment

/-! ## One command -/

theorem aside_status (h : Aside r (c :: rest)) (hedit : ¬ c.accepts r db)
    (hstatus : db.status r = none ∨ db.status r = some .uploading) :
    (c.exec cfg x db).1.status r = none ∨ (c.exec cfg x db).1.status r = some .uploading := by
  generalize hcs : c :: rest = cs at h
  have hspare (hc : c.spares r) : (c.exec cfg x db).1.status r = none ∨
      (c.exec cfg x db).1.status r = some .uploading := by
    rcases spares_status cfg x hc with heq | ⟨-, hnew⟩
    · rwa [heq]
    · exact .inr hnew
  cases h with
  | spare h =>
    subst hcs
    exact hspare (h c List.mem_cons_self)
  | call q hq =>
    cases hcs
    cases q with
    | create | setParticipants | putSegment => exact hspare trivial
    | _ =>
      simp only [Request.first, Cmd.exec, fetched_fst]
      exact hstatus
  | rediarize =>
    cases hcs
    have hnone : (db.content.transcript r).isNone = true := by
      by_contra hsome
      exact hedit ⟨rfl, by simpa [Option.isSome_iff_ne_none] using hsome⟩
    simpa only [Cmd.exec, hnone, if_true]
  | speaker idx rest =>
    cases hcs
    simp only [Cmd.exec]
    split <;> exact hstatus
  | report hc =>
    cases hcs
    cases c with
    | completeJob | failSelect | failUpdate | deferJob =>
      simp only [Cmd.exec]
      repeat' split
      all_goals exact hstatus
    | _ => cases hc

theorem aside_next {cs : List Cmd} (h : Aside r (c :: rest)) (hedit : ¬ c.accepts r db)
    (hfail : ∀ job error n, c = .failUpdate job error n → job.recordingId = some r →
      n < cfg.maxAttempts)
    (hreap : c = .reapStuck → ∀ row ∈ db.jobs.rows, stuck db.now cfg.lease row = true →
      exhausted cfg.maxAttempts row = true → row.recordingId ≠ some r)
    (hlive : ∀ job, c.job? = some job → job.recordingId = some r →
      job.kind = .transcribeSegment)
    (hflow : (c.exec cfg x db).2 = .next cs) : Aside r (cs ++ rest) := by
  generalize hlist : c :: rest = l at h
  have hspare (hc : c.spares r) (hrest : rest = []) : Aside r (cs ++ rest) := by
    rw [hrest, List.append_nil]
    exact .spare (spares_next hc hreap hflow)
  cases h with
  | spare h =>
    subst hlist
    refine .spare fun c' hc' => ?_
    rcases List.mem_append.mp hc' with hc' | hc'
    · exact spares_next (h c List.mem_cons_self) hreap hflow c' hc'
    · exact h c' (List.mem_cons_of_mem _ hc')
  | call q hq =>
    cases hlist
    cases q with
    | create | setParticipants | putSegment => exact hspare trivial rfl
    | complete r' d m =>
      cases hq
      simp only [Request.first, Cmd.exec, fetched] at hflow
      split at hflow
      · cases hflow
      · rename_i st hst
        split at hflow
        · cases hflow
        · rename_i huploading
          exact absurd ⟨rfl, hst.trans (by simpa using huploading)⟩ hedit
    | reprocess r' | summarize r' template =>
      cases hq
      simp only [Request.first, Cmd.exec, fetched] at hflow
      split at hflow
      · cases hflow
      · rename_i st hst
        exact absurd ⟨rfl, by simp [Request.recording, hst]⟩ hedit
    | rediarize r' =>
      cases hq
      simp only [Request.first, Cmd.exec, fetched] at hflow
      split at hflow
      · cases hflow
      · cases hflow
        exact .rediarize
    | deleteSpeaker r' idx =>
      cases hq
      simp only [Request.first, Cmd.exec, fetched] at hflow
      split at hflow
      · cases hflow
      · cases hflow
        exact .speaker idx _
  | rediarize =>
    cases hlist
    have hnone : (db.content.transcript r).isNone = true := by
      by_contra hsome
      exact hedit ⟨rfl, by simpa [Option.isSome_iff_ne_none] using hsome⟩
    simp [Cmd.exec, hnone] at hflow
  | speaker idx rest =>
    cases hlist
    have hnone : (db.content.speakers.any fun p => p.recordingId == r && p.localIdx == idx) = false := by
      by_contra hsome
      exact hedit ⟨rfl, by simpa using hsome⟩
    simp [Cmd.exec, Stmt.exec, hnone] at hflow
  | @report _ job hc =>
    cases hlist
    by_cases hr : job.recordingId = some r
    · cases c with
      | completeJob job' =>
        cases hc
        cases hflow
        rw [postSteps_live hr (hlive job rfl hr)]
        exact .spare (by simp [Cmd.spares])
      | failSelect job' error =>
        cases hc
        simp only [Cmd.exec] at hflow
        split at hflow
        · cases hflow
        · cases hflow
          exact .report rfl
      | failUpdate job' error n =>
        cases hc
        have hlt := hfail job error n rfl hr
        simp only [Cmd.exec] at hflow
        split at hflow
        · cases hflow
        · cases hflow
          exact .spare (by simp)
        · rename_i hwrite
          simpa [hlt] using (failWrite_eq_some hwrite).1
      | deferJob job' delay =>
        simp only [Cmd.exec] at hflow
        split at hflow
        · cases hflow
        · cases hflow
          exact .spare (by simp)
      | _ => cases hc
    · have hsp : c.spares r ∨ ∃ error, c = .failSelect job error := by
        cases c with
        | completeJob | failUpdate =>
          cases hc
          exact .inl hr
        | failSelect job' error =>
          cases hc
          exact .inr ⟨error, rfl⟩
        | deferJob => exact .inl trivial
        | _ => cases hc
      rcases hsp with hsp | ⟨error, rfl⟩
      · exact hspare hsp rfl
      · simp only [Cmd.exec] at hflow
        split at hflow
        · cases hflow
        · cases hflow
          exact .report rfl

/-! ## Whole runs -/

theorem sideOnly_start : SideOnly r Sys.start where
  status := .inl rfl
  aside _ _ h := nomatch h
  kinds _ h := nomatch h
  held _ _ h := nomatch h

theorem aside_first {q : Request} : Aside r [q.first] := by
  by_cases hr : q.recording = r
  · exact .call q hr
  · refine .spare fun c hc => ?_
    rw [List.mem_singleton.mp hc]
    cases q <;> first | exact hr | trivial

theorem sideOnly_moved (hs : Snapshot s) (hside : SideOnly r s) (hedit : Unedited r s a)
    (hlast : SparesLast cfg r s a) (h : Moved cfg s a s') : SideOnly r s' := by
  constructor
  · cases h with
    | @cmd i c rest x hproc =>
      exact aside_status (hside.aside i _ hproc) (hedit c rest hproc) hside.status
    | _ => exact hside.status
  · have hset {k : ℕ} {p : Proc} {s₁ : Sys} (hprocs : s₁.procs = s.procs)
        (hp : ∀ cs, p = .todo cs → Aside r cs) (i : ℕ) (cs : List Cmd)
        (hproc : (s₁.setProc k p).procs i = .todo cs) : Aside r cs := by
      by_cases hik : i = k
      · rw [hik, Sys.setProc_self] at hproc
        exact hp cs hproc
      · rw [Sys.setProc_of_ne hik, hprocs] at hproc
        exact hside.aside i cs hproc
    cases h with
    | tick | heartbeat => exact hside.aside
    | request => exact hset rfl fun cs hcs => Proc.todo.inj hcs ▸ aside_first
    | reaper =>
      exact hset rfl fun cs hcs => Proc.todo.inj hcs ▸ .spare (by simp [Cmd.spares])
    | claim | stmt => exact hset rfl (by rintro _ ⟨⟩)
    | stmtErr | bodyDone | stageErr | windowClosed =>
      exact hset rfl fun cs hcs => Proc.todo.inj hcs ▸ .report rfl
    | @stop i =>
      apply hset rfl
      intro cs hcs
      cases hp : s.procs i with
      | idle | stage | todo | ended => simp [hp, Proc.stopped] at hcs
    | @cmd i c rest x hproc =>
      apply hset rfl
      intro cs hcs
      cases hflow : (c.exec cfg x s.db).2 with
      | reply code => simp [hflow, advance] at hcs
      | abort => simp [hflow, advance] at hcs
      | next cs' =>
        rw [hflow] at hcs
        cases hcs
        apply aside_next (hside.aside i _ hproc) (hedit c rest hproc) _ _ _ hflow
        · rintro job error n rfl
          exact hlast.1 job error n rest hproc
        · rintro rfl
          exact hlast.2 rest hproc
        · intro job hc
          exact hside.held i job (by rw [hproc]; exact hc)
  · intro row hrow hr
    rcases moved_rows h hrow with ⟨old, hold, hcont⟩ |
      ⟨i, x, r', k, payload, strict, rest, -, hproc, rfl⟩
    · exact hcont.kind.trans (hside.kinds old hold (hcont.recordingId.symm.trans hr))
    · have hrr : r' = r := Option.some.inj hr
      have haside := hside.aside i _ hproc
      generalize hlist : Cmd.insertJob r' k payload strict :: rest = l at haside
      cases haside with
      | spare h =>
        subst hlist
        exact h _ List.mem_cons_self hrr
      | call q => cases q <;> cases hlist
      | rediarize | speaker => cases hlist
      | report hc =>
        cases hlist
        cases hc
  · intro i job hjob hr
    rcases moved_job hs h hjob with hold | ⟨w, kinds, t, -, hclaim⟩
    · exact hside.held i job hold hr
    · rcases claimOne_eq_some hclaim with ⟨j, hrow, -, hj, -⟩
      change job = claimed s.db.now w j at hj
      rw [hj] at hr ⊢
      exact hside.kinds j (row_eq_some.mp hrow).1 hr

theorem sideOnly_run {tr : List Label}
    (h : Run (step cfg) (fun s a => Unedited r s a ∧ SparesLast cfg r s a) Sys.start tr s) :
    SideOnly r s := by
  have hinv : Snapshot s ∧ SideOnly r s := by
    apply h.invariant (I := fun s => Snapshot s ∧ SideOnly r s)
    · exact ⟨snapshot_start, sideOnly_start⟩
    · rintro s a s' ⟨hs, hside⟩ ⟨hedit, hlast⟩ hstep
      have hmoved := step_moved hstep
      exact ⟨snapshot_moved hs hmoved, sideOnly_moved hs hside hedit hlast hmoved⟩
  exact hinv.2

/-- The handler's statements after an accepted status check, run without a break. -/
theorem exec_accepted (cfg : Config) {sts : List Stmt}
    (hsts : ∀ st ∈ sts, ∀ now status c, ∃ c', st.exec now status {} c = some (c', []))
    (hproc : s.procs i = .todo (sts.map .content ++ [.markProcessing r]))
    (hsome : (s.db.status r).isSome = true)
    (hno : s.db.jobs.has r .transcode Job.isLive = false) :
    ∃ s', exec (step cfg) s (List.replicate (sts.length + 3) (.step i {})) = some s' ∧
      s'.procs i = .ended (some 200) [] ∧ Live s' r .transcode := by
  induction sts generalizing s with
  | nil =>
    have hmark : Cmd.exec cfg {} s.db (.markProcessing r) =
        (s.db.setStatus r .processing, .next [enqueue r .transcode {}, .reply 200]) := by
      simp [Cmd.exec, hsome]
    have hproc₁ : (s.after cfg {} i (.markProcessing r) []).procs i =
        .todo [enqueue r .transcode {}, .reply 200] := by
      rw [after_procs_self, hmark]
      rfl
    generalize hs₁ : s.after cfg {} i (.markProcessing r) [] = s₁ at hproc₁
    have hdb₁ : s₁.db = s.db.setStatus r .processing := by
      rw [← hs₁, after_db, hmark]
    have hsome₁ : (s₁.db.status r).isSome = true := by simp [hdb₁]
    have hins := exec_enqueue cfg {} .transcode hsome₁
    have hno₁ : s₁.db.jobs.has r .transcode Job.isLive = false := by rw [hdb₁]; exact hno
    rw [hno₁] at hins
    have hproc₂ : (s₁.after cfg {} i (enqueue r .transcode {}) [.reply 200]).procs i =
        .todo [.reply 200] := by
      rw [after_procs_self, hins.2]
      rfl
    refine ⟨(s₁.after cfg {} i (enqueue r .transcode {}) [.reply 200]).after cfg {} i
      (.reply 200) [], ?_, ?_, ?_⟩
    · simp only [List.length_nil, List.replicate, exec, step_after hproc, hs₁,
        step_after hproc₁, step_after hproc₂, Option.bind_some]
    · rw [after_procs_self]
      rfl
    · rw [Live, after_db]
      change (s₁.after cfg {} i (enqueue r .transcode {}) [.reply 200]).db.jobs.has r _ _ = true
      rw [after_db, hins.1]
      exact (jobsFrame_insert (r := r) (x := fun _ => False)).2
  | cons st sts ih =>
    rcases hsts st List.mem_cons_self s.db.now s.db.status s.db.content with ⟨c', hc'⟩
    have hexec : Cmd.exec cfg {} s.db (.content st) =
        ({ s.db with content := c' }, .next []) := by
      simp [Cmd.exec, hc']
    have hdb : (s.after cfg {} i (.content st) (sts.map .content ++ [.markProcessing r])).db =
        { s.db with content := c' } := by
      rw [after_db, hexec]
    have hnext : (s.after cfg {} i (.content st) (sts.map .content ++ [.markProcessing r])).procs i =
        .todo (sts.map .content ++ [.markProcessing r]) := by
      rw [after_procs_self, hexec]
      rfl
    rcases ih (fun st' h => hsts st' (List.mem_cons_of_mem _ h)) hnext (by rw [hdb]; exact hsome)
      (by rw [hdb]; exact hno) with ⟨s', hrun, hs'⟩
    refine ⟨s', ?_, hs'⟩
    rw [List.length_cons, Nat.add_right_comm, List.replicate_succ, exec, step_after hproc]
    exact hrun

/-- A complete sent to a recording in `uploading` is accepted and enqueues transcode. -/
theorem exec_complete (hst : s.db.status r = some .uploading) (hidle : s.procs i = .idle)
    (hno : s.db.jobs.has r .transcode Job.isLive = false) (d : Option ℤ) (m : Option (List ℤ)) :
    ∃ s', exec (step cfg) s (.request i (.complete r d m) ::
      List.replicate (4 + d.toList.length + m.toList.length) (.step i {})) = some s' ∧
      s'.procs i = .ended (some 200) [] ∧ Live s' r .transcode := by
  let sts : List Stmt := d.toList.map (.setDuration r) ++ m.toList.map (.setMarks r)
  have hread : Cmd.exec cfg {} s.db (.completeRead r d m) =
      (s.db, .next (sts.map .content ++ [.markProcessing r])) := by
    simp [Cmd.exec, fetched, hst, sts, Function.comp_def]
  have hreq : step cfg s (.request i (.complete r d m)) =
      some (s.setProc i (.todo [.completeRead r d m])) := by
    simp [step, hidle, Request.first]
  have hproc : ((s.setProc i (.todo [.completeRead r d m])).after cfg {} i
      (.completeRead r d m) []).procs i = .todo (sts.map .content ++ [.markProcessing r]) := by
    rw [after_procs_self, Sys.setProc_db, hread, advance, List.append_nil]
  have hdb : ((s.setProc i (.todo [.completeRead r d m])).after cfg {} i
      (.completeRead r d m) []).db = s.db := by
    rw [after_db, Sys.setProc_db, hread]
  have hsts : ∀ st ∈ sts, ∀ now status c, ∃ c', st.exec now status {} c = some (c', []) := by
    intro st hst now status c
    rcases List.mem_append.mp hst with h | h
    · rcases List.mem_map.mp h with ⟨ms, -, rfl⟩
      exact ⟨_, rfl⟩
    · rcases List.mem_map.mp h with ⟨ms, -, rfl⟩
      exact ⟨_, rfl⟩
  rcases exec_accepted cfg hsts hproc (by simp [hdb, hst]) (by rw [hdb]; exact hno) with
    ⟨s', hrun, hs'⟩
  refine ⟨s', ?_, hs'⟩
  have hlen : 4 + d.toList.length + m.toList.length = (sts.length + 3) + 1 := by
    simp [sts]
    omega
  rw [exec, hreq, Option.bind_some, hlen, List.replicate_succ, exec, step_after Sys.setProc_self,
    Option.bind_some]
  exact hrun
/-- In every run in which no edit of a recording is accepted and none of its live jobs
uses its last attempt, a recording that exists is in `uploading`, and a complete sent
for it is accepted and enqueues its transcode job. -/
theorem uploading_of_unedited {tr : List Label}
    (h : Run (step cfg) (fun s a => Unedited r s a ∧ SparesLast cfg r s a) Sys.start tr s)
    (hknown : (s.db.status r).isSome = true) :
    s.db.status r = some .uploading ∧
      ∀ i d m, s.procs i = .idle → ∃ s', exec (step cfg) s (.request i (.complete r d m) ::
        List.replicate (4 + d.toList.length + m.toList.length) (.step i {})) = some s' ∧
        s'.procs i = .ended (some 200) [] ∧ Live s' r .transcode := by
  have hside := sideOnly_run h
  have hst : s.db.status r = some .uploading := by
    apply hside.status.resolve_left
    intro hnone
    simp [hnone] at hknown
  refine ⟨hst, fun i d m hidle => exec_complete hst hidle ?_ d m⟩
  by_contra hlive
  rcases has_iff.mp (by simpa using hlive) with ⟨row, hrow, hk, -⟩
  have hkind := hside.kinds row hrow hk.1
  rw [hk.2] at hkind
  cases hkind

/-- A live job fails, and its retry is due at once. -/
def failedPass (i : ℕ) : List Label :=
  [.claim i 1 [.transcribeSegment] 1, .stageErr i ""] ++ steps i 2 ++ [.tick 80000000]

/-- Recording 7 gets one segment, and its live job fails until it is parked. -/
def parkedRun : List Label :=
  [Label.request 0 (.create 7)] ++ steps 0 1 ++ [Label.request 1 (.putSegment 7 0 none none)] ++ steps 1 4 ++ failedPass 2 ++ failedPass 3 ++ failedPass 4 ++
    failedPass 5 ++ failedPass 6 ++ [Label.step 6 {}]

/-- A test that lets no handler of an edit read, and no speaker be deleted. -/
def noEdit (s : Sys) : Label → Bool
  | .step i _ =>
    match s.procs i with
    | .todo (c :: _) =>
      match c with
      | .completeRead _ _ _ | .reprocessRead _ | .summarizeRead _ _ | .resetForRediarize _
      | .content (.deleteSpeaker _ _) => false
      | _ => true
    | _ => true
  | _ => true

theorem unedited_of_noEdit (h : noEdit s a = true) : Unedited r s a := by
  cases a with
  | step i x =>
    intro c rest hproc haccept
    cases c with
    | completeRead | reprocessRead | summarizeRead | resetForRediarize => simp [noEdit, hproc] at h
    | content st =>
      cases st with
      | deleteSpeaker => simp [noEdit, hproc] at h
      | _ => exact haccept
    | _ => exact haccept
  | _ => trivial

def parkedState : Sys := (exec (guarded (step {}) noEdit) Sys.start parkedRun).get (by decide +kernel)

/-- Five failures of a live job fail a recording that is still being uploaded. -/
theorem not_uploading_of_unedited :
    ¬ ∀ (tr : List Label) (s : Sys) (r : Uuid), Run (step {}) (Unedited r) Sys.start tr s →
      (s.db.status r).isSome = true → s.db.status r = some .uploading := by
  intro h
  have hfailed : parkedState.db.status 7 = some .failed := by decide +kernel
  have huploading := h parkedRun parkedState 7 (run_of_guarded _ fun _ _ => unedited_of_noEdit)
    (by rw [hfailed]; rfl)
  rw [hfailed] at huploading
  cases huploading

/-- A test that lets no failure be reported at the last attempt, and no reap. -/
def belowCap (s : Sys) : Label → Bool
  | .step i _ =>
    match s.procs i with
    | .todo (.failUpdate _ _ n :: _) => decide (n < 5)
    | .todo (.reapStuck :: _) => false
    | _ => true
  | _ => true

theorem sparesLast_of_belowCap (h : belowCap s a = true) : SparesLast {} r s a := by
  cases a with
  | step i x =>
    refine ⟨fun job error n rest hproc _ => ?_, fun rest hproc => ?_⟩
    · simpa [belowCap, hproc] using h
    · simp [belowCap, hproc] at h
  | _ => trivial

/-- The live job of recording 7 fails four times. -/
def retriedRun : List Label :=
  [Label.request 0 (.create 7)] ++ steps 0 1 ++ [Label.request 1 (.putSegment 7 0 none none)] ++ steps 1 4 ++ failedPass 2 ++ failedPass 3 ++ failedPass 4 ++ failedPass 5

def retriedState : Sys :=
  (exec (guarded (step {}) fun s a => noEdit s a && belowCap s a) Sys.start retriedRun).get (by decide +kernel)

theorem run_retriedState :
    Run (step {}) (fun s a => Unedited 7 s a ∧ SparesLast {} 7 s a) Sys.start retriedRun
      retriedState :=
  run_of_guarded _ fun _ _ h =>
    ⟨unedited_of_noEdit (Bool.and_eq_true_iff.mp h).1, sparesLast_of_belowCap (Bool.and_eq_true_iff.mp h).2⟩

theorem uploading_of_unedited_retriedState : retriedState.db.status 7 = some .uploading :=
  (uploading_of_unedited run_retriedState (by decide +kernel)).1

end ScribeLocal.Server
