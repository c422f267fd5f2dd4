import ScribeLocal.Server.Effect
import ScribeLocal.Server.Lease

/-! # What one step can do to the rows, the status and the lists

Inversion lemmas about single steps, for invariants that look at more than one
pipeline: where a new row comes from, who completes a job, who writes a status, and
which commands a list can come to hold.
-/
namespace ScribeLocal.Server
open Table Jobs Transition

variable {cfg : Config} {r : Uuid} {s s' : Sys} {a : Label} {k : JobKind} {x : Heard} {db : Db}
  {c : Cmd} {job : Job}

/-! ## New rows -/

theorem exec_nextId (hc : ∀ r k payload strict, c ≠ .insertJob r k payload strict) :
    (c.exec cfg x db).1.jobs.nextId = db.jobs.nextId := by
  cases c with
  | insertJob r k payload strict => exact absurd rfl (hc r k payload strict)
  | failUpdate job error n =>
    simp only [Cmd.exec]
    split
    · rfl
    · rename_i hwrite
      exact (failWrite_eq_some hwrite).2.1
    · rename_i hwrite
      exact (failWrite_eq_some hwrite).2.1
  | deferJob job delay =>
    simp only [Cmd.exec]
    split
    · rfl
    · rename_i hdefer
      exact (tryUpdate_rows hdefer).2
  | _ =>
    simp only [Cmd.exec, fetched]
    repeat' split
    all_goals rfl

/-- `row` is what has become of `old`: the key columns never change. -/
structure Job.Continues (row old : Job) : Prop where
  id : row.id = old.id
  kind : row.kind = old.kind
  recordingId : row.recordingId = old.recordingId

/-- A row is either an old one or the one an insert wrote. -/
theorem exec_rows {row : Job} (h : row ∈ (c.exec cfg x db).1.jobs.rows) :
    (∃ old ∈ db.jobs.rows, Job.Continues row old) ∨
      ∃ r k payload strict, c = .insertJob r k payload strict ∧
        row = newJob db.now db.jobs.nextId r k payload 0 := by
  have hrow : (c.exec cfg x db).1.jobs.row row.id = some row := row_eq_some.mpr ⟨h, rfl⟩
  by_cases hid : row.id < db.jobs.nextId
  · left
    rcases (exec_extends c).row_of_row row.id hid row hrow with ⟨old, hold, hk, hr⟩
    have hmem := row_eq_some.mp hold
    exact ⟨old, hmem.1, hmem.2.symm, hk, hr⟩
  · right
    by_cases hc : ∀ r k payload strict, c ≠ .insertJob r k payload strict
    · have hlt := (c.exec cfg x db).1.jobs.id_lt row h
      rw [exec_nextId hc] at hlt
      exact absurd hlt hid
    · push Not at hc
      rcases hc with ⟨r, k, payload, strict, rfl⟩
      refine ⟨r, k, payload, strict, rfl, ?_⟩
      cases hsome : (db.status r).isSome with
      | false =>
        have hnone : db.status r = none := by simpa using hsome
        simp only [Cmd.exec, hnone, Option.isNone_none, if_true] at h
        exact absurd (db.jobs.id_lt row h) hid
      | true =>
        rcases exec_insertJob cfg x k payload strict hsome with ⟨cs, hexec⟩
        rw [hexec] at h
        unfold Jobs.insert at h
        split at h
        · exact absurd (db.jobs.id_lt row h) hid
        · rcases List.mem_append.mp h with hold | hnew
          · exact absurd (db.jobs.id_lt row hold) hid
          · exact List.mem_singleton.mp hnew

/-- Where a row comes from: it is an old one, or some process has just inserted it. -/
theorem moved_rows (h : Moved cfg s a s') {row : Job} (hrow : row ∈ s'.db.jobs.rows) :
    (∃ old ∈ s.db.jobs.rows, Job.Continues row old) ∨
      ∃ i x r k payload strict rest, a = .step i x ∧
        s.procs i = .todo (.insertJob r k payload strict :: rest) ∧
        row = newJob s.db.now s.db.jobs.nextId r k payload 0 := by
  have hold (t : Jobs) (hext : s.db.jobs.Extends t) (hnext : t.nextId = s.db.jobs.nextId)
      (hmem : row ∈ t.rows) : ∃ old ∈ s.db.jobs.rows, Job.Continues row old := by
    have hlt : row.id < s.db.jobs.nextId := hnext ▸ t.id_lt row hmem
    rcases hext.row_of_row row.id hlt row (row_eq_some.mpr ⟨hmem, rfl⟩) with ⟨old, hold, hk, hr⟩
    have hmem := row_eq_some.mp hold
    exact ⟨old, hmem.1, hmem.2.symm, hk, hr⟩
  cases h with
  | @cmd i c rest x hproc =>
    rcases exec_rows hrow with hold | ⟨r, k, payload, strict, rfl, hnew⟩
    · exact .inl hold
    · exact .inr ⟨i, x, r, k, payload, strict, rest, rfl, hproc, hnew⟩
  | claim hidle hclaim =>
    refine .inl (hold _ (extends_claimOne hclaim) ?_ hrow)
    unfold claimOne at hclaim
    split at hclaim
    · cases hclaim
    · split at hclaim
      · cases hclaim
        rfl
      · cases hclaim
  | @heartbeat i job body w =>
    have hext : s.db.jobs.Extends (s.db.jobs.heartbeat s.db.now job.id w) :=
      extends_update keeps_renewed rfl rfl
    exact .inl (hold _ hext rfl hrow)
  | _ => exact .inl ⟨row, hrow, rfl, rfl, rfl⟩

/-! ## Done jobs -/

theorem done_insert {y : JobKind} {t : Jobs} {now : Time} {payload : Payload} {priority : ℤ} :
    (t.insert now r y payload priority).2.has r k (fun j => j.state == .done) =
      t.has r k fun j => j.state == .done := by
  unfold Jobs.insert
  split
  · rfl
  · rw [has, List.any_append, ← has]
    simp [newJob]

theorem done_complete {t : Jobs} {now : Time} {id : JobId} :
    (t.complete now id).has r k (fun j => j.state == .done) = true ↔
      t.has r k (fun j => j.state == .done) = true ∨
        ∃ row, t.row id = some row ∧ row.recordingId = some r ∧ row.kind = k := by
  have hmem {j : Job} (hj : j ∈ t.rows) :
      updateRow (fun j => j.id == id) (completed now) j ∈ (t.complete now id).rows :=
    mem_updateWhere.mpr ⟨j, hj, rfl⟩
  constructor
  · intro h
    rcases has_iff.mp h with ⟨j', hj', hk, hd⟩
    rcases mem_updateWhere.mp hj' with ⟨j, hj, rfl⟩
    rw [column_updateRow keeps_completed.recordingId, column_updateRow keeps_completed.kind] at hk
    by_cases hid : j.id = id
    · exact .inr ⟨j, row_eq_some.mpr ⟨hj, hid⟩, hk⟩
    · rw [updateRow_of_neg (by simpa using hid)] at hd
      exact .inl (has_iff.mpr ⟨j, hj, hk, hd⟩)
  · rintro (h | ⟨j, hrow, hk⟩)
    · rcases has_iff.mp h with ⟨j, hj, hk, hd⟩
      refine has_iff.mpr ⟨_, hmem hj, ?_, ?_⟩
      · rwa [column_updateRow keeps_completed.recordingId, column_updateRow keeps_completed.kind]
      · unfold updateRow
        split
        · rfl
        · exact hd
    · have hj := row_eq_some.mp hrow
      refine has_iff.mpr ⟨_, hmem hj.1, ?_, ?_⟩
      · rwa [column_updateRow keeps_completed.recordingId, column_updateRow keeps_completed.kind]
      · rw [updateRow_of_pos (by simpa using hj.2)]
        rfl

/-- An assignment that makes no row done leaves no new kind done. -/
theorem done_of_update {t t' : Jobs} {p : Job → Bool} {f : Job → Job} (hf : Keeps f)
    (hrows : t'.rows = updateWhere p f t.rows)
    (h : ∀ j, p j = true → (f j).state = .done → j.state = .done)
    (hdone : t'.has r k (fun j => j.state == .done) = true) :
    t.has r k (fun j => j.state == .done) = true := by
  rcases has_iff.mp hdone with ⟨j', hj', hk, hd⟩
  rw [hrows] at hj'
  rcases mem_updateWhere.mp hj' with ⟨j, hj, rfl⟩
  rw [column_updateRow hf.recordingId, column_updateRow hf.kind] at hk
  refine has_iff.mpr ⟨j, hj, hk, ?_⟩
  by_cases hp : p j = true
  · rw [updateRow_of_pos hp] at hd
    exact beq_iff_eq.mpr (h j hp (eq_of_beq hd))
  · rwa [updateRow_of_neg (by simpa using hp)] at hd

/-- A kind comes to have a done job only by a worker's report on one. -/
theorem exec_done (hs : Snapshot s) {i : ℕ} {rest : List Cmd}
    (hproc : s.procs i = .todo (c :: rest))
    (h : (c.exec cfg x s.db).1.jobs.has r k (fun j => j.state == .done) = true) :
    Done s r k ∨ ∃ job, c = .completeJob job ∧ job.recordingId = some r ∧ job.kind = k := by
  have hdelete (p : Job → Bool)
      (ht : (s.db.jobs.delete p).has r k (fun j => j.state == .done) = true) : Done s r k := by
    rcases has_iff.mp ht with ⟨j, hj, hk, hd⟩
    exact has_iff.mpr ⟨j, (mem_deleteWhere.mp hj).1, hk, hd⟩
  cases c with
  | completeJob job =>
    rcases done_complete.mp h with hd | ⟨row, hrow, hr, hk⟩
    · exact .inl hd
    · right
      have hcols := hs.columns i job row (by rw [hproc]; rfl) hrow
      exact ⟨job, rfl, hcols.2 ▸ hr, hcols.1 ▸ hk⟩
  | insertJob r' k' payload strict =>
    left
    simp only [Cmd.exec] at h
    split at h
    · exact h
    · have hins : JobsFrame r s.db.jobs (s.db.jobs.insert s.db.now r' k' payload 0).2 fun _ => False :=
        jobsFrame_insert.1
      apply (hins.done_new k _).resolve_right id
      rcases hi : s.db.jobs.insert s.db.now r' k' payload 0 with ⟨_ | j, t⟩
      · rwa [hi] at h
      · rwa [hi] at h
  | failUpdate job error n =>
    left
    simp only [Cmd.exec] at h
    have hfail {y : Bool × Jobs}
        (hy : s.db.jobs.failWrite s.db.now job.id error n cfg.maxAttempts cfg.backoff = some y)
        (ht : y.2.has r k (fun j => j.state == .done) = true) : Done s r k := by
      apply done_of_update keeps_failed (failWrite_eq_some hy).2.2 _ ht
      intro j _ hd
      rw [failed_state] at hd
      split at hd <;> cases hd
    split at h
    · exact h
    · rename_i hwrite
      exact hfail hwrite h
    · rename_i hwrite
      exact hfail hwrite h
  | deferJob job delay =>
    left
    simp only [Cmd.exec] at h
    split at h
    · exact h
    · rename_i hdefer
      exact done_of_update keeps_deferred (tryUpdate_rows hdefer).1 (by rintro _ _ ⟨⟩) h
  | reapStuck =>
    left
    apply done_of_update (t := s.db.jobs) keeps_reaped rfl _ h
    intro j _ hd
    unfold reaped at hd
    split at hd <;> cases hd
  | resetForReprocess r' =>
    left
    simp only [Cmd.exec] at h
    split at h
    · exact hdelete _ h
    · exact h
  | resetForRediarize r' =>
    left
    simp only [Cmd.exec] at h
    split at h
    · exact h
    · split at h
      · exact hdelete _ h
      · exact h
  | _ =>
    left
    simp only [Cmd.exec, fetched] at h
    repeat' split at h
    all_goals exact h

theorem moved_done (hs : Snapshot s) (h : Moved cfg s a s') (hdone : Done s' r k) :
    Done s r k ∨ ∃ i x job rest, a = .step i x ∧ s.procs i = .todo (.completeJob job :: rest) ∧
      job.recordingId = some r ∧ job.kind = k := by
  cases h with
  | @cmd i c rest x hproc =>
    rcases exec_done hs hproc hdone with hd | ⟨job, rfl, hr, hk⟩
    · exact .inl hd
    · exact .inr ⟨i, x, job, rest, rfl, hproc, hr, hk⟩
  | claim hidle hclaim =>
    have hframe : JobsFrame r s.db.jobs _ fun _ => False := jobsFrame_claimOne hclaim
    exact .inl ((hframe.done_new k hdone).resolve_right id)
  | @heartbeat i job body w =>
    exact .inl (done_of_update (t := s.db.jobs) keeps_renewed rfl (fun _ _ => id) hdone)
  | _ => exact .inl hdone

/-! ## Live jobs -/

/-- The two transactions that start a new run of the pipeline. -/
def Cmd.resets (r : Uuid) : Cmd → Prop
  | .resetForReprocess r' | .resetForRediarize r' => r' = r
  | _ => False

/-- How a recording can lose its live job of kind `k`. -/
inductive Ends (cfg : Config) (db : Db) (r : Uuid) (k : JobKind) : Cmd → Prop
  | complete {job : Job} (hr : job.recordingId = some r) (hk : job.kind = k) :
      Ends cfg db r k (.completeJob job)
  | park {job : Job} {error : String} {n : ℕ} (hr : job.recordingId = some r)
      (hk : job.kind = k) (hn : cfg.maxAttempts ≤ n) : Ends cfg db r k (.failUpdate job error n)
  | reap {row : Job} (hrow : row ∈ db.jobs.rows) (hr : row.recordingId = some r)
      (hk : row.kind = k) (hstuck : stuck db.now cfg.lease row = true)
      (hex : exhausted cfg.maxAttempts row = true) : Ends cfg db r k .reapStuck
  | reset {c : Cmd} (hreset : c.resets r) : Ends cfg db r k c

theorem exec_live (hs : Snapshot s) {i : ℕ} {rest : List Cmd}
    (hproc : s.procs i = .todo (c :: rest)) (hlive : Live s r k) :
    (c.exec cfg x s.db).1.jobs.has r k Job.isLive = true ∨ Ends cfg s.db r k c := by
  by_cases hreset : c.resets r
  · exact .inr (.reset hreset)
  -- the job a report is about has the columns of the row it changes
  have hcols {job j : Job} (hjob : c.job? = some job) (hj : j ∈ s.db.jobs.rows)
      (hid : (j.id == job.id) = true) :
      j.kind = job.kind ∧ j.recordingId = job.recordingId := by
    apply hs.columns i job j _ (row_eq_some.mpr ⟨hj, eq_of_beq hid⟩)
    rw [hproc]
    exact hjob
  have hdelete {p : Job → Bool} (hp : ∀ j, p j = true → j.recordingId ≠ some r) :
      (s.db.jobs.delete p).has r k Job.isLive = true := by
    have hframe : JobsFrame r s.db.jobs (s.db.jobs.delete p) fun _ => False := jobsFrame_delete hp
    exact (hframe.live k hlive).resolve_right id
  cases c with
  | insertJob r' k' payload strict =>
    left
    have hins : JobsFrame r s.db.jobs (s.db.jobs.insert s.db.now r' k' payload 0).2 fun _ => False :=
      jobsFrame_insert.1
    have hkept := (hins.live k hlive).resolve_right id
    simp only [Cmd.exec]
    split
    · exact hlive
    · rcases hi : s.db.jobs.insert s.db.now r' k' payload 0 with ⟨_ | j, t⟩
      · rwa [hi] at hkept
      · rwa [hi] at hkept
  | completeJob job =>
    by_cases hjob : job.recordingId = some r ∧ job.kind = k
    · exact .inr (.complete hjob.1 hjob.2)
    · left
      apply live_of_update keeps_completed rfl _ hlive
      intro j hj hid hr hk _
      have hc := hcols rfl hj hid
      exact absurd ⟨hc.2.symm.trans hr, hc.1.symm.trans hk⟩ hjob
  | failUpdate job error n =>
    by_cases hjob : (job.recordingId = some r ∧ job.kind = k) ∧ cfg.maxAttempts ≤ n
    · exact .inr (.park hjob.1.1 hjob.1.2 hjob.2)
    · left
      simp only [Cmd.exec]
      have hfail {y : Bool × Jobs}
          (hy : s.db.jobs.failWrite s.db.now job.id error n cfg.maxAttempts cfg.backoff = some y) :
          y.2.has r k Job.isLive = true := by
        apply live_of_update keeps_failed (failWrite_eq_some hy).2.2 _ hlive
        intro j hj hid hr hk _
        have hc := hcols rfl hj hid
        have hlt : n < cfg.maxAttempts := by
          by_contra hge
          exact hjob ⟨⟨hc.2.symm.trans hr, hc.1.symm.trans hk⟩, Nat.le_of_not_lt hge⟩
        exact Job.isLive_of_queued (by rw [failed_state, if_pos hlt])
      split
      · exact hlive
      · rename_i hwrite
        exact hfail hwrite
      · rename_i hwrite
        exact hfail hwrite
  | deferJob job delay =>
    left
    simp only [Cmd.exec]
    split
    · exact hlive
    · rename_i hdefer
      exact live_of_update keeps_deferred (tryUpdate_rows hdefer).1
        (fun _ _ _ _ _ _ => Job.isLive_of_queued rfl) hlive
  | reapStuck =>
    by_cases hex : ∃ row ∈ s.db.jobs.rows, row.recordingId = some r ∧ row.kind = k ∧
        stuck s.db.now cfg.lease row = true ∧ exhausted cfg.maxAttempts row = true
    · rcases hex with ⟨row, hrow, hr, hk, hstuck, hex⟩
      exact .inr (.reap hrow hr hk hstuck hex)
    · left
      apply live_of_update (t := s.db.jobs) keeps_reaped rfl _ hlive
      intro j hj hstuck hr hk _
      have hno : exhausted cfg.maxAttempts j = false := by
        by_contra hex'
        exact hex ⟨j, hj, hr, hk, hstuck, by simpa using hex'⟩
      exact Job.isLive_of_queued (by simp [reaped, hno])
  | resetForReprocess r' =>
    left
    simp only [Cmd.exec]
    split
    · exact hdelete fun j hj hr => hreset (Option.some.inj ((eq_of_beq hj).symm.trans hr))
    · exact hlive
  | resetForRediarize r' =>
    left
    simp only [Cmd.exec]
    split
    · exact hlive
    · split
      · apply hdelete
        intro j hj hr
        exact hreset (Option.some.inj
          ((eq_of_beq (Bool.and_eq_true_iff.mp hj).1).symm.trans hr))
      · exact hlive
  | _ =>
    left
    simp only [Cmd.exec, fetched]
    repeat' split
    all_goals exact hlive

/-- Who writes the status of a recording, and what. -/
theorem exec_status (cfg : Config) (x : Heard) (db : Db) (c : Cmd) (r : Uuid) :
    (c.exec cfg x db).1.status r = db.status r ∨
      (c = .createRecording r ∧ db.status r = none ∧
        (c.exec cfg x db).1.status r = some .uploading) ∨
      ((c = .markProcessing r ∨ c = .resetForReprocess r ∨ c = .resetForRediarize r) ∧
        (c.exec cfg x db).1.status r = some .processing) ∨
      (c = .markReady r ∧ (c.exec cfg x db).1.status r = some .ready) ∨
      (c = .parkRecording r ∧ (c.exec cfg x db).1.status r = some .failed) := by
  have hset (r' : Uuid) (st : RecordingStatus) : (db.setStatus r' st).status r = db.status r ∨
      (r' = r ∧ (db.setStatus r' st).status r = some st) := by
    by_cases hr : r' = r
    · subst hr
      exact .inr ⟨rfl, Db.setStatus_self⟩
    · exact .inl (Db.setStatus_of_ne hr)
  cases c with
  | createRecording r' =>
    simp only [Cmd.exec]
    split
    · exact .inl rfl
    · rename_i hnone
      rcases hset r' .uploading with h | ⟨rfl, h⟩
      · exact .inl h
      · exact .inr (.inl ⟨rfl, by simpa using hnone, h⟩)
  | markProcessing r' | resetForReprocess r' =>
    simp only [Cmd.exec]
    split
    · rcases hset r' .processing with h | ⟨rfl, h⟩
      · exact .inl h
      · exact .inr (.inr (.inl ⟨by simp, h⟩))
    · exact .inl rfl
  | resetForRediarize r' =>
    simp only [Cmd.exec]
    split
    · exact .inl rfl
    · split
      · rcases hset r' .processing with h | ⟨rfl, h⟩
        · exact .inl h
        · exact .inr (.inr (.inl ⟨by simp, h⟩))
      · exact .inl rfl
  | markReady r' =>
    simp only [Cmd.exec]
    split
    · rcases hset r' .ready with h | ⟨rfl, h⟩
      · exact .inl h
      · exact .inr (.inr (.inr (.inl ⟨rfl, h⟩)))
    · exact .inl rfl
  | parkRecording r' =>
    simp only [Cmd.exec]
    split
    · rcases hset r' .failed with h | ⟨rfl, h⟩
      · exact .inl h
      · exact .inr (.inr (.inr (.inr ⟨rfl, h⟩)))
    · exact .inl rfl
  | _ =>
    left
    simp only [Cmd.exec, fetched]
    repeat' split
    all_goals rfl

/-- A command stays pending if its process, should it be the one that is set, keeps it. -/
theorem pending_of_setProc {b : Bool} {i k : ℕ} {p : Proc} {s₁ : Sys} (hprocs : s₁.procs = s.procs)
    (hk : c ∈ (s.procs k).pending b) (hp : i = k → c ∈ p.pending b) :
    Pending b (s₁.setProc i p) c := by
  by_cases hki : i = k
  · exact ⟨i, by rw [Sys.setProc_self]; exact hp hki⟩
  · exact ⟨k, by rwa [Sys.setProc_of_ne (Ne.symm hki), hprocs]⟩

/-- A pending command stays where it is until its own process runs a command or stops. -/
theorem moved_pending_of {b : Bool} {k : ℕ} (h : Moved cfg s a s')
    (hk : c ∈ (s.procs k).pending b) :
    Pending b s' c ∨ (∃ x c' rest, a = .step k x ∧ s.procs k = .todo (c' :: rest)) ∨
      a = .stop k := by
  have hset {i : ℕ} {p : Proc} {s₁ : Sys} (hprocs : s₁.procs = s.procs) :=
    pending_of_setProc (i := i) (p := p) hprocs hk
  cases h with
  | tick | heartbeat => exact .inl ⟨k, hk⟩
  | request q hidle | reaper hidle =>
    refine .inl (hset rfl ?_)
    rintro rfl
    rw [hidle] at hk
    cases hk
  | claim hidle =>
    refine .inl (hset rfl ?_)
    rintro rfl
    rw [hidle] at hk
    cases hk
  | stmt _ hproc | stmtErr _ hproc | bodyDone _ hproc | stageErr _ hproc | windowClosed _ hproc =>
    refine .inl (hset rfl ?_)
    rintro rfl
    rw [hproc] at hk
    cases hk
  | @stop i =>
    by_cases hki : i = k
    · exact .inr (.inr (hki ▸ rfl))
    · exact .inl (hset rfl fun heq => absurd heq hki)
  | @cmd i c' rest x hproc =>
    by_cases hki : i = k
    · subst hki
      exact .inr (.inl ⟨x, c', rest, rfl, hproc⟩)
    · exact .inl (hset rfl fun heq => absurd heq hki)

/-- A command leaves the lists when its process executes it, is over or stops. -/
theorem moved_pending (h : Moved cfg s a s') (hpend : Pending false s c) :
    Pending false s' c ∨ (∃ i x c' rest, a = .step i x ∧ s.procs i = .todo (c' :: rest) ∧
      (c' = c ∨ c ∈ rest ∧ ∀ cs, (c'.exec cfg x s.db).2 ≠ .next cs)) ∨
      ∃ i, a = .stop i ∧ c ∈ (s.procs i).pending false := by
  rcases hpend with ⟨k, hk⟩
  rcases moved_pending_of h hk with hkept | ⟨x, c', rest, rfl, hproc⟩ | rfl
  · exact .inl hkept
  · obtain rfl := next_of_todo h hproc
    rw [hproc] at hk
    cases hflow : (c'.exec cfg x s.db).2 with
    | next cs =>
      rcases List.mem_cons.mp hk with rfl | hrest
      · exact .inr (.inl ⟨k, x, c, rest, rfl, hproc, .inl rfl⟩)
      · left
        refine ⟨k, ?_⟩
        rw [Sys.setProc_self]
        exact List.mem_append_right _ hrest
    | reply | abort =>
      refine .inr (.inl ⟨k, x, c', rest, rfl, hproc, ?_⟩)
      rcases List.mem_cons.mp hk with rfl | hrest
      · exact .inl rfl
      · exact .inr ⟨hrest, by simp [hflow]⟩
  · exact .inr (.inr ⟨k, rfl, hk⟩)

/-- A live job ends by a command only. -/
theorem moved_live (hs : Snapshot s) (h : Moved cfg s a s') (hlive : Live s r k) :
    Live s' r k ∨ ∃ i x c rest, a = .step i x ∧ s.procs i = .todo (c :: rest) ∧
      Ends cfg s.db r k c := by
  cases h with
  | @cmd i c rest x hproc =>
    exact (exec_live hs hproc hlive).imp id fun hends => ⟨i, x, c, rest, rfl, hproc, hends⟩
  | claim hidle hclaim =>
    have hframe : JobsFrame r s.db.jobs _ fun _ => False := jobsFrame_claimOne hclaim
    exact .inl ((hframe.live _ hlive).resolve_right id)
  | @heartbeat i job body w =>
    have hframe : JobsFrame r s.db.jobs (s.db.jobs.heartbeat s.db.now job.id w) fun _ => False :=
      jobsFrame_heartbeat
    exact .inl ((hframe.live _ hlive).resolve_right id)
  | _ => exact .inl hlive

/-- What holds of every command on every list, when it holds of the first command of a
process and passes to what follows. -/
theorem moved_todo_told {P : ℕ → Cmd → Prop} (h : Moved cfg s a s')
    (hold : ∀ i cs, s.procs i = .todo cs → ∀ c ∈ cs, P i c)
    (hnext : ∀ i x c rest c', a = .step i x → s.procs i = .todo (c :: rest) →
      Follows cfg s.db c c' → P i c')
    (hfirst : ∀ i q, a = .request i q → P i q.first) (hreap : ∀ i, P i .reapStuck)
    (hdone : ∀ i job, s.procs i = .stage job [] → P i (.completeJob job))
    (hfail : ∀ i job body error, s.procs i = .stage job body →
      (a = .stageErr i error ∨ ∃ x st body', a = .step i x ∧ body = st :: body' ∧
        st.exec s.db.now s.db.status x s.db.content = none) → P i (.failSelect job error))
    (hdefer : ∀ i job body delay, a = .windowClosed i delay → s.procs i = .stage job body →
      P i (.deferJob job delay)) :
    ∀ i cs, s'.procs i = .todo cs → ∀ c ∈ cs, P i c := by
  have hset {k : ℕ} {p : Proc} {s₁ : Sys} (hprocs : s₁.procs = s.procs)
      (hp : ∀ cs, p = .todo cs → ∀ c ∈ cs, P k c) (i : ℕ) (cs : List Cmd)
      (hproc : (s₁.setProc k p).procs i = .todo cs) : ∀ c ∈ cs, P i c := by
    by_cases hik : i = k
    · subst hik
      rw [Sys.setProc_self] at hproc
      exact hp cs hproc
    · rw [Sys.setProc_of_ne hik, hprocs] at hproc
      exact hold i cs hproc
  have hone {k : ℕ} {c : Cmd} (hc : P k c) :
      ∀ cs, Proc.todo [c] = .todo cs → ∀ c' ∈ cs, P k c' := by
    rintro cs ⟨⟩ c' hc'
    rwa [List.mem_singleton.mp hc']
  cases h with
  | tick | heartbeat => exact hold
  | request q => exact hset rfl (hone (hfirst _ q rfl))
  | reaper => exact hset rfl (hone (hreap _))
  | @claim i w kinds id j t =>
    exact hset (show (s.setJobs t).procs = s.procs from rfl) fun cs hcs => nomatch hcs
  | @stmt i job st body c sts =>
    have hprocs : ({ s with db := { s.db with content := c } } : Sys).procs = s.procs := rfl
    exact hset hprocs fun cs hcs => nomatch hcs
  | stmtErr x hproc hexec =>
    exact hset rfl (hone (hfail _ _ _ _ hproc (.inr ⟨x, _, _, rfl, rfl, hexec⟩)))
  | stageErr error hproc => exact hset rfl (hone (hfail _ _ _ error hproc (.inl rfl)))
  | bodyDone _ hproc => exact hset rfl (hone (hdone _ _ hproc))
  | windowClosed _ hproc => exact hset rfl (hone (hdefer _ _ _ _ rfl hproc))
  | @stop i =>
    apply hset rfl
    intro cs hcs
    cases hp : s.procs i <;> rw [hp] at hcs <;> cases hcs
  | @cmd i c rest x hproc =>
    have hprocs : ({ s with db := (c.exec cfg x s.db).1 } : Sys).procs = s.procs := rfl
    apply hset hprocs
    intro cs hcs c' hc'
    cases hflow : (c.exec cfg x s.db).2 with
    | reply code => simp [hflow, advance] at hcs
    | abort => simp [hflow, advance] at hcs
    | next cs' =>
      rw [hflow] at hcs
      cases hcs
      rcases List.mem_append.mp hc' with hc' | hc'
      · exact hnext i x c rest c' rfl hproc (exec_follows hflow hc')
      · exact hold i _ hproc c' (List.mem_cons_of_mem _ hc')

/-- The same where neither the process nor how long a job is put back for matters. -/
theorem moved_todo {P : Cmd → Prop} (h : Moved cfg s a s')
    (hold : ∀ i cs, s.procs i = .todo cs → ∀ c ∈ cs, P c)
    (hnext : ∀ i x c rest c', a = .step i x → s.procs i = .todo (c :: rest) →
      Follows cfg s.db c c' → P c')
    (hfirst : ∀ i q, a = .request i q → P q.first) (hreap : P .reapStuck)
    (hdone : ∀ i job, s.procs i = .stage job [] → P (.completeJob job))
    (hfail : ∀ i job body error, s.procs i = .stage job body →
      (a = .stageErr i error ∨ ∃ x st body', a = .step i x ∧ body = st :: body' ∧
        st.exec s.db.now s.db.status x s.db.content = none) → P (.failSelect job error))
    (hdefer : ∀ i job body delay, s.procs i = .stage job body → P (.deferJob job delay)) :
    ∀ i cs, s'.procs i = .todo cs → ∀ c ∈ cs, P c := by
  exact moved_todo_told (P := fun _ => P) h hold hnext hfirst (fun _ => hreap) hdone hfail
    fun i job body delay _ => hdefer i job body delay

/-! ## One process -/

/-- What a step does to a process that has statements left. -/
theorem moved_todo_by {i : ℕ} {rest : List Cmd} (h : Moved cfg s a s')
    (hproc : s.procs i = .todo (c :: rest)) :
    (a.proc ≠ some i ∧ s'.procs i = s.procs i) ∨
      (∃ x, a = .step i x ∧ s' = s.after cfg x i c rest) ∨
      (a = .stop i ∧ s'.procs i = .ended none (c :: rest)) := by
  by_cases hi : a.proc = some i
  · cases h with
    | @cmd _ c' rest' x hproc' =>
      cases hi
      cases hproc.symm.trans hproc'
      exact .inr (.inl ⟨x, rfl, rfl⟩)
    | @stop _ =>
      cases hi
      right
      right
      rw [Sys.setProc_self, hproc]
      exact ⟨rfl, rfl⟩
    | request _ hidle | reaper hidle =>
      cases hi
      cases hproc.symm.trans hidle
    | claim hidle =>
      cases hi
      cases hproc.symm.trans hidle
    | stmt _ hproc' | stmtErr _ hproc' | bodyDone _ hproc' | stageErr _ hproc'
    | windowClosed _ hproc' | heartbeat hproc' =>
      cases hi
      cases hproc.symm.trans hproc'
    | tick => cases hi
  · exact .inl ⟨hi, moved_procs_of_ne h hi⟩

theorem moved_todo_at {i : ℕ} {rest : List Cmd} (h : Moved cfg s a s')
    (hproc : s.procs i = .todo (c :: rest)) :
    s'.procs i = s.procs i ∨ (∃ x, a = .step i x ∧ s' = s.after cfg x i c rest) ∨
      s'.procs i = .ended none (c :: rest) := by
  rcases moved_todo_by h hproc with ⟨-, hsame⟩ | hstep | ⟨-, hstop⟩
  · exact .inl hsame
  · exact .inr (.inl hstep)
  · exact .inr (.inr hstop)

/-- A process that is over stays as it is. -/
theorem moved_ended {i : ℕ} {reply : Option ℕ} {left : List Cmd} (h : Moved cfg s a s')
    (hproc : s.procs i = .ended reply left) : s'.procs i = .ended reply left := by
  by_cases hi : a.proc = some i
  · cases h with
    | cmd _ hproc' | stmt _ hproc' | stmtErr _ hproc' | bodyDone _ hproc' | stageErr _ hproc'
    | windowClosed _ hproc' =>
      cases hi
      cases hproc.symm.trans hproc'
    | stop =>
      cases hi
      rw [Sys.setProc_self, hproc]
      rfl
    | request _ hidle | reaper hidle =>
      cases hi
      cases hproc.symm.trans hidle
    | claim hidle =>
      cases hi
      cases hproc.symm.trans hidle
    | heartbeat => exact hproc
    | tick => cases hi
  · exact (moved_procs_of_ne h hi).trans hproc

/-- A command stays pending until a process executes it. -/
theorem moved_pending_kept (h : Moved cfg s a s') (hpend : Pending true s c) :
    Pending true s' c ∨ ∃ i x rest, a = .step i x ∧ s.procs i = .todo (c :: rest) := by
  rcases hpend with ⟨k, hk⟩
  rcases moved_pending_of h hk with hkept | ⟨x, c', rest, rfl, hproc⟩ | rfl
  · exact .inl hkept
  · obtain rfl := next_of_todo h hproc
    rw [hproc] at hk
    rcases List.mem_cons.mp hk with rfl | hrest
    · exact .inr ⟨k, x, rest, rfl, hproc⟩
    · left
      refine ⟨k, ?_⟩
      rw [Sys.setProc_self]
      cases (c'.exec cfg x s.db).2 with
      | next cs => exact List.mem_append_right _ hrest
      | reply | abort => exact hrest
  · cases h
    left
    refine ⟨k, ?_⟩
    rw [Sys.setProc_self]
    cases hproc : s.procs k <;> rw [hproc] at hk <;> exact hk

/-! ## Done rows stay -/

/-- A command leaves a done row as it is, unless it resets the recording; then no row of a
kind that depends on diarization is left. -/
theorem exec_done_row (hl : Leased s) {i : ℕ} {rest : List Cmd}
    (hproc : s.procs i = .todo (c :: rest)) {m : Job} (hm : m ∈ s.db.jobs.rows)
    (hr : m.recordingId = some r) (hd : m.state = .done) :
    m ∈ (c.exec cfg x s.db).1.jobs.rows ∨ (c.resets r ∧
      ∀ row ∈ (c.exec cfg x s.db).1.jobs.rows, row.recordingId = some r →
        row.kind ∉ [JobKind.diarize, .merge, .embed, .summarize]) := by
  -- a report is made on a row its worker holds, and that row is running
  have hreport {job : Job} (hjob : c.job? = some job) : (m.id == job.id) = false := by
    rw [beq_eq_false_iff_ne]
    intro hid
    have hold : Holds s i job := by
      rw [Holds, hproc]
      exact hjob
    have hrunning := (hl.held i job m hold (row_eq_some.mpr ⟨hm, hid⟩)).1
    rw [hd] at hrunning
    cases hrunning
  cases c with
  | insertJob r' k payload strict =>
    left
    simp only [Cmd.exec]
    split
    · exact hm
    · rcases hins : s.db.jobs.insert s.db.now r' k payload 0 with ⟨_ | j, t⟩
      all_goals
        unfold Jobs.insert at hins
        split at hins <;> cases hins
      · exact hm
      · exact List.mem_append_left _ hm
  | completeJob job => exact .inl (mem_updateWhere_of_neg hm (hreport rfl))
  | failUpdate job error n =>
    left
    simp only [Cmd.exec]
    split
    · exact hm
    · rename_i hwrite
      rw [(failWrite_eq_some hwrite).2.2]
      exact mem_updateWhere_of_neg hm (hreport rfl)
    · rename_i hwrite
      rw [(failWrite_eq_some hwrite).2.2]
      exact mem_updateWhere_of_neg hm (hreport rfl)
  | deferJob job delay =>
    left
    simp only [Cmd.exec]
    split
    · exact hm
    · rename_i hdefer
      rw [(tryUpdate_rows hdefer).1]
      exact mem_updateWhere_of_neg hm (hreport rfl)
  | reapStuck =>
    left
    exact mem_updateWhere_of_neg hm (by simp [stuck, hd])
  | resetForReprocess r' =>
    simp only [Cmd.exec]
    split
    · by_cases hrr : r' = r
      · subst hrr
        refine .inr ⟨rfl, fun row hrow hr' => ?_⟩
        have hkept := (mem_deleteWhere.mp hrow).2
        simp [hr'] at hkept
      · exact .inl (mem_deleteWhere.mpr ⟨hm, by simp [hr, Ne.symm hrr]⟩)
    · exact .inl hm
  | resetForRediarize r' =>
    simp only [Cmd.exec]
    split
    · exact .inl hm
    · split
      · by_cases hrr : r' = r
        · subst hrr
          refine .inr ⟨rfl, fun row hrow hr' => ?_⟩
          have hkept := (mem_deleteWhere.mp hrow).2
          simpa [hr'] using hkept
        · exact .inl (mem_deleteWhere.mpr ⟨hm, by simp [hr, Ne.symm hrr]⟩)
      · exact .inl hm
  | _ =>
    left
    simp only [Cmd.exec, fetched]
    repeat' split
    all_goals exact hm

theorem moved_done_row (hl : Leased s) (h : Moved cfg s a s') {m : Job}
    (hm : m ∈ s.db.jobs.rows) (hr : m.recordingId = some r) (hd : m.state = .done) :
    m ∈ s'.db.jobs.rows ∨ ((∃ i x c rest, a = .step i x ∧ s.procs i = .todo (c :: rest) ∧
      c.resets r) ∧ ∀ row ∈ s'.db.jobs.rows, row.recordingId = some r →
        row.kind ∉ [JobKind.diarize, .merge, .embed, .summarize]) := by
  cases h with
  | @cmd i c rest x hproc =>
    rcases exec_done_row hl hproc hm hr hd with hkept | ⟨hreset, hrows⟩
    · exact .inl hkept
    · exact .inr ⟨⟨i, x, c, rest, rfl, hproc, hreset⟩, hrows⟩
  | claim hidle hclaim =>
    left
    unfold claimOne at hclaim
    split at hclaim
    · cases hclaim
    · split at hclaim
      · cases hclaim
        exact mem_updateWhere_of_neg hm (by simp [hd])
      · cases hclaim
  | heartbeat => exact .inl (mem_updateWhere_of_neg hm (by simp [hd]))
  | _ => exact .inl hm

/-- What is done stays done until the recording is reset. -/
theorem done_kept (hl : Leased s) (h : Moved cfg s a s')
    (hno : ∀ i x c rest, a = .step i x → s.procs i = .todo (c :: rest) → ¬ c.resets r)
    (hdone : Done s r k) : Done s' r k := by
  rcases has_iff.mp hdone with ⟨m, hm, hk, hd⟩
  rcases moved_done_row hl h hm hk.1 (eq_of_beq hd) with hm' | ⟨⟨i, x, c, rest, ha, hproc, hr⟩, -⟩
  · exact has_iff.mpr ⟨m, hm', hk, hd⟩
  · exact absurd hr (hno i x c rest ha hproc)

/-! ## Rows stay -/

theorem continues_updateRow {p : Job → Bool} {f : Job → Job} (hf : Keeps f) (row : Job) :
    Job.Continues (updateRow p f row) row :=
  ⟨column_updateRow hf.id row, column_updateRow hf.kind row, column_updateRow hf.recordingId row⟩

/-- Only a reset takes a row away. -/
theorem exec_row_kept (cfg : Config) (x : Heard) {db : Db} {row : Job} (hrow : row ∈ db.jobs.rows)
    (hr : row.recordingId = some r) (hc : ¬ c.resets r) :
    ∃ row' ∈ (c.exec cfg x db).1.jobs.rows, Job.Continues row' row := by
  have hsame : ∃ row' ∈ db.jobs.rows, Job.Continues row' row := ⟨row, hrow, rfl, rfl, rfl⟩
  have hupdate {t : Jobs} {p : Job → Bool} {f : Job → Job} (hf : Keeps f)
      (hrows : t.rows = updateWhere p f db.jobs.rows) :
      ∃ row' ∈ t.rows, Job.Continues row' row :=
    ⟨updateRow p f row, by rw [hrows]; exact mem_updateWhere.mpr ⟨row, hrow, rfl⟩,
      continues_updateRow hf row⟩
  have hdelete {p : Job → Bool} (hp : p row = false) :
      ∃ row' ∈ (db.jobs.delete p).rows, Job.Continues row' row :=
    ⟨row, mem_deleteWhere.mpr ⟨hrow, hp⟩, rfl, rfl, rfl⟩
  cases c with
  | insertJob r' k payload strict =>
    simp only [Cmd.exec]
    split
    · exact hsame
    · rcases hins : db.jobs.insert db.now r' k payload 0 with ⟨_ | j, t⟩
      all_goals
        unfold Jobs.insert at hins
        split at hins <;> cases hins
      · exact hsame
      · exact ⟨row, List.mem_append_left _ hrow, rfl, rfl, rfl⟩
  | completeJob job => exact hupdate keeps_completed rfl
  | reapStuck => exact hupdate keeps_reaped rfl
  | failUpdate job error n =>
    simp only [Cmd.exec]
    split
    · exact hsame
    · rename_i hwrite
      exact hupdate keeps_failed (failWrite_eq_some hwrite).2.2
    · rename_i hwrite
      exact hupdate keeps_failed (failWrite_eq_some hwrite).2.2
  | deferJob job delay =>
    simp only [Cmd.exec]
    split
    · exact hsame
    · rename_i hdefer
      exact hupdate keeps_deferred (tryUpdate_rows hdefer).1
  | resetForReprocess r' =>
    simp only [Cmd.exec]
    split
    · exact hdelete (by simpa [hr] using fun h : r = r' => hc h.symm)
    · exact hsame
  | resetForRediarize r' =>
    have hne : ¬ r = r' := fun h => hc h.symm
    simp only [Cmd.exec]
    split
    · exact hsame
    · split
      · exact hdelete (by simp [hr, hne])
      · exact hsame
  | _ =>
    simp only [Cmd.exec, fetched]
    repeat' split
    all_goals exact hsame

theorem moved_row_kept (h : Moved cfg s a s')
    (hno : ∀ i x c rest, a = .step i x → s.procs i = .todo (c :: rest) → ¬ c.resets r)
    {row : Job} (hrow : row ∈ s.db.jobs.rows) (hr : row.recordingId = some r) :
    ∃ row' ∈ s'.db.jobs.rows, Job.Continues row' row := by
  cases h with
  | @cmd i c rest x hproc => exact exec_row_kept cfg x hrow hr (hno i x c rest rfl hproc)
  | claim hidle hclaim =>
    unfold claimOne at hclaim
    split at hclaim
    · cases hclaim
    · split at hclaim
      · cases hclaim
        exact ⟨_, mem_updateWhere.mpr ⟨row, hrow, rfl⟩, continues_updateRow keeps_claimed row⟩
      · cases hclaim
  | heartbeat =>
    exact ⟨_, mem_updateWhere.mpr ⟨row, hrow, rfl⟩, continues_updateRow keeps_renewed row⟩
  | _ => exact ⟨row, hrow, rfl, rfl, rfl⟩

/-- Every job of `r` that a process holds still has its row. -/
def Present (r : Uuid) (s : Sys) : Prop :=
  ∀ i job, Holds s i job → job.recordingId = some r → ∃ row, s.db.jobs.row job.id = some row

theorem present_moved (hs : Snapshot s) (hpresent : Present r s) (h : Moved cfg s a s')
    (hno : ∀ i x c rest, a = .step i x → s.procs i = .todo (c :: rest) → ¬ c.resets r) :
    Present r s' := by
  intro i job hhold hr
  have hrow : ∃ row, s.db.jobs.row job.id = some row ∧ row.recordingId = some r := by
    rcases moved_job hs h hhold with hold | ⟨w, kinds, t, -, hclaim⟩
    · rcases hpresent i job hold hr with ⟨row, hrow⟩
      exact ⟨row, hrow, (hs.columns i job row hold hrow).2.trans hr⟩
    · rcases claimOne_eq_some hclaim with ⟨j, hrow, -, hj, -⟩
      change job = claimed s.db.now w j at hj
      refine ⟨j, hrow, ?_⟩
      rw [hj] at hr
      exact hr
  rcases hrow with ⟨row, hrow, hrr⟩
  have hmem := row_eq_some.mp hrow
  rcases moved_row_kept h hno hmem.1 hrr with ⟨row', hrow', hcont⟩
  exact ⟨row', row_eq_some.mpr ⟨hrow', hcont.id.trans hmem.2⟩⟩

/-- A row comes to be failed by a report on its job or by a reap. -/
theorem moved_failed_row (hs : Snapshot s) (h : Moved cfg s a s') {row : Job}
    (hrow : row ∈ s'.db.jobs.rows) (hst : row.state = .failed) :
    (∃ old ∈ s.db.jobs.rows, Job.Continues row old ∧ old.state = .failed) ∨
      (∃ i x job error n rest, a = .step i x ∧
        s.procs i = .todo (.failUpdate job error n :: rest) ∧
        job.recordingId = row.recordingId ∧ job.kind = row.kind ∧ cfg.maxAttempts ≤ n) ∨
      ∃ i x rest, a = .step i x ∧ s.procs i = .todo (.reapStuck :: rest) ∧
        ∃ old ∈ s.db.jobs.rows, Job.Continues row old ∧ stuck s.db.now cfg.lease old = true ∧
          exhausted cfg.maxAttempts old = true := by
  have hold {t : Jobs} {p : Job → Bool} {f : Job → Job} (hf : Keeps f)
      (hrows : t.rows = updateWhere p f s.db.jobs.rows)
      (hno : ∀ j, p j = true → (f j).state = .failed → j.state = .failed) (hmem : row ∈ t.rows) :
      ∃ old ∈ s.db.jobs.rows, Job.Continues row old ∧ old.state = .failed := by
    rw [hrows] at hmem
    rcases mem_updateWhere.mp hmem with ⟨old, hold, rfl⟩
    refine ⟨old, hold, continues_updateRow hf old, ?_⟩
    by_cases hp : p old = true
    · rw [updateRow_of_pos hp] at hst
      exact hno old hp hst
    · rwa [updateRow_of_neg (by simpa using hp)] at hst
  have hsame (hmem : row ∈ s.db.jobs.rows) :
      ∃ old ∈ s.db.jobs.rows, Job.Continues row old ∧ old.state = .failed :=
    ⟨row, hmem, ⟨rfl, rfl, rfl⟩, hst⟩
  cases h with
  | claim hidle hclaim =>
    unfold claimOne at hclaim
    split at hclaim
    · cases hclaim
    · split at hclaim
      · cases hclaim
        refine .inl (hold keeps_claimed rfl ?_ hrow)
        intro _ _ h
        cases h
      · cases hclaim
  | @heartbeat i job body w =>
    exact .inl (hold (t := s.db.jobs.heartbeat s.db.now job.id w) keeps_renewed rfl
      (fun _ _ h => h) hrow)
  | @cmd i c rest x hproc =>
    change row ∈ (c.exec cfg x s.db).1.jobs.rows at hrow
    cases c with
    | insertJob r' k payload strict =>
      rcases exec_rows hrow with ⟨old, hmem, hcont⟩ | ⟨r₁, k₁, p₁, st₁, -, rfl⟩
      · left
        simp only [Cmd.exec] at hrow
        split at hrow
        · exact hsame hrow
        · rcases hins : s.db.jobs.insert s.db.now r' k payload 0 with ⟨_ | j, t⟩
          all_goals
            rw [hins] at hrow
            unfold Jobs.insert at hins
            split at hins <;> cases hins
          · exact hsame hrow
          · rcases List.mem_append.mp hrow with hrow | hrow
            · exact hsame hrow
            · rw [List.mem_singleton.mp hrow] at hst
              cases hst
      · cases hst
    | completeJob job =>
      exact .inl (hold (t := s.db.jobs.complete s.db.now job.id) keeps_completed rfl
        (by rintro _ _ ⟨⟩) hrow)
    | deferJob job delay =>
      left
      simp only [Cmd.exec] at hrow
      split at hrow
      · exact hsame hrow
      · rename_i hdefer
        exact hold keeps_deferred (tryUpdate_rows hdefer).1 (by rintro _ _ ⟨⟩) hrow
    | failUpdate job error n =>
      simp only [Cmd.exec] at hrow
      have hfail {y : Bool × Jobs}
          (hy : s.db.jobs.failWrite s.db.now job.id error n cfg.maxAttempts cfg.backoff = some y)
          (hmem : row ∈ y.2.rows) :
          (∃ old ∈ s.db.jobs.rows, Job.Continues row old ∧ old.state = .failed) ∨
            (job.recordingId = row.recordingId ∧ job.kind = row.kind ∧ cfg.maxAttempts ≤ n) := by
        by_cases hlt : n < cfg.maxAttempts
        · left
          refine hold keeps_failed (failWrite_eq_some hy).2.2 ?_ hmem
          intro j _ hfailed
          rw [failed_state, if_pos hlt] at hfailed
          cases hfailed
        · rw [(failWrite_eq_some hy).2.2] at hmem
          rcases mem_updateWhere.mp hmem with ⟨old, hmem', rfl⟩
          cases hp : old.id == job.id with
          | true =>
            have hcols := hs.columns i job old (by rw [hproc]; rfl)
              (row_eq_some.mpr ⟨hmem', eq_of_beq hp⟩)
            rw [column_updateRow keeps_failed.recordingId, column_updateRow keeps_failed.kind]
            exact .inr ⟨hcols.2.symm, hcols.1.symm, Nat.le_of_not_lt hlt⟩
          | false =>
            have heq : updateRow (fun j => j.id == job.id)
              (failed s.db.now error n cfg.maxAttempts cfg.backoff) old = old := updateRow_of_neg hp
            rw [heq] at hst
            exact .inl ⟨old, hmem', continues_updateRow keeps_failed old, hst⟩
      split at hrow
      · exact .inl (hsame hrow)
      · rename_i hwrite
        exact (hfail hwrite hrow).imp id fun h => .inl ⟨i, x, job, error, n, rest, rfl, hproc, h⟩
      · rename_i hwrite
        exact (hfail hwrite hrow).imp id fun h => .inl ⟨i, x, job, error, n, rest, rfl, hproc, h⟩
    | reapStuck =>
      rcases mem_updateWhere.mp hrow with ⟨old, hmem, rfl⟩
      have hcont : Job.Continues (updateRow (stuck s.db.now cfg.lease)
        (reaped s.db.now cfg.maxAttempts) old) old := continues_updateRow keeps_reaped old
      by_cases hp : stuck s.db.now cfg.lease old = true
      · rw [updateRow_of_pos hp] at hst
        refine .inr (.inr ⟨i, x, rest, rfl, hproc, old, hmem, hcont, hp, ?_⟩)
        by_contra hex
        simp [reaped, hex] at hst
      · rw [updateRow_of_neg (by simpa using hp)] at hst
        exact .inl ⟨old, hmem, hcont, hst⟩
    | resetForReprocess r' =>
      left
      simp only [Cmd.exec] at hrow
      split at hrow
      · exact hsame (mem_deleteWhere.mp hrow).1
      · exact hsame hrow
    | resetForRediarize r' =>
      left
      simp only [Cmd.exec] at hrow
      split at hrow
      · exact hsame hrow
      · split at hrow
        · exact hsame (mem_deleteWhere.mp hrow).1
        · exact hsame hrow
    | _ =>
      left
      simp only [Cmd.exec, fetched] at hrow
      repeat' split at hrow
      all_goals exact hsame hrow
  | _ => exact .inl (hsame hrow)

end ScribeLocal.Server
