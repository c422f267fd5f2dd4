import ScribeLocal.Server.Frame

/-! # Every step has one of the effects -/

namespace ScribeLocal.Server
open Table Jobs Transition

variable {cfg : Config} {keep : Bool} {r : Uuid} {s s' : Sys} {a : Label} {k : JobKind}

/-! ## The processes -/

variable {i : ℕ} {c : Cmd} {rest : List Cmd} {db : Db}

theorem pending_setProc (s₁ : Sys) (p : Proc) (lost : Cmd → Prop) (hprocs : s₁.procs = s.procs)
    (hp : ∀ c ∈ (s.procs i).pending keep, c ∈ p.pending keep ∨ lost c) {c : Cmd}
    (h : Pending keep s c) : Pending keep (s₁.setProc i p) c ∨ lost c := by
  rcases h with ⟨k, hk⟩
  by_cases hik : k = i
  · subst hik
    rcases hp c hk with hc | hc
    · exact .inl ⟨k, by rwa [Sys.setProc_self]⟩
    · exact .inr hc
  · exact .inl ⟨k, by rwa [Sys.setProc_of_ne hik, hprocs]⟩

theorem pending_setProc_self {p : Proc} (h : c ∈ p.pending keep) :
    Pending keep (s.setProc i p) c := ⟨i, by rwa [Sys.setProc_self]⟩

/-- Executing a command that goes on loses that command alone. -/
theorem pending_next {cs : List Cmd} (hproc : s.procs i = .todo (c :: rest)) {c' : Cmd}
    (h : Pending keep s c') :
    Pending keep (({ s with db := db } : Sys).setProc i (.todo (cs ++ rest))) c' ∨ c' = c := by
  apply pending_setProc _ _ (· = c) rfl _ h
  intro c₁ hc₁
  rw [hproc] at hc₁
  rcases List.mem_cons.mp hc₁ with rfl | hrest
  · exact .inr rfl
  · exact .inl (List.mem_append_right _ hrest)

/-- A step that leaves the jobs, the status and what is to do as they are. -/
theorem effect_quiet (s s₁ : Sys) (p : Proc) (hprocs : s₁.procs = s.procs)
    (hjobs : JobsFrame r s.db.jobs s₁.db.jobs fun _ => False)
    (hstatus : s₁.db.status r = s.db.status r)
    (hp : ∀ c ∈ (s.procs i).pending keep, c.drives r → c ∈ p.pending keep) :
    Effect cfg keep r s a (s₁.setProc i p) := by
  refine .quiet ⟨hjobs.live, hjobs.done, hjobs.done_new, fun c hc h => ?_⟩ hstatus
  have hlost := pending_setProc s₁ p (fun c => ¬ c.drives r) hprocs (fun c₁ hc₁ => by
    by_cases hd : c₁.drives r
    · exact .inl (hp c₁ hc₁ hd)
    · exact .inr hd) h
  exact .inl (hlost.resolve_right fun hno => hno hc)

theorem pending_over {p : Proc} (hproc : s.procs i = .todo (c :: rest))
    (hp : ∃ reply, p = .ended reply rest) {c' : Cmd} (h : Pending keep s c') :
    Pending keep (({ s with db := db } : Sys).setProc i p) c' ∨ c' = c ∨
      (keep = false ∧ c' ∈ rest) := by
  apply pending_setProc _ _ (fun c' => c' = c ∨ (keep = false ∧ c' ∈ rest)) rfl _ h
  rcases hp with ⟨reply, rfl⟩
  intro c₁ hc₁
  rw [hproc] at hc₁
  rcases List.mem_cons.mp hc₁ with rfl | hrest
  · exact .inr (.inl rfl)
  · cases keep with
    | true => exact .inl hrest
    | false => exact .inr (.inr ⟨rfl, hrest⟩)

/-- A command that does not drive the recording and leaves its jobs and status alone. -/
theorem effect_other {x : Heard} (hproc : s.procs i = .todo (c :: rest)) (hc : ¬ c.drives r)
    (hjobs : JobsFrame r s.db.jobs (c.exec cfg x s.db).1.jobs fun _ => False)
    (hstatus : (c.exec cfg x s.db).1.status r = s.db.status r) :
    Effect cfg keep r s (.step i x) (({ s with db := (c.exec cfg x s.db).1 } : Sys).setProc i
      (advance rest (c.exec cfg x s.db).2)) := by
  have hover {p : Proc} (hp : ∃ reply, p = .ended reply rest)
      (hflow : ∀ cs, (c.exec cfg x s.db).2 ≠ .next cs) :
      Effect cfg keep r s (.step i x) (({ s with db := (c.exec cfg x s.db).1 } : Sys).setProc i p) := by
    refine .cut i c rest hproc ⟨hjobs.live, hjobs.done, hjobs.done_new, fun c₁ hc₁ h => ?_⟩
      hstatus ⟨x, hflow⟩
    rcases pending_over hproc hp h with hpend | rfl | hlost
    · exact .inl hpend
    · exact absurd hc₁ hc
    · exact .inr hlost
  cases hf : (c.exec cfg x s.db).2 with
  | next cs =>
    refine .quiet ⟨hjobs.live, hjobs.done, hjobs.done_new, fun c₁ hc₁ h => ?_⟩ hstatus
    rcases pending_next hproc h with hpend | rfl
    · exact .inl hpend
    · exact absurd hc₁ hc
  | reply code => exact hover ⟨some code, rfl⟩ (by simp [hf])
  | abort => exact hover ⟨none, rfl⟩ (by simp [hf])

theorem effect_same {x : Heard} (hproc : s.procs i = .todo (c :: rest)) (hc : ¬ c.drives r)
    (hdb : (c.exec cfg x s.db).1 = s.db) :
    Effect cfg keep r s (.step i x) (({ s with db := (c.exec cfg x s.db).1 } : Sys).setProc i
      (advance rest (c.exec cfg x s.db).2)) := by
  apply effect_other hproc hc
  · rw [hdb]
    exact jobsFrame_refl
  · rw [hdb]

/-! ## The commands -/

@[simp] theorem Db.setStatus_self {db : Db} {st : RecordingStatus} :
    (db.setStatus r st).status r = some st := by
  simp [Db.setStatus]

@[simp] theorem Db.setStatus_of_ne {db : Db} {st : RecordingStatus} {r' : Uuid} (h : r' ≠ r) :
    (db.setStatus r' st).status r = db.status r := by
  simp [Db.setStatus, Ne.symm h]

@[simp] theorem Db.setStatus_jobs {db : Db} {st : RecordingStatus} {r' : Uuid} :
    (db.setStatus r' st).jobs = db.jobs := rfl

theorem pending_head {cs : List Cmd} (hc : c ∈ cs) :
    Pending keep (({ s with db := db } : Sys).setProc i (.todo (cs ++ rest))) c :=
  pending_setProc_self (List.mem_append_left _ hc)

theorem postSteps_succ {job : Job} (hr : job.recordingId = some r) {y : JobKind}
    (hy : y ∈ job.kind.successors) : .succ r y ∈ postSteps job := by
  simp [postSteps, hr, hy]

theorem postSteps_ready {job : Job} (hr : job.recordingId = some r)
    (hk : job.kind = .embed ∨ job.kind = .summarize) : .maybeMarkReady r ∈ postSteps job := by
  simp [postSteps, hr, hk]

theorem postSteps_live {job : Job} (hr : job.recordingId = some r)
    (hk : job.kind = .transcribeSegment) : postSteps job = [.liveRequeue r] := by
  simp [postSteps, hr, hk, JobKind.successors]

theorem effect_completeJob (hs : Snapshot s) {job : Job} {x : Heard}
    (hproc : s.procs i = .todo (.completeJob job :: rest)) :
    Effect cfg keep r s (.step i x) (({ s with db := (Cmd.exec cfg x s.db (.completeJob job)).1 } : Sys).setProc
      i (advance rest (Cmd.exec cfg x s.db (.completeJob job)).2)) := by
  have hjob : (s.procs i).job? = some job := by
    rw [hproc]
    rfl
  by_cases hrow : ∃ row ∈ s.db.jobs.rows, row.id = job.id ∧ row.recordingId = some r
  · rcases hrow with ⟨row, hmem, hid, hr⟩
    have hcols := hs.columns i job row hjob (row_eq_some.mpr ⟨hmem, hid⟩)
    have hjr : job.recordingId = some r := hcols.2 ▸ hr
    have hframe : JobsFrame r s.db.jobs (s.db.jobs.complete s.db.now job.id) (· = job.kind) := by
      apply jobsFrame_update keeps_completed rfl
      intro j hj hp _
      have hjk : j.kind = job.kind :=
        (hs.columns i job j hjob (row_eq_some.mpr ⟨hj, eq_of_beq hp⟩)).1
      exact ⟨fun _ => .inr hjk, fun _ => .inl rfl, fun _ => .inr hjk⟩
    refine .completed job.kind ⟨hframe.live, hframe.done, hframe.done_new, fun c hc h => ?_⟩ rfl
      ?_ (fun y hy => pending_head (postSteps_succ hjr hy))
      (fun hk => pending_head (postSteps_ready hjr hk))
    · rcases pending_next hproc h with hpend | rfl
      · exact .inl hpend
      · cases hc
    · have hmem' : completed s.db.now row ∈ (s.db.jobs.complete s.db.now job.id).rows :=
        mem_updateWhere.mpr ⟨row, hmem, updateRow_of_pos (by simpa using hid)⟩
      exact has_iff.mpr ⟨_, hmem', ⟨hr, hcols.1⟩, rfl⟩
  · apply effect_other hproc id _ rfl
    apply jobsFrame_update keeps_completed rfl
    intro j hj hp hr
    exact absurd ⟨j, hj, eq_of_beq hp, hr⟩ hrow

theorem exec_insertJob (cfg : Config) (x : Heard) (k : JobKind) (payload : Payload) (strict : Bool)
    {r' : Uuid} {db : Db} (hsome : (db.status r').isSome = true) :
    ∃ cs, Cmd.exec cfg x db (.insertJob r' k payload strict) =
      ({ db with jobs := (db.jobs.insert db.now r' k payload 0).2 }, .next cs) := by
  have hnone : (db.status r').isNone = false := by
    simpa using hsome
  simp only [Cmd.exec, hnone]
  rcases db.jobs.insert db.now r' k payload 0 with ⟨_ | j, t⟩
  · exact ⟨_, rfl⟩
  · exact ⟨_, rfl⟩

theorem effect_insertJob {r' : Uuid} {payload : Payload} {strict : Bool} {x : Heard}
    (hproc : s.procs i = .todo (.insertJob r' k payload strict :: rest)) :
    Effect cfg keep r s (.step i x)
      (({ s with db := (Cmd.exec cfg x s.db (.insertJob r' k payload strict)).1 } : Sys).setProc i
        (advance rest (Cmd.exec cfg x s.db (.insertJob r' k payload strict)).2)) := by
  have hins : JobsFrame r s.db.jobs (s.db.jobs.insert s.db.now r' k payload 0).2 (fun _ => False) ∧
      (s.db.jobs.insert s.db.now r' k payload 0).2.has r' k Job.isLive = true := jobsFrame_insert
  cases hsome : (s.db.status r').isSome with
  | true =>
    rcases exec_insertJob cfg x k payload strict hsome with ⟨cs, hexec⟩
    by_cases hr : r' = r
    · subst hr
      rw [hexec]
      refine .inserted k payload strict ⟨hins.1.live, hins.1.done, hins.1.done_new,
        fun c _ h => pending_next hproc h⟩ rfl hins.2
    · apply effect_other hproc hr
      · rw [hexec]
        exact hins.1
      · rw [hexec]
  | false =>
    have hnone : s.db.status r' = none := by simpa using hsome
    have hexec : (Cmd.exec cfg x s.db (.insertJob r' k payload strict)).1 = s.db := by
      simp [Cmd.exec, hnone]
    by_cases hr : r' = r
    · subst hr
      rw [hexec]
      exact .unknown hnone (by simp [hnone])
    · exact effect_same hproc hr hexec

theorem effect_failUpdate (hs : Snapshot s) {job : Job} {error : String} {n : ℕ} {x : Heard}
    (hproc : s.procs i = .todo (.failUpdate job error n :: rest)) :
    Effect cfg keep r s (.step i x)
      (({ s with db := (Cmd.exec cfg x s.db (.failUpdate job error n)).1 } : Sys).setProc i
        (advance rest (Cmd.exec cfg x s.db (.failUpdate job error n)).2)) := by
  have hjob : (s.procs i).job? = some job := by
    rw [hproc]
    rfl
  rcases hwrite : s.db.jobs.failWrite s.db.now job.id error n cfg.maxAttempts cfg.backoff with
    _ | ⟨_ | _, t⟩
  · exact effect_same hproc id (by simp [Cmd.exec, hwrite])
  · by_cases hr : job.recordingId = some r
    · have hexec : Cmd.exec cfg x s.db (.failUpdate job error n) =
          ({ s.db with jobs := t }, .next [.parkRecording r]) := by
        simp [Cmd.exec, hwrite, hr]
      rw [hexec]
      exact .failed (pending_head List.mem_cons_self) rfl
    · apply effect_other hproc id
      · simp only [Cmd.exec, hwrite]
        apply jobsFrame_update keeps_failed (failWrite_eq_some hwrite).2.2
        intro j hj hp hjr
        have hcols := hs.columns i job j hjob (row_eq_some.mpr ⟨hj, eq_of_beq hp⟩)
        exact absurd (hcols.2.symm.trans hjr) hr
      · simp only [Cmd.exec, hwrite]
  · apply effect_other hproc id
    · simp only [Cmd.exec, hwrite]
      apply jobsFrame_requeue keeps_failed (failWrite_eq_some hwrite).2.2
      intro j _ _ _
      have hlt : n < cfg.maxAttempts := by simpa using (failWrite_eq_some hwrite).1
      rw [failed_state, if_pos hlt]
    · simp only [Cmd.exec, hwrite]

theorem effect_reapStuck {x : Heard} (hproc : s.procs i = .todo (.reapStuck :: rest)) :
    Effect cfg keep r s (.step i x) (({ s with db := (Cmd.exec cfg x s.db .reapStuck).1 } : Sys).setProc i
      (advance rest (Cmd.exec cfg x s.db .reapStuck).2)) := by
  by_cases hpark : ∃ j ∈ s.db.jobs.rows, stuck s.db.now cfg.lease j = true ∧
      exhausted cfg.maxAttempts j = true ∧ j.recordingId = some r
  · rcases hpark with ⟨j, hj, hstuck, hex, hr⟩
    refine .failed (pending_head ?_) rfl
    refine List.mem_filterMap.mpr ⟨reapedJob cfg.maxAttempts j, ?_, by simp [reapedJob, hr]⟩
    refine List.mem_filter.mpr ⟨List.mem_map.mpr ⟨j, ?_, rfl⟩, hex⟩
    exact List.mem_filter.mpr ⟨hj, hstuck⟩
  · apply effect_other hproc id _ rfl
    apply jobsFrame_requeue keeps_reaped rfl
    intro j hj hstuck hr
    have hex : ¬ exhausted cfg.maxAttempts j = true := fun hex => hpark ⟨j, hj, hstuck, hex, hr⟩
    simp [reaped, hex]

theorem effect_resetForRediarize {r' : Uuid} {x : Heard}
    (hproc : s.procs i = .todo (.resetForRediarize r' :: rest)) :
    Effect cfg keep r s (.step i x)
      (({ s with db := (Cmd.exec cfg x s.db (.resetForRediarize r')).1 } : Sys).setProc i
        (advance rest (Cmd.exec cfg x s.db (.resetForRediarize r')).2)) := by
  by_cases htr : (s.db.content.transcript r').isNone = true
  · exact effect_same hproc id (by simp [Cmd.exec, htr])
  · by_cases hsome : (s.db.status r').isSome = true
    · by_cases hr : r' = r
      · subst hr
        simp only [Cmd.exec, htr, hsome, if_true]
        have hkept {k : JobKind} {q : Job → Bool} (hk : k = .transcode ∨ k = .transcribe)
            (h : s.db.jobs.has r' k q = true) :
            (s.db.jobs.delete fun j => j.recordingId == some r' &&
              [JobKind.diarize, .merge, .embed, .summarize].contains j.kind).has r' k q = true := by
          rcases has_iff.mp h with ⟨j, hj, hjk, hq⟩
          refine has_iff.mpr ⟨j, mem_deleteWhere.mpr ⟨hj, ?_⟩, hjk, hq⟩
          rcases hk with rfl | rfl <;> simp [hjk.2]
        exact .rediarized i x rest rfl hproc (by simpa [Option.isSome_iff_ne_none] using htr) (pending_head List.mem_cons_self) Db.setStatus_self
          (fun k hk => hkept hk) (fun k hk => hkept hk)
      · apply effect_other hproc id
        · simp only [Cmd.exec, htr, hsome, if_true]
          apply jobsFrame_delete
          intro j hp hjr
          simp [hjr, Ne.symm hr] at hp
        · simp only [Cmd.exec, htr, hsome, if_true]
          exact Db.setStatus_of_ne hr
    · exact effect_same hproc id (by simp [Cmd.exec, htr, hsome])

theorem effect_resetForReprocess {r' : Uuid} {x : Heard}
    (hproc : s.procs i = .todo (.resetForReprocess r' :: rest)) :
    Effect cfg keep r s (.step i x)
      (({ s with db := (Cmd.exec cfg x s.db (.resetForReprocess r')).1 } : Sys).setProc i
        (advance rest (Cmd.exec cfg x s.db (.resetForReprocess r')).2)) := by
  by_cases hsome : (s.db.status r').isSome = true
  · by_cases hr : r' = r
    · subst hr
      simp only [Cmd.exec, hsome, if_true]
      exact .restarted (pending_head List.mem_cons_self) Db.setStatus_self
    · apply effect_other hproc id
      · simp only [Cmd.exec, hsome, if_true]
        apply jobsFrame_delete
        intro j hp hjr
        simp [hjr, Ne.symm hr] at hp
      · simp only [Cmd.exec, hsome, if_true]
        exact Db.setStatus_of_ne hr
  · exact effect_same hproc id (by simp [Cmd.exec, hsome])

/-- The status of another recording is set. -/
theorem effect_setStatus {r' : Uuid} {st : RecordingStatus} {x : Heard}
    (hproc : s.procs i = .todo (c :: rest)) (hc : ¬ c.drives r) (hr : r' ≠ r)
    (hexec : (c.exec cfg x s.db).1 = s.db.setStatus r' st) :
    Effect cfg keep r s (.step i x) (({ s with db := (c.exec cfg x s.db).1 } : Sys).setProc i
      (advance rest (c.exec cfg x s.db).2)) := by
  apply effect_other hproc hc
  · rw [hexec]
    exact jobsFrame_refl
  · rw [hexec]
    exact Db.setStatus_of_ne hr

theorem fetched_fst {db : Db} {r' : Uuid} {f : RecordingStatus → Flow} :
    (fetched db r' f).1 = db := by
  unfold fetched
  split <;> rfl

theorem effect_cmd (hs : Snapshot s) (hproc : s.procs i = .todo (c :: rest)) (x : Heard) :
    Effect cfg keep r s (.step i x) (({ s with db := (c.exec cfg x s.db).1 } : Sys).setProc i
      (advance rest (c.exec cfg x s.db).2)) := by
  cases c with
  | completeJob job => exact effect_completeJob hs hproc
  | insertJob r' k payload strict => exact effect_insertJob hproc
  | failUpdate job error n => exact effect_failUpdate hs hproc
  | reapStuck => exact effect_reapStuck hproc
  | resetForRediarize r' => exact effect_resetForRediarize hproc
  | resetForReprocess r' => exact effect_resetForReprocess hproc
  | content | setParticipants =>
    apply effect_other hproc id
    · simp only [Cmd.exec]
      split <;> exact jobsFrame_refl
    · simp only [Cmd.exec]
      split <;> rfl
  | deferJob job delay =>
    apply effect_other hproc id
    · simp only [Cmd.exec]
      split
      · exact jobsFrame_refl
      · rename_i hdefer
        exact jobsFrame_requeue keeps_deferred (tryUpdate_rows hdefer).1 fun _ _ _ _ => rfl
    · simp only [Cmd.exec]
      split <;> rfl
  | createRecording r' =>
    by_cases hsome : (s.db.status r').isSome = true
    · exact effect_same hproc id (by simp [Cmd.exec, hsome])
    · by_cases hr : r' = r
      · subst hr
        exact .unknown (by simpa using hsome) (by simp [Cmd.exec, hsome])
      · apply effect_other hproc id
        · simp only [Cmd.exec, hsome]
          exact jobsFrame_refl
        · simp only [Cmd.exec, hsome]
          exact Db.setStatus_of_ne hr
  | markProcessing r' =>
    by_cases hsome : (s.db.status r').isSome = true
    · by_cases hr : r' = r
      · subst hr
        simp only [Cmd.exec, hsome, if_true]
        exact .restarted (pending_head List.mem_cons_self) Db.setStatus_self
      · exact effect_setStatus hproc id hr (congrArg Prod.fst (if_pos hsome))
    · exact effect_same hproc id (by simp [Cmd.exec, hsome])
  | succ r' k =>
    by_cases hr : r' = r
    · subst hr
      refine .checked k ⟨fun _ => .inl, fun _ => .inl, fun _ => .inl,
        fun c _ h => pending_next hproc h⟩ rfl ?_
      by_cases hdone : s.db.jobs.predecessorsDone r' k = true
      · simp only [Cmd.exec, hdone, if_true]
        exact .inl (pending_head List.mem_cons_self)
      · right
        simpa [predecessorsDone, Done] using hdone
    · exact effect_same hproc hr rfl
  | maybeMarkReady r' =>
    by_cases hr : r' = r
    · subst hr
      refine .counted ⟨fun _ => .inl, fun _ => .inl, fun _ => .inl,
        fun c _ h => pending_next hproc h⟩ rfl ?_
      by_cases hdone : s.db.jobs.embedAndSummarizeDone r' = true
      · simp only [Cmd.exec, hdone, if_true]
        exact .inl (pending_head List.mem_cons_self)
      · right
        simpa [embedAndSummarizeDone, Done] using hdone
    · exact effect_same hproc hr rfl
  | markReady r' =>
    by_cases hsome : (s.db.status r').isSome = true
    · by_cases hr : r' = r
      · subst hr
        simp only [Cmd.exec, hsome, if_true]
        exact .readied ⟨fun _ => .inl, fun _ => .inl, fun _ => .inl,
          fun c _ h => pending_next hproc h⟩ Db.setStatus_self
      · exact effect_setStatus hproc hr hr (congrArg Prod.fst (if_pos hsome))
    · by_cases hr : r' = r
      · subst hr
        have hnone : s.db.status r' = none := by simpa using hsome
        exact .unknown hnone (by simp [Cmd.exec, hnone])
      · exact effect_same hproc hr (by simp [Cmd.exec, hsome])
  | parkRecording r' =>
    by_cases hsome : (s.db.status r').isSome = true
    · by_cases hr : r' = r
      · subst hr
        simp only [Cmd.exec, hsome, if_true]
        exact .parked ⟨i, by simp [hproc, Proc.pending]⟩ Db.setStatus_self
      · exact effect_setStatus hproc hr hr (if_pos hsome)
    · by_cases hr : r' = r
      · subst hr
        have hnone : s.db.status r' = none := by simpa using hsome
        exact .unknown hnone (by simp [Cmd.exec, hnone])
      · exact effect_same hproc hr (by simp [Cmd.exec, hsome])
  | failSelect job error =>
    apply effect_same hproc id
    simp only [Cmd.exec]
    split <;> rfl
  | liveRequeue r' =>
    apply effect_same hproc id
    simp only [Cmd.exec]
    split <;> rfl
  | selectJob | reply | liveRequeueCount => exact effect_same hproc id rfl
  | _ => exact effect_same hproc id fetched_fst

theorem jobsFrame_claimOne {t : Jobs} {now : Time} {w : WorkerId} {kinds : List JobKind}
    {id : JobId} {y : Job × Jobs} {x : JobKind → Prop} (h : t.claimOne now w kinds id = some y) :
    JobsFrame r t y.2 x := by
  unfold claimOne at h
  split at h
  · cases h
  · split at h
    · cases h
      apply jobsFrame_update keeps_claimed rfl
      intro j _ hp _
      have hqueued : j.state = .queued := eq_of_beq (Bool.and_eq_true_iff.mp hp).2
      refine ⟨fun _ => .inl rfl, fun hd => ?_, fun hd => ?_⟩
      · rw [hqueued] at hd
        cases hd
      · cases hd
    · cases h

theorem jobsFrame_heartbeat {t : Jobs} {now : Time} {id : JobId} {w : WorkerId}
    {x : JobKind → Prop} : JobsFrame r t (t.heartbeat now id w) x := by
  apply jobsFrame_update keeps_renewed rfl
  intro j _ _ _
  exact ⟨.inl, .inl, .inl⟩

/-- Every step is one of the effects, but for a stop that drops what was left to do. -/
theorem moved_effect (hs : Snapshot s) (h : Moved cfg s a s')
    (hstop : keep = true ∨ ∀ i, a ≠ .stop i) : Effect cfg keep r s a s' := by
  cases h with
  | tick =>
    exact .quiet ⟨fun _ => .inl, fun _ => .inl, fun _ => .inl, fun _ _ => .inl⟩ rfl
  | @heartbeat i job body w =>
    have hframe : JobsFrame r s.db.jobs (s.db.jobs.heartbeat s.db.now job.id w) fun _ => False :=
      jobsFrame_heartbeat
    exact .quiet ⟨hframe.live, hframe.done, hframe.done_new, fun _ _ => .inl⟩ rfl
  | @claim i w kinds id j t hidle hclaim =>
    apply effect_quiet s (s.setJobs t) _ rfl (jobsFrame_claimOne hclaim) rfl
    rw [hidle]
    exact fun _ hc => nomatch hc
  | cmd x hproc => exact effect_cmd hs hproc x
  | request q hidle | reaper hidle =>
    apply effect_quiet s s _ rfl jobsFrame_refl rfl
    rw [hidle]
    exact fun _ hc => nomatch hc
  | @stmt i job st body c sts x hproc =>
    apply effect_quiet s { s with db := { s.db with content := c } } _ rfl jobsFrame_refl rfl
    rw [hproc]
    exact fun _ hc => nomatch hc
  | stmtErr _ hproc | bodyDone _ hproc | stageErr _ hproc | windowClosed _ hproc =>
    apply effect_quiet s s _ rfl jobsFrame_refl rfl
    rw [hproc]
    exact fun _ hc => nomatch hc
  | @stop i =>
    apply effect_quiet s s _ rfl jobsFrame_refl rfl
    rcases hstop with rfl | hstop
    · intro c hc _
      cases hp : s.procs i <;> rw [hp] at hc <;> exact hc
    · exact absurd rfl (hstop i)

end ScribeLocal.Server
