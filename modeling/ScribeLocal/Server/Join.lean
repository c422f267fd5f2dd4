import ScribeLocal.Server.Handover

/-! # The stage DAG loses no join -/
namespace ScribeLocal.Server
open Table Jobs Transition

variable {cfg : Config} {r : Uuid} {s s' : Sys} {a : Label} {k y : JobKind} {i : ℕ} {x : Heard}
  {c : Cmd} {rest : List Cmd} {ys : List JobKind} {job : Job}

/-! ## The commands of the complete handler and of a worker after its stage -/

theorem joins_alike (hj : Joins s r) (hset : Settles r s (s.after cfg x i c rest) i)
    (hjobs : (c.exec cfg x s.db).1.jobs = s.db.jobs)
    (hknown : (s.db.status r).isSome = true → ((c.exec cfg x s.db).1.status r).isSome = true)
    (hready : s.db.status r = some .ready → (c.exec cfg x s.db).1.status r = some .ready)
    (hnext : ∀ cs, (c.exec cfg x s.db).2 = .next cs →
      Errand (s.after cfg x i c rest) r (cs ++ rest)) :
    Advances r s (s.after cfg x i c rest) := by
  have halike : Alike r s.db.jobs (c.exec cfg x s.db).1.jobs := by
    rw [hjobs]
    exact alike_refl
  have hprocs : ({ s with db := (c.exec cfg x s.db).1 } : Sys).procs = s.procs := rfl
  exact joins_handover hj (handover_of_alike hprocs hset halike hknown hready)
    (fun j => after_procs_of_ne) (errand_after hnext)

theorem settles_other (hproc : s.procs i = .todo (c :: rest)) (hc : ¬ c.owes r)
    (hrest : ∀ c' ∈ rest, ¬ c'.owes r) : Settles r s s' i := by
  apply settles_of_not_owes
  rw [hproc]
  intro c' hc'
  rcases List.mem_cons.mp hc' with rfl | hc'
  · exact hc
  · exact hrest c' hc'

/-- What a complete request that is accepted has to do are content statements, then the status. -/
theorem completing_list (r : Uuid) (d : Option ℤ) (m : Option (List ℤ)) :
    ((d.toList.map fun ms => Cmd.content (.setDuration r ms)) ++
      (m.toList.map fun ms => Cmd.content (.setMarks r ms)) ++ [Cmd.markProcessing r]) ++ [] =
      (d.toList.map (Stmt.setDuration r) ++ m.toList.map (Stmt.setMarks r)).map Cmd.content ++
        [Cmd.markProcessing r] := by
  simp [Function.comp_def]

theorem joins_accept {d : Option ℤ} {m : Option (List ℤ)} (hj : Joins s r)
    (hproc : s.procs i = .todo [.completeRead r d m]) :
    Advances r s (s.after cfg x i (.completeRead r d m) []) := by
  have hdb : (Cmd.exec cfg x s.db (.completeRead r d m)).1 = s.db := fetched_fst
  apply joins_alike hj
  · apply settles_other hproc _ (by simp)
    simp [Cmd.owes, enqueue]
  · rw [hdb]
  · rw [hdb]
    exact id
  · rw [hdb]
    exact id
  · intro cs hflow
    simp only [Cmd.exec, fetched] at hflow
    split at hflow
    · cases hflow
    · split at hflow
      · cases hflow
      · cases hflow
        rw [completing_list]
        exact .process _

theorem joins_process {sts : List Stmt} (hj : Joins s r)
    (honce : ∀ rest, s.procs i = .todo (.markProcessing r :: rest) →
      s.db.status r = some .uploading)
    (hproc : s.procs i = .todo (c :: rest)) (hcs : c :: rest = sts.map .content ++ [.markProcessing r]) :
    Advances r s (s.after cfg x i c rest) := by
  have hset : Settles r s (s.after cfg x i c rest) i := by
    apply settles_of_not_owes
    rw [hproc, hcs]
    intro c' hc'
    rcases List.mem_append.mp hc' with hc' | hc'
    · rcases List.mem_map.mp hc' with ⟨st, -, rfl⟩
      simp [Cmd.owes, enqueue]
    · rw [List.mem_singleton.mp hc']
      simp [Cmd.owes, enqueue]
  cases sts with
  | nil =>
    cases hcs
    have huploading := honce [] hproc
    have hexec : Cmd.exec cfg x s.db (.markProcessing r) =
        (s.db.setStatus r .processing, .next [enqueue r .transcode {}, .reply 200]) := by
      simp [Cmd.exec, huploading]
    apply joins_alike hj hset
    · rw [hexec]
      rfl
    · simp [hexec]
    · simp [huploading]
    · intro cs hflow
      rw [hexec] at hflow
      cases hflow
      exact .enter
  | cons st sts =>
    rcases List.cons.inj hcs with ⟨rfl, rfl⟩
    apply joins_alike hj hset
    · simp only [Cmd.exec]
      split <;> rfl
    · simp only [Cmd.exec]
      split <;> exact id
    · simp only [Cmd.exec]
      split <;> exact id
    · intro cs hflow
      simp only [Cmd.exec] at hflow
      split at hflow
      · cases hflow
      · rename_i sts' _
        cases hflow
        have herrand : Errand (s.after cfg x i (.content st)
            (sts.map Cmd.content ++ [Cmd.markProcessing r])) r
              ((sts' ++ sts).map Cmd.content ++ [Cmd.markProcessing r]) := .process _
        rwa [List.map_append, List.append_assoc] at herrand

theorem joins_count (hj : Joins s r) (hproc : s.procs i = .todo [.maybeMarkReady r]) :
    Advances r s (s.after cfg x i (.maybeMarkReady r) []) := by
  have hdone : s.db.jobs.embedAndSummarizeDone r = true ↔ Done s r .embed ∧ Done s r .summarize := by
    rw [embedAndSummarizeDone, Bool.and_eq_true]
    rfl
  apply joins_alike hj
  · constructor
    · intro y _ _ hpend
      simp [hproc, Proc.pending, enqueue] at hpend
    · intro y _ _ hlead
      simp [hproc, enqueue] at hlead
    · intro he hsum _
      refine .inr (.inr ⟨i, ?_⟩)
      rw [Sys.after, Sys.setProc_self]
      simp [Cmd.exec, hdone.mpr ⟨he, hsum⟩, advance, Proc.pending]
  · rfl
  · exact id
  · exact id
  · intro cs hflow
    simp only [Cmd.exec] at hflow
    cases hflow
    split
    · rename_i hboth
      have hboth := hdone.mp hboth
      exact .mark hboth.1 hboth.2
    · exact .spare (by simp)

theorem joins_mark (hj : Joins s r) (hembed : Done s r .embed)
    (hproc : s.procs i = .todo [.markReady r]) :
    Advances r s (s.after cfg x i (.markReady r) []) := by
  have hsome : (s.db.status r).isSome = true := (hj.gate .embed rfl (.inr hembed)).1
  have hexec : Cmd.exec cfg x s.db (.markReady r) = (s.db.setStatus r .ready, .next []) := by
    simp [Cmd.exec, hsome]
  have hready : (s.after cfg x i (.markReady r) []).db.status r = some .ready := by
    rw [Sys.after, hexec, Sys.setProc_db]
    exact Db.setStatus_self
  apply joins_alike hj
  · constructor
    · intro y _ _ hpend
      simp [hproc, Proc.pending, enqueue] at hpend
    · intro y _ _ hlead
      simp [hproc, enqueue] at hlead
    · exact fun _ _ _ => .inl hready
  · rw [hexec]
    rfl
  · simp [hexec]
  · simp [hexec]
  · intro cs hflow
    rw [hexec] at hflow
    cases hflow
    exact .spare (by simp)

theorem owed_after (hmem : .succ r k ∈ rest ∨ enqueue r k {} ∈ rest)
    (hflow : ∃ cs, (c.exec cfg x s.db).2 = .next cs) : Owed (s.after cfg x i c rest) r k := by
  rcases hflow with ⟨cs, hflow⟩
  have hpend {c' : Cmd} (hc' : c' ∈ rest) : Pending false (s.after cfg x i c rest) c' := by
    refine ⟨i, ?_⟩
    rw [Sys.after, Sys.setProc_self, hflow]
    exact List.mem_append_right _ hc'
  exact hmem.imp hpend hpend

theorem joins_succeed (hj : Joins s r) (hys : y :: ys <:+ k.successors)
    (hproc : s.procs i = .todo (.succ r y :: ys.map (.succ r))) :
    Advances r s (s.after cfg x i (.succ r y) (ys.map (.succ r))) := by
  have hdue {y' : JobKind} (hdone : ∀ p ∈ y'.predecessors, Done s r p) :
      s.db.jobs.predecessorsDone r y' = true := by
    rw [predecessorsDone, List.all_eq_true]
    exact hdone
  apply joins_alike hj
  · constructor
    · rintro y' - hdone (hc | hc)
      · rw [hproc] at hc
        rcases List.mem_cons.mp hc with heq | hc
        · cases heq
          refine .inr (.inr ⟨i, ?_⟩)
          rw [Sys.after, Sys.setProc_self]
          simp [Cmd.exec, hdue hdone, advance, Proc.pending]
        · exact .inr (owed_after (.inl hc) ⟨_, rfl⟩)
      · simp [hproc, Proc.pending, enqueue] at hc
    · rintro y' - hdone (⟨rest, hlead⟩ | ⟨rest, hlead⟩)
      · rw [hproc] at hlead
        cases hlead
        refine .inr (.inr ⟨i, ys.map (.succ r), ?_⟩)
        rw [Sys.after, Sys.setProc_self]
        simp [Cmd.exec, hdue hdone, advance]
      · rw [hproc] at hlead
        cases hlead
    · intro _ _ hpend
      simp [hproc, Proc.pending] at hpend
  · rfl
  · exact id
  · exact id
  · intro cs hflow
    simp only [Cmd.exec] at hflow
    cases hflow
    split
    · rename_i hdone
      rw [predecessorsDone, List.all_eq_true] at hdone
      exact .enqueue hys hdone
    · exact .succeed ((List.suffix_cons y ys).trans hys)

/-- A select is reached only after a refused insert, so somebody else has enqueued `y`;
were the job gone by now, what else this worker would check is owed by that process. -/
theorem joins_select (hj : Joins s r) (hys : y :: ys <:+ k.successors) (hrow : Enqueued s r y)
    (hproc : s.procs i = .todo (.selectJob r y true :: ys.map (.succ r))) :
    Advances r s (s.after cfg x i (.selectJob r y true) (ys.map (.succ r))) := by
  apply joins_alike hj
  · constructor
    · rintro y' hy' hdone (hc | hc)
      · have hmem : y' ∈ ys := by simpa [hproc, Proc.pending] using hc
        have hpair := (JobKind.successors_of_suffix hys hmem).1
        rcases hj.sibling k y y' hpair hrow with henq | hnext
        · exact .inl henq
        · right
          rcases hnext with ⟨j, rest, hlead⟩ | ⟨j, rest, hlead⟩
          · have hji : j ≠ i := by
              rintro rfl
              rw [hproc] at hlead
              cases hlead
            exact .inl (Leading.pending ⟨j, rest, by rw [after_procs_of_ne hji, hlead]⟩)
          · have hji : j ≠ i := by
              rintro rfl
              rw [hproc] at hlead
              cases hlead
            exact .inr (Leading.pending ⟨j, rest, by rw [after_procs_of_ne hji, hlead]⟩)
      · simp [hproc, Proc.pending, enqueue] at hc
    · rintro y' - - (⟨rest, hlead⟩ | ⟨rest, hlead⟩)
      · rw [hproc] at hlead
        cases hlead
      · rw [hproc] at hlead
        cases hlead
    · intro _ _ hpend
      simp [hproc, Proc.pending] at hpend
  · rfl
  · exact id
  · exact id
  · intro cs hflow
    simp only [Cmd.exec] at hflow
    split at hflow
    · cases hflow
      exact .succeed ((List.suffix_cons y ys).trans hys)
    · cases hflow

/-! ## The insert -/

theorem joins_insert (hj : Joins s r) (hy : y.isPipeline = true)
    (hsome : (s.db.status r).isSome = true) (hpre : ∀ p ∈ y.predecessors, Done s r p)
    (hproc : s.procs i = .todo (enqueue r y {} :: rest)) (hrest : ∀ c ∈ rest, c.owes r → ∃ y', c = .succ r y')
    (hpair : ∀ (k₀ y' : JobKind), k₀.successors = [y, y'] → rest = [.succ r y'])
    (herrand : Errand (s.after cfg x i (enqueue r y {}) rest) r rest)
    (hselect : Enqueued (s.after cfg x i (enqueue r y {}) rest) r y →
      Errand (s.after cfg x i (enqueue r y {}) rest) r (.selectJob r y true :: rest)) :
    Advances r s (s.after cfg x i (enqueue r y {}) rest) := by
  rcases exec_enqueue cfg x y hsome with ⟨hdb, hflow⟩
  have hjobs : (s.after cfg x i (enqueue r y {}) rest).db.jobs =
      (s.db.jobs.insert s.db.now r y {} 0).2 := by
    rw [Sys.after, Sys.setProc_db, hdb]
  have hstatus : (s.after cfg x i (enqueue r y {}) rest).db.status = s.db.status := by
    rw [Sys.after, Sys.setProc_db, hdb]
  have hdone (k : JobKind) : Done (s.after cfg x i (enqueue r y {}) rest) r k ↔ Done s r k := by
    rw [Done, Done, hjobs, done_insert]
  have hlive : Live (s.after cfg x i (enqueue r y {}) rest) r y := by
    rw [Live, hjobs]
    exact (jobsFrame_insert (r := r) (x := fun _ => False)).2
  have hother {k : JobKind} (hk : k ≠ y) :
      Enqueued (s.after cfg x i (enqueue r y {}) rest) r k ↔ Enqueued s r k := by
    rw [Enqueued, Enqueued, hdone, Live, Live, hjobs, has_insert fun _ => Ne.symm hk]
  have hmono {k : JobKind} (h : Enqueued s r k) :
      Enqueued (s.after cfg x i (enqueue r y {}) rest) r k := by
    by_cases hk : k = y
    · rw [hk]
      exact .inl hlive
    · exact (hother hk).mpr h
  have hset : Settles r s (s.after cfg x i (enqueue r y {}) rest) i := by
    constructor
    · rintro y' hy' hdone' (hc | hc)
      · rw [hproc] at hc
        rcases List.mem_cons.mp hc with heq | hc
        · cases heq
        · exact .inr (owed_after (.inl hc) ⟨_, hflow⟩)
      · rw [hproc] at hc
        rcases List.mem_cons.mp hc with heq | hc
        · cases heq
          exact .inl (.inl hlive)
        · exact .inr (owed_after (.inr hc) ⟨_, hflow⟩)
    · rintro y' - - (⟨rest', hlead⟩ | ⟨rest', hlead⟩)
      · rw [hproc] at hlead
        cases hlead
      · rw [hproc] at hlead
        cases hlead
        exact .inl (.inl hlive)
    · rintro - - (hc | hc)
      · rw [hproc] at hc
        rcases List.mem_cons.mp hc with heq | hc
        · cases heq
        · rcases hrest _ hc (.inr (.inl rfl)) with ⟨y', heq⟩
          cases heq
      · rw [hproc] at hc
        rcases List.mem_cons.mp hc with heq | hc
        · cases heq
        · rcases hrest _ hc (.inr (.inr rfl)) with ⟨y', heq⟩
          cases heq
  have hprocs : ({ s with db := (Cmd.exec cfg x s.db (enqueue r y {})).1 } : Sys).procs = s.procs := rfl
  have hand : Handover r s (s.after cfg x i (enqueue r y {}) rest) := by
    constructor
    · exact fun k _ h => (hdone k).mpr h
    · exact fun k _ h => hmono h
    · exact fun k _ h => .inl ((hdone k).mp h)
    · intro k hk henq
      by_cases hky : k = y
      · subst hky
        by_cases hold : Live s r k
        · exact .inl (.inl hold)
        · right
          refine ⟨by rwa [hstatus], fun p hp => (hdone p).mpr (hpre p hp), fun k₀ y' hk₀ => ?_⟩
          rw [if_neg (show ¬ s.db.jobs.has r k Job.isLive = true from hold)] at hflow
          have hnext := hpair k₀ y' hk₀
          refine .inl ⟨i, [], ?_⟩
          rw [Sys.after, Sys.setProc_self, hflow, hnext]
          rfl
      · exact .inl ((hother hky).mp henq)
    · rw [hstatus]
      exact id
    · rw [hstatus]
      exact id
    · exact fun _ hy hd h => hset.owed' hprocs hy hd h
    · exact fun _ hy hd h => hset.owedNext' hprocs hy hd h
    · exact fun he hs h => hset.readyPending' hprocs he hs h
  apply joins_handover hj hand fun j => after_procs_of_ne
  apply errand_after
  intro cs hcs
  rw [hflow] at hcs
  cases hcs
  split
  · exact hselect (.inl hlive)
  · exact herrand

/-! ## The report -/

theorem enqueued_iff : Enqueued s r k ↔
    s.db.jobs.has r k (fun j => j.isLive || j.state == .done) = true := by
  simp only [Enqueued, Live, Done, has_iff, Bool.or_eq_true]
  constructor
  · rintro (⟨j, hj, hk, hq⟩ | ⟨j, hj, hk, hq⟩)
    · exact ⟨j, hj, hk, .inl hq⟩
    · exact ⟨j, hj, hk, .inr hq⟩
  · rintro ⟨j, hj, hk, hq | hq⟩
    · exact .inl ⟨j, hj, hk, hq⟩
    · exact .inr ⟨j, hj, hk, hq⟩

theorem joins_report (hs : Snapshot s) (hl : Leased s) (hj : Joins s r)
    (hr : job.recordingId = some r) (hproc : s.procs i = .todo [.completeJob job]) :
    Advances r s (s.after cfg x i (.completeJob job) []) := by
  have hold : Holds s i job := by
    rw [Holds, hproc]
    rfl
  have hset : Settles r s (s.after cfg x i (.completeJob job) []) i := by
    apply settles_other hproc _ (by simp)
    simp [Cmd.owes, enqueue]
  have hdone (k : JobKind) : Done (s.after cfg x i (.completeJob job) []) r k ↔
      Done s r k ∨ ∃ row, s.db.jobs.row job.id = some row ∧ row.recordingId = some r ∧
        row.kind = k := done_complete
  -- the worker has its lease, so the row was live and is done now
  have henq (k : JobKind) : Enqueued (s.after cfg x i (.completeJob job) []) r k ↔
      Enqueued s r k := by
    rw [enqueued_iff, enqueued_iff]
    have hhas : (s.db.jobs.complete s.db.now job.id).has r k (fun j => j.isLive || j.state == .done) =
        s.db.jobs.has r k fun j => j.isLive || j.state == .done := by
      apply has_update keeps_completed rfl
      intro j hj hid _
      have hrunning := (hl.held i job j hold (row_eq_some.mpr ⟨hj, eq_of_beq hid⟩)).1
      simp [completed, Job.isLive, hrunning]
    exact hhas ▸ Iff.rfl
  have hpost {c : Cmd} (hc : c ∈ postSteps job) :
      Pending false (s.after cfg x i (.completeJob job) []) c := by
    refine ⟨i, ?_⟩
    rw [Sys.after, Sys.setProc_self]
    exact List.mem_append_left _ hc
  have hprocs : ({ s with db := (Cmd.exec cfg x s.db (.completeJob job)).1 } : Sys).procs =
      s.procs := rfl
  have hand : Handover r s (s.after cfg x i (.completeJob job) []) := by
    constructor
    · exact fun k _ h => (hdone k).mpr (.inl h)
    · exact fun k _ h => (henq k).mpr h
    · intro k _ h
      rcases (hdone k).mp h with h | ⟨row, hrow, -, hk⟩
      · exact .inl h
      · right
        have hkind : k = job.kind := hk.symm.trans (hs.columns i job row hold hrow).1
        subst hkind
        exact ⟨fun y hy => .inl (hpost (postSteps_succ hr hy)),
          fun hk => .inl (hpost (postSteps_ready hr hk))⟩
    · exact fun k _ h => .inl ((henq k).mp h)
    · exact id
    · exact id
    · exact fun _ hy hd h => hset.owed' hprocs hy hd h
    · exact fun _ hy hd h => hset.owedNext' hprocs hy hd h
    · exact fun he hs h => hset.readyPending' hprocs he hs h
  apply joins_handover hj hand fun j => after_procs_of_ne
  apply errand_after
  intro cs hflow
  cases hflow
  rw [List.append_nil]
  exact postSteps_errand hr

/-! ## Whole runs -/

theorem joins_cmd (hs : Snapshot s) (hl : Leased s) (hok : Undisturbed cfg r s (.step i x))
    (hj : Joins s r) (hproc : s.procs i = .todo (c :: rest)) :
    Advances r s (s.after cfg x i c rest) := by
  have herrand := hj.errand i _ hproc
  generalize hcs : c :: rest = cs at herrand
  cases herrand with
  | spare h =>
    subst hcs
    exact joins_spare hs hl hj hproc h fun hc => hok.2.1 rest (hc ▸ hproc)
  | accept d m =>
    cases hcs
    exact joins_accept hj hproc
  | process sts => exact joins_process hj hok.2.2 hproc hcs
  | enter =>
    cases hcs
    cases hsome : (s.db.status r).isSome with
    | true =>
      apply joins_insert hj rfl hsome (by simp [JobKind.predecessors]) hproc
      · simp [Cmd.owes, enqueue]
      · intro k₀ y' h
        cases k₀ <;> simp [JobKind.successors] at h
      · exact .spare (by simp [Cmd.spares])
      · exact fun _ => .spare (by simp [Cmd.spares])
    | false =>
      have hnone : s.db.status r = none := by simpa using hsome
      have hexec : Cmd.exec cfg x s.db (enqueue r .transcode {}) = (s.db, .abort) := by
        simp [enqueue, Cmd.exec, hnone]
      apply joins_alike hj
      · apply settles_other hproc
        · simp [Cmd.owes, enqueue, JobKind.later]
        · simp [Cmd.owes, enqueue]
      · rw [hexec]
      · rw [hexec]
        exact id
      · rw [hexec]
        exact id
      · simp [hexec]
  | report job hr =>
    cases hcs
    exact joins_report hs hl hj hr hproc
  | @succeed k ys hys =>
    cases ys with
    | nil => cases hcs
    | cons y ys =>
      cases hcs
      exact joins_succeed hj hys hproc
  | @enqueue k y ys hys hdone =>
    cases hcs
    have hmem : k ∈ y.predecessors := JobKind.mem_successors.mp (hys.subset List.mem_cons_self)
    have hpipe := JobKind.isPipeline_of_mem_predecessors hmem
    apply joins_insert hj hpipe.2 (hj.gate k hpipe.1 (.inr (hdone k hmem))).1 hdone hproc
    · rintro c hc -
      rcases List.mem_map.mp hc with ⟨y', -, rfl⟩
      exact ⟨y', rfl⟩
    · intro k₀ y' hpair
      have hk₀ : k = k₀ := by
        have hpre := (JobKind.successors_of_pair hpair).2.2.1
        rw [hpre] at hmem
        exact List.mem_singleton.mp hmem
      subst hk₀
      rw [JobKind.suffix_of_pair hys hpair]
      rfl
    · exact .succeed ((List.suffix_cons y ys).trans hys)
    · exact fun henq => .select hys henq
  | select hys hrow =>
    cases hcs
    exact joins_select hj hys hrow hproc
  | count =>
    cases hcs
    exact joins_count hj hproc
  | mark hembed =>
    cases hcs
    exact joins_mark hj hembed hproc

theorem handover_same (hprocs : s'.procs = s.procs) (hjobs : Alike r s.db.jobs s'.db.jobs)
    (hstatus : s'.db.status r = s.db.status r) : Handover r s s' := by
  have hpend {c : Cmd} (h : Pending false s c) : Pending false s' c := by
    rwa [Pending, hprocs]
  have hlead {c : Cmd} (h : Leading s c) : Leading s' c := by
    rwa [Leading, hprocs]
  constructor
  · exact fun k hk => (done_of_alike hjobs hk).mpr
  · exact fun k hk => (enqueued_of_alike hjobs hk).mpr
  · exact fun k hk h => .inl ((done_of_alike hjobs hk).mp h)
  · exact fun k hk h => .inl ((enqueued_of_alike hjobs hk).mp h)
  · rw [hstatus]
    exact id
  · rw [hstatus]
    exact id
  · exact fun _ _ _ h => .inr (h.imp hpend hpend)
  · exact fun _ _ _ h => .inr (h.imp hlead hlead)
  · exact fun _ _ h => .inr (h.imp hpend hpend)

/-- A step of a process that had no list: it starts one, or goes on with a stage. -/
theorem joins_fresh {s₁ : Sys} {p : Proc} (hj : Joins s r) (hprocs : s₁.procs = s.procs)
    (hjobs : Alike r s.db.jobs s₁.db.jobs) (hstatus : s₁.db.status r = s.db.status r)
    (hnone : (s.procs i).pending false = [])
    (herrand : ∀ cs, p = .todo cs → Errand (s₁.setProc i p) r cs) :
    Advances r s (s₁.setProc i p) := by
  have hset : Settles r s (s₁.setProc i p) i := by
    apply settles_of_not_owes
    simp [hnone]
  apply joins_handover (i := i) hj
  · apply handover_of_alike hprocs hset hjobs
    · rw [hstatus]
      exact id
    · rw [hstatus]
      exact id
  · intro j hji
    rw [Sys.setProc_of_ne hji, hprocs]
  · rw [Sys.setProc_self]
    exact herrand

theorem first_errand {q : Request} (hq : q.spares r) : Errand s r [q.first] := by
  cases q with
  | create | setParticipants | putSegment => exact .spare (by simp [Request.first, Cmd.spares])
  | complete r' d m =>
    by_cases hr : r' = r
    · subst hr
      exact .accept d m
    · exact .spare (by simpa [Request.first, Cmd.spares] using hr)
  | _ =>
    refine .spare fun c hc => ?_
    rw [List.mem_singleton.mp hc]
    exact hq

theorem joins_moved (hs : Snapshot s) (hl : Leased s) (hok : Undisturbed cfg r s a)
    (hj : Joins s r) (h : Moved cfg s a s') : Advances r s s' := by
  cases h with
  | tick d =>
    have hsame : Handover r s { s with db := { s.db with now := s.db.now + d } } :=
      handover_same rfl alike_refl rfl
    exact joins_handover (i := 0) hj hsame (fun _ _ => rfl)
      fun cs h => errand_mono hsame (hj.errand 0 cs h)
  | @heartbeat i job body w hproc hw =>
    have hjobs : Alike r s.db.jobs (s.db.jobs.heartbeat s.db.now job.id w) :=
      alike_update keeps_renewed rfl fun j _ _ _ => ⟨rfl, Iff.rfl⟩
    have hsame : Handover r s (s.setJobs (s.db.jobs.heartbeat s.db.now job.id w)) :=
      handover_same rfl hjobs rfl
    exact joins_handover (i := 0) hj hsame (fun _ _ => rfl)
      fun cs h => errand_mono hsame (hj.errand 0 cs h)
  | stop => exact hok.elim
  | cmd x hproc => exact joins_cmd hs hl hok hj hproc
  | @claim i w kinds id j t hidle hclaim =>
    exact joins_fresh hj rfl (alike_claimOne hclaim) rfl (by simp [hidle, Proc.pending])
      (by rintro _ ⟨⟩)
  | request q hidle =>
    apply joins_fresh hj rfl alike_refl rfl (by simp [hidle, Proc.pending])
    rintro cs ⟨⟩
    exact first_errand hok
  | reaper hidle =>
    apply joins_fresh hj rfl alike_refl rfl (by simp [hidle, Proc.pending])
    rintro cs ⟨⟩
    exact .spare (by simp [Cmd.spares])
  | @stmt i job st body c sts x hproc =>
    have hprocs : ({ s with db := { s.db with content := c } } : Sys).procs = s.procs := rfl
    exact joins_fresh hj hprocs alike_refl rfl (by simp [hproc, Proc.pending])
      (by rintro _ ⟨⟩)
  | @stmtErr i job st body x hproc hexec =>
    apply joins_fresh hj rfl alike_refl rfl (by simp [hproc, Proc.pending])
    rintro cs ⟨⟩
    refine .spare fun c hc => ?_
    rw [List.mem_singleton.mp hc]
    intro hr
    have hsome := hok.1 job st body hproc hr
    simp [hexec] at hsome
  | @bodyDone i job x hproc =>
    apply joins_fresh hj rfl alike_refl rfl (by simp [hproc, Proc.pending])
    rintro cs ⟨⟩
    by_cases hr : job.recordingId = some r
    · exact .report job hr
    · exact .spare (by simpa [Cmd.spares] using hr)
  | @stageErr i job body error hproc =>
    apply joins_fresh hj rfl alike_refl rfl (by simp [hproc, Proc.pending])
    rintro cs ⟨⟩
    exact .spare (by simpa [Cmd.spares] using hok job body hproc)
  | @windowClosed i job body delay hproc =>
    apply joins_fresh hj rfl alike_refl rfl (by simp [hproc, Proc.pending])
    rintro cs ⟨⟩
    exact .spare (by simp [Cmd.spares])

theorem joins_start : Joins Sys.start r where
  errand _ _ h := nomatch h
  gate _ _ h := nomatch h
  owed y hy h := by
    cases y with
    | transcode | transcribeSegment => simp [JobKind.later] at hy
    | diarize | transcribe => cases h .transcode (by decide)
    | merge => cases h .diarize (by decide)
    | embed | summarize => cases h .merge (by decide)
  sibling _ _ _ _ h := nomatch h
  ready h := nomatch h

/-! ## The accepted complete call -/

/-- How far the handler of a complete request has come. -/
inductive Caller (s : Sys) (r : Uuid) : Proc → Prop
  | read (d : Option ℤ) (m : Option (List ℤ)) : Caller s r (.todo [.completeRead r d m])
  | process (sts : List Stmt) : Caller s r (.todo (sts.map .content ++ [.markProcessing r]))
  | enter : Caller s r (.todo [enqueue r .transcode {}, .reply 200])
  | select (henq : Enqueued s r .transcode) :
      Caller s r (.todo [.selectJob r .transcode true, .reply 200])
  | reply (henq : Enqueued s r .transcode) : Caller s r (.todo [.reply 200])
  | ended (code : Option ℕ) (left : List Cmd) (henq : code = some 200 → Enqueued s r .transcode) :
      Caller s r (.ended code left)

theorem caller_mono {p : Proc} (hmono : Enqueued s r .transcode → Enqueued s' r .transcode)
    (h : Caller s r p) : Caller s' r p := by
  cases h with
  | read d m => exact .read d m
  | process sts => exact .process sts
  | enter => exact .enter
  | select henq => exact .select (hmono henq)
  | reply henq => exact .reply (hmono henq)
  | ended code left henq => exact .ended code left fun h => hmono (henq h)

theorem caller_after (h : Caller s r (.todo (c :: rest)))
    (hmono : Enqueued s r .transcode → Enqueued (s.after cfg x i c rest) r .transcode) :
    Caller (s.after cfg x i c rest) r (advance rest (c.exec cfg x s.db).2) := by
  generalize hp : Proc.todo (c :: rest) = p at h
  cases h with
  | read d m =>
    cases hp
    simp only [Cmd.exec, fetched]
    split
    · exact .ended _ _ (by rintro ⟨⟩)
    · split
      · exact .ended _ _ (by rintro ⟨⟩)
      · rw [advance, completing_list]
        exact .process _
  | process sts =>
    have hcs := Proc.todo.inj hp
    cases sts with
    | nil =>
      cases hcs
      simp only [Cmd.exec]
      split
      · exact .enter
      · exact .ended _ _ (by rintro ⟨⟩)
    | cons st sts =>
      rcases List.cons.inj hcs with ⟨rfl, rfl⟩
      simp only [Cmd.exec]
      split
      · exact .ended _ _ (by rintro ⟨⟩)
      · rename_i sts' _
        have hcaller : Caller (s.after cfg x i (.content st)
            (sts.map Cmd.content ++ [Cmd.markProcessing r])) r
              (.todo ((sts' ++ sts).map Cmd.content ++ [Cmd.markProcessing r])) := .process _
        rwa [List.map_append, List.append_assoc] at hcaller
  | enter =>
    cases hp
    cases hsome : (s.db.status r).isSome with
    | true =>
      rcases exec_enqueue cfg x .transcode hsome with ⟨hdb, hflow⟩
      have hlive : Enqueued (s.after cfg x i (enqueue r .transcode {}) [.reply 200]) r
          .transcode := by
        rw [Sys.after, Enqueued, Live, Sys.setProc_db, hdb]
        exact .inl (jobsFrame_insert (r := r) (x := fun _ => False)).2
      rw [hflow]
      split
      · exact .select hlive
      · exact .reply hlive
    | false =>
      have hnone : s.db.status r = none := by simpa using hsome
      simp only [enqueue, Cmd.exec, hnone, Option.isNone_none, if_true]
      exact .ended _ _ (by rintro ⟨⟩)
  | select henq =>
    cases hp
    simp only [Cmd.exec]
    split
    · exact .reply (hmono henq)
    · exact .ended _ _ (by rintro ⟨⟩)
  | reply henq =>
    cases hp
    exact .ended _ _ fun _ => hmono henq
  | ended => cases hp

theorem caller_moved (hok : Undisturbed cfg r s a) (h : Moved cfg s a s')
    (hmono : Enqueued s r .transcode → Enqueued s' r .transcode)
    (hcaller : Caller s r (s.procs i)) : Caller s' r (s'.procs i) := by
  have hbusy : s.procs i ≠ .idle := by
    intro hidle
    rw [hidle] at hcaller
    cases hcaller
  have hstage {job : Job} {body : List Stmt} : s.procs i ≠ .stage job body := by
    intro hstage
    rw [hstage] at hcaller
    cases hcaller
  have hsame {j : ℕ} {p : Proc} {s₁ : Sys} (hprocs : s₁.procs = s.procs) (hij : i ≠ j)
      (hmono : Enqueued s r .transcode → Enqueued (s₁.setProc j p) r .transcode) :
      Caller (s₁.setProc j p) r ((s₁.setProc j p).procs i) := by
    rw [Sys.setProc_of_ne hij, hprocs]
    exact caller_mono hmono hcaller
  cases h with
  | tick | heartbeat => exact caller_mono hmono hcaller
  | stop => exact hok.elim
  | @cmd j c rest x hproc =>
    by_cases hij : i = j
    · subst hij
      rw [Sys.setProc_self]
      exact caller_after (hproc ▸ hcaller) hmono
    · exact hsame rfl hij hmono
  | request q hidle | reaper hidle | claim hidle =>
    exact hsame rfl (fun hij => hbusy (hij ▸ hidle)) hmono
  | stmt _ hproc | stmtErr _ hproc | bodyDone _ hproc | stageErr _ hproc | windowClosed _ hproc =>
    exact hsame rfl (fun hij => hstage (hij ▸ hproc)) hmono

/-- The invariant of an undisturbed run. -/
structure Joined (r : Uuid) (tr : List Label) (s : Sys) : Prop where
  snapshot : Snapshot s
  leased : Leased s
  joins : Joins s r
  caller : ∀ i d m, .request i (.complete r d m) ∈ tr → Caller s r (s.procs i)

theorem joined_run {tr : List Label} (h : Run (step cfg) (Undisturbed cfg r) Sys.start tr s) :
    Joined r tr s := by
  apply h.history (I := Joined r)
  · exact ⟨snapshot_start, leased_start, joins_start, fun _ _ _ h => nomatch h⟩
  · intro tr s a s' _ hj hok hstep
    have hmoved := step_moved hstep
    have hadv := joins_moved hj.snapshot hj.leased hok hj.joins hmoved
    refine ⟨snapshot_moved hj.snapshot hmoved,
      leased_moved hj.snapshot hj.leased hok.reapsDead hmoved, hadv.2, fun i d m hmem => ?_⟩
    rcases List.mem_append.mp hmem with hmem | hmem
    · exact caller_moved hok hmoved (hadv.1.enqueued _ rfl) (hj.caller i d m hmem)
    · cases List.mem_singleton.mp hmem
      cases hmoved
      rw [Sys.setProc_self]
      exact .read d m

/-- No pipeline job of `r` is queued or running, and no process is between completing a
stage and the last of its post-completion steps, or about to enqueue one. -/
structure Quiescent (s : Sys) (r : Uuid) : Prop where
  live : ∀ k, k.isPipeline = true → ¬ Live s r k
  check : ∀ k, ¬ Pending false s (.succ r k)
  insert : ∀ k payload strict, k.isPipeline = true → ¬ Pending false s (.insertJob r k payload strict)
  ready : ¬ ReadyPending false s r

/-- After a complete call answered 200, every quiescent state of an undisturbed run has
a done job of each pipeline stage and the recording ready. -/
theorem done_of_quiescent {tr : List Label} {d : Option ℤ} {m : Option (List ℤ)}
    (h : Run (step cfg) (Undisturbed cfg r) Sys.start tr s)
    (hcall : .request i (.complete r d m) ∈ tr) (haccepted : s.procs i = .ended (some 200) rest)
    (hq : Quiescent s r) :
    (∀ k ∈ JobKind.pipelineStages, Done s r k) ∧ s.db.status r = some .ready := by
  have hj := joined_run h
  have hdone {k : JobKind} (hk : k.isPipeline = true) (henq : Enqueued s r k) : Done s r k :=
    henq.resolve_left (hq.live k hk)
  have hentry : Done s r .transcode := by
    have hcaller := hj.caller i d m hcall
    rw [haccepted] at hcaller
    cases hcaller with
    | ended _ _ henq => exact hdone rfl (henq rfl)
  have hstage {y : JobKind} (hy : y ∈ JobKind.later) (hpre : ∀ p ∈ y.predecessors, Done s r p) :
      Done s r y := by
    have hk := JobKind.isPipeline_of_mem_later hy
    rcases hj.joins.owed y hy hpre with henq | hcheck | hinsert
    · exact hdone hk henq
    · exact absurd hcheck (hq.check y)
    · exact absurd hinsert (hq.insert y {} true hk)
  have hdiarize : Done s r .diarize := hstage (by decide) (by simpa [JobKind.predecessors])
  have htranscribe : Done s r .transcribe := hstage (by decide) (by simpa [JobKind.predecessors])
  have hmerge : Done s r .merge := hstage (by decide) (by simp [JobKind.predecessors, *])
  have hembed : Done s r .embed := hstage (by decide) (by simpa [JobKind.predecessors])
  have hsummarize : Done s r .summarize := hstage (by decide) (by simpa [JobKind.predecessors])
  constructor
  · simp [JobKind.pipelineStages, *]
  · exact (hj.joins.ready hembed hsummarize).resolve_right hq.ready

/-- A recording runs through the pipeline, with both workers of a join completing
their stages before either of them checks what comes next. -/
def pipelineRun : List Label :=
  .request 0 (.create 7) :: .step 0 {} :: .request 1 (.complete 7 none none) :: steps 1 4 ++
  [Label.claim 2 1 [.transcode] 1] ++ steps 2 8 ++
  [Label.claim 3 1 [.diarize] 2, .claim 4 2 [.transcribe] 3] ++ steps 3 6 ++ steps 4 3 ++
  -- both insert merge; the second insert meets the first
  steps 3 1 ++ steps 4 1 ++ steps 3 1 ++ steps 4 2 ++
  [Label.claim 5 1 [.merge] 4] ++ steps 5 10 ++
  [Label.claim 6 1 [.embed] 6, .claim 7 2 [.summarize] 7] ++ steps 6 4 ++ steps 7 4 ++
  steps 6 1 ++ steps 7 1 ++ steps 6 1 ++ steps 7 1

def calm (s : Sys) : Label → Bool
  | .request _ (.create _) | .request _ (.putSegment _ _ _ _) | .request _ (.complete _ _ _) => true
  | .step i x =>
    match s.procs i with
    | .stage _ (st :: _) => (st.exec s.db.now s.db.status x s.db.content).isSome
    | .todo (.reapStuck :: _) => false
    | .todo (.markProcessing r :: _) => s.db.status r == some .uploading
    | _ => true
  | .tick _ | .claim _ _ _ _ | .windowClosed _ _ | .heartbeat _ => true
  | _ => false


theorem undisturbed_of_calm (h : calm s a = true) : Undisturbed {} r s a := by
  cases a with
  | request i q =>
    cases q with
    | create | putSegment | complete => trivial
    | _ => cases h
  | step i x =>
    refine ⟨fun job st body hproc _ => ?_, fun rest hproc => ?_, fun rest hproc => ?_⟩
    · simpa only [calm, hproc] using h
    · simp [calm, hproc] at h
    · simpa [calm, hproc] using h
  | stageErr | stop | reaper => cases h
  | _ => trivial

def readyState : Sys := (exec (guarded (step {}) calm) Sys.start pipelineRun).get (by decide +kernel)

theorem pending_readyState (i : ℕ) : (readyState.procs i).pending false = [] := by
  match i with
  | 0 | 1 | 2 | 3 | 4 | 5 | 6 | 7 => decide +kernel
  | n + 8 => rfl

theorem run_readyState : Run (step {}) (Undisturbed {} r) Sys.start pipelineRun readyState :=
  run_of_guarded _ fun _ _ => undisturbed_of_calm

theorem accepted_readyState : readyState.procs 1 = .ended (some 200) [] := by decide +kernel

theorem quiescent_readyState : Quiescent readyState 7 := by
  have hno (c : Cmd) : ¬ Pending false readyState c := by
    rintro ⟨i, hc⟩
    rw [pending_readyState i] at hc
    cases hc
  refine ⟨fun k _ => ?_, fun _ => hno _, fun _ _ _ _ => hno _, fun h => h.elim (hno _) (hno _)⟩
  have hlive : ∀ k ∈ JobKind.all, readyState.db.jobs.has 7 k Job.isLive = false := by
    decide +kernel
  rw [Live, hlive k (by cases k <;> decide)]
  exact Bool.false_ne_true

theorem done_of_quiescent_readyState :
    (∀ k ∈ JobKind.pipelineStages, Done readyState 7 k) ∧
      readyState.db.status 7 = some .ready :=
  done_of_quiescent (i := 1) (d := none) (m := none)
    run_readyState (.tail _ (.tail _ (.head _))) accepted_readyState quiescent_readyState

end ScribeLocal.Server
