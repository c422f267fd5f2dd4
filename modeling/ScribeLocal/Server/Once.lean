import ScribeLocal.Server.Drain
import ScribeLocal.Server.Join

/-! # How often a stage is enqueued

The unique index covers live jobs only. Two workers that complete the two sides of a
join both see it satisfied; where the second enqueue comes after the joined stage is
done, the index has nothing to refuse it with.
-/
namespace ScribeLocal.Server
open Table Jobs Transition

variable {cfg : Config} {r : Uuid} {s s' : Sys} {a : Label} {x : Heard} {db : Db} {c c' : Cmd}
  {k : JobKind} {i : ℕ} {rest : List Cmd} {job : Job} {tr : List Label}

/-- The command is on its way to enqueue a job of kind `k`. -/
def Cmd.enters (r : Uuid) (k : JobKind) : Cmd → Prop
  | .insertJob r' k' _ _ | .succ r' k' => r' = r ∧ k' = k
  | .markProcessing r' => r' = r ∧ k = .transcode
  | _ => False

instance : Decidable (c.enters r k) := by
  rcases c <;> unfold Cmd.enters <;> infer_instance

/-- No stage of `r` fails, no user edits `r`, and a reap takes back no job of `r` and none that a
process still holds; and a job of `r` completes only when nobody is still on the way to enqueue
its kind. -/
def Punctual (cfg : Config) (r : Uuid) (s : Sys) : Label → Prop
  | .request _ q => q.spares r
  | .step i x =>
    (∀ job st body, s.procs i = .stage job (st :: body) → job.recordingId = some r →
      (st.exec s.db.now s.db.status x s.db.content).isSome = true) ∧
    (∀ rest, s.procs i = .todo (.reapStuck :: rest) → ∀ row ∈ s.db.jobs.rows,
      stuck s.db.now cfg.lease row = true →
        row.recordingId ≠ some r ∧ ∀ k job, Holds s k job → job.id ≠ row.id) ∧
    (∀ job rest, s.procs i = .todo (.completeJob job :: rest) → job.recordingId = some r →
      ∀ c, c.enters r job.kind → ¬ Pending false s c)
  | .stageErr i _ => ∀ job body, s.procs i = .stage job body → job.recordingId ≠ some r
  | _ => True

/-- The step inserts a job row of recording `r` and kind `k`. -/
def insertions (r : Uuid) (k : JobKind) (s : Sys) : Label → ℕ
  | .step i _ =>
    match s.procs i with
    | .todo (.insertJob r' k' _ _ :: _) =>
      if r' = r ∧ k' = k ∧ (s.db.status r).isSome = true ∧ s.db.jobs.has r k Job.isLive = false
      then 1 else 0
    | _ => 0
  | _ => 0

/-- The step lets a complete call of `r` past its status check. -/
def accepts (r : Uuid) (s : Sys) : Label → ℕ
  | .step i _ =>
    match s.procs i with
    | .todo (.completeRead r' _ _ :: _) =>
      if r' = r ∧ s.db.status r = some .uploading then 1 else 0
    | _ => 0
  | _ => 0

/-! ## Counting rows -/

/-- How many rows of recording `r` and kind `k` there are. -/
def rowCount (t : Jobs) (r : Uuid) (k : JobKind) : ℕ := t.rows.countP fun j => j.isOf r k

theorem rowCount_eq_zero {t : Jobs}
    (h : ∀ row ∈ t.rows, row.recordingId = some r → row.kind ≠ k) : rowCount t r k = 0 := by
  rw [rowCount, List.countP_eq_zero]
  intro row hrow hof
  have hk := Job.isOf_iff.mp hof
  exact h row hrow hk.1 hk.2

theorem two_le_rowCount {t : Jobs} {j j' : Job} (hj : j ∈ t.rows) (hj' : j' ∈ t.rows)
    (hne : j ≠ j') (hk : j.recordingId = some r ∧ j.kind = k)
    (hk' : j'.recordingId = some r ∧ j'.kind = k) : 2 ≤ rowCount t r k := by
  have hin : j ∈ t.rows.filter fun j => j.isOf r k :=
    List.mem_filter.mpr ⟨hj, Job.isOf_iff.mpr hk⟩
  have hin' : j' ∈ t.rows.filter fun j => j.isOf r k :=
    List.mem_filter.mpr ⟨hj', Job.isOf_iff.mpr hk'⟩
  rw [rowCount, List.countP_eq_length_filter]
  match hlist : t.rows.filter fun j => j.isOf r k with
  | [] => simp [hlist] at hin
  | [j₀] =>
    rw [hlist, List.mem_singleton] at hin hin'
    exact absurd (hin.trans hin'.symm) hne
  | _ :: _ :: l =>
    rw [hlist]
    simp

theorem rowCount_update {t t' : Jobs} {p : Job → Bool} {f : Job → Job} (hf : Keeps f)
    (hrows : t'.rows = updateWhere p f t.rows) : rowCount t' r k = rowCount t r k := by
  rw [rowCount, rowCount, hrows, updateWhere, List.countP_map]
  congr 1
  funext j
  simp only [Function.comp, Job.isOf, column_updateRow hf.recordingId, column_updateRow hf.kind]

theorem rowCount_delete {t : Jobs} {p : Job → Bool}
    (h : ∀ j, p j = true → j.recordingId ≠ some r) : rowCount (t.delete p) r k = rowCount t r k := by
  simp only [rowCount, Jobs.delete, deleteWhere, List.countP_filter]
  apply List.countP_congr
  intro j _
  by_cases hof : j.isOf r k = true
  · have hp : p j = false := by
      by_contra hp
      exact h j (by simpa using hp) (Job.isOf_iff.mp hof).1
    simp [hof, hp]
  · simp [hof]

theorem rowCount_insert {t : Jobs} {now : Time} {r' : Uuid} {k' : JobKind} {payload : Payload} :
    rowCount (t.insert now r' k' payload 0).2 r k = rowCount t r k +
      if r' = r ∧ k' = k ∧ t.has r k Job.isLive = false then 1 else 0 := by
  by_cases hlive : t.has r' k' Job.isLive = true
  · have hno : ¬ (r' = r ∧ k' = k ∧ t.has r k Job.isLive = false) := by
      rintro ⟨rfl, rfl, hl⟩
      simp [hl] at hlive
    rw [if_neg hno]
    simp only [Jobs.insert, hlive, dif_pos]
    rfl
  · simp only [Jobs.insert, hlive, Bool.false_eq_true, dif_neg, not_false_eq_true, rowCount,
      List.countP_append, List.countP_singleton]
    congr 1
    have hof : (newJob now t.nextId r' k' payload 0).isOf r k = true ↔ r' = r ∧ k' = k := by
      rw [Job.isOf_iff]
      simp [newJob]
    by_cases hk : r' = r ∧ k' = k
    · obtain ⟨rfl, rfl⟩ := hk
      simp [hof, hlive]
    · have hk' : ¬ (r' = r ∧ k' = k ∧ t.has r k Job.isLive = false) := fun h => hk ⟨h.1, h.2.1⟩
      simp [hof, hk, hk']

theorem exec_rowCount (hc : ¬ c.resets r) (hproc : s.procs i = .todo (c :: rest)) :
    rowCount (c.exec cfg x s.db).1.jobs r k =
      rowCount s.db.jobs r k + insertions r k s (.step i x) := by
  cases c with
  | insertJob r' k' payload strict =>
    simp only [insertions, hproc]
    by_cases hr : r' = r
    · subst hr
      cases hsome : (s.db.status r').isSome with
      | false =>
        have hnone : s.db.status r' = none := by simpa using hsome
        simp [Cmd.exec, hnone]
      | true =>
        rcases exec_insertJob cfg x k' payload strict hsome with ⟨cs, hexec⟩
        rw [hexec, rowCount_insert]
        simp
    · have hins : rowCount (s.db.jobs.insert s.db.now r' k' payload 0).2 r k =
          rowCount s.db.jobs r k := by
        rw [rowCount_insert]
        simp [hr]
      rw [if_neg (fun h => hr h.1)]
      simp only [Cmd.exec]
      split
      · rfl
      · rcases hi : s.db.jobs.insert s.db.now r' k' payload 0 with ⟨_ | j, t⟩
        · rwa [hi] at hins
        · rwa [hi] at hins
  | completeJob job =>
    simp only [insertions, hproc]
    exact rowCount_update keeps_completed rfl
  | reapStuck =>
    simp only [insertions, hproc]
    exact rowCount_update (t := s.db.jobs) keeps_reaped rfl
  | failUpdate job error n =>
    simp only [insertions, hproc, Cmd.exec]
    split
    · rfl
    · rename_i hwrite
      exact rowCount_update keeps_failed (failWrite_eq_some hwrite).2.2
    · rename_i hwrite
      exact rowCount_update keeps_failed (failWrite_eq_some hwrite).2.2
  | deferJob job delay =>
    simp only [insertions, hproc, Cmd.exec]
    split
    · rfl
    · rename_i hdefer
      exact rowCount_update keeps_deferred (tryUpdate_rows hdefer).1
  | resetForReprocess r' =>
    simp only [insertions, hproc, Cmd.exec]
    split
    · exact rowCount_delete fun j hj hr => hc (Option.some.inj ((eq_of_beq hj).symm.trans hr))
    · rfl
  | resetForRediarize r' =>
    simp only [insertions, hproc, Cmd.exec]
    split
    · rfl
    · split
      · apply rowCount_delete
        intro j hj hr
        exact hc (Option.some.inj ((eq_of_beq (Bool.and_eq_true_iff.mp hj).1).symm.trans hr))
      · rfl
  | _ =>
    simp only [insertions, hproc, Cmd.exec, fetched]
    repeat' split
    all_goals rfl

theorem moved_rowCount (hno : NoEdits r s) (h : Moved cfg s a s') :
    rowCount s'.db.jobs r k = rowCount s.db.jobs r k + insertions r k s a := by
  cases h with
  | @cmd i c rest x hproc =>
    apply exec_rowCount _ hproc
    have hedit := hno i _ hproc c List.mem_cons_self
    cases c <;> first | exact id | exact hedit
  | claim hidle hclaim =>
    unfold claimOne at hclaim
    split at hclaim
    · cases hclaim
    · split at hclaim
      · cases hclaim
        exact rowCount_update keeps_claimed rfl
      · cases hclaim
  | @heartbeat i job body w => exact rowCount_update (t := s.db.jobs) keeps_renewed rfl
  | stmt _ hproc | stmtErr _ hproc | bodyDone _ hproc =>
    simp only [insertions, hproc]
    rfl
  | _ => rfl

/-! ## Who enqueues -/

/-- Where a command on its way to enqueue a pipeline stage comes from. -/
theorem follows_enters (h : Follows cfg db c c') (hc' : c'.enters r k)
    (hk : k.isPipeline = true) (hc : ¬ c.edits r) :
    c.enters r k ∨ (∃ d m, c = .completeRead r d m ∧ db.status r = some .uploading ∧
      k = .transcode) ∨
      ∃ job, c = .completeJob job ∧ job.recordingId = some r ∧ k ∈ job.kind.successors := by
  cases h with
  | live | requeue =>
    obtain ⟨-, rfl⟩ := hc'
    cases hk
  | accept hst =>
    obtain ⟨rfl, rfl⟩ := hc'
    exact .inr (.inl ⟨_, _, rfl, hst, rfl⟩)
  | process =>
    obtain ⟨rfl, rfl⟩ := hc'
    exact .inl ⟨rfl, rfl⟩
  | restart | redo | summarize | reembed | resummarize => exact absurd hc'.1 hc
  | @succ job r' y hr hy =>
    obtain ⟨rfl, rfl⟩ := hc'
    exact .inr (.inr ⟨job, rfl, hr, hy⟩)
  | gate => exact .inl hc'
  | _ => exact hc'.elim

/-- An insert follows a gate that was found open, or the status write of a complete call. -/
theorem follows_insert {payload : Payload} {strict : Bool}
    (h : Follows cfg db c (.insertJob r k payload strict)) (hk : k.isPipeline = true)
    (hc : ¬ c.edits r) :
    (c = .succ r k ∧ db.jobs.predecessorsDone r k = true) ∨
      (c = .markProcessing r ∧ k = .transcode ∧ (db.status r).isSome = true) := by
  cases h with
  | live | requeue => cases hk
  | process hsome => exact .inr ⟨rfl, rfl, hsome⟩
  | restart | redo | summarize | reembed | resummarize => exact absurd rfl hc
  | gate hdone => exact .inl ⟨rfl, hdone⟩

/-- A failure report on a job of `r`. -/
def Cmd.fails (r : Uuid) : Cmd → Prop
  | .failSelect job _ | .failUpdate job _ _ => job.recordingId = some r
  | _ => False

/-- What holds of the pipeline of `r` while every job of it completes punctually. -/
structure Single (r : Uuid) (s : Sys) : Prop where
  noEdits : NoEdits r s
  noFailure : ∀ i cs, s.procs i = .todo cs → ∀ c ∈ cs, ¬ c.fails r
  noSucc : ∀ i cs, s.procs i = .todo cs → ∀ c ∈ cs, c ≠ .succ r .transcode
  present : Present r s
  good : ∀ row ∈ s.db.jobs.rows, row.recordingId = some r → row.state ≠ .failed
  gated : ∀ row ∈ s.db.jobs.rows, row.recordingId = some r → ∀ p ∈ row.kind.predecessors,
    Done s r p
  gate : ∀ i cs, s.procs i = .todo cs → ∀ c ∈ cs, ∀ k payload strict,
    c = .insertJob r k payload strict → ∀ p ∈ k.predecessors, Done s r p
  entered : ∀ row ∈ s.db.jobs.rows, row.recordingId = some r → row.kind = .transcode → Closed s r
  entering : ∀ i cs, s.procs i = .todo cs → ∀ c ∈ cs, ∀ payload strict,
    c = .insertJob r .transcode payload strict → Closed s r
  once : ∀ k, k.isPipeline = true → rowCount s.db.jobs r k ≤ 1
  settled : ∀ k, k.isPipeline = true → Done s r k → ∀ i cs, s.procs i = .todo cs → ∀ c ∈ cs,
    ¬ c.enters r k

/-- Whoever reports on a job of `r` finds none of its kind done. -/
theorem Single.not_done (hs : Snapshot s) (hl : Leased s) (h : Single r s) (hhold : Holds s i job)
    (hr : job.recordingId = some r) (hk : job.kind.isPipeline = true) : ¬ Done s r job.kind := by
  intro hdone
  rcases h.present i job hhold hr with ⟨row, hrow⟩
  rcases has_iff.mp hdone with ⟨d, hd, hdk, hdst⟩
  have hcols := hs.columns i job row hhold hrow
  have hrunning := (hl.held i job row hhold hrow).1
  have hne : row ≠ d := by
    rintro rfl
    simp [hrunning] at hdst
  have htwo := two_le_rowCount (row_eq_some.mp hrow).1 hd hne ⟨hcols.2.trans hr, hcols.1⟩ hdk
  have hone := h.once job.kind hk
  omega

theorem noReset (hno : NoEdits r s) (hproc : s.procs i = .todo (c :: rest)) : ¬ c.resets r := by
  have hedit := hno i _ hproc c List.mem_cons_self
  cases c <;> first | exact id | exact hedit

theorem done_moved (hl : Leased s) (hno : NoEdits r s) (h : Moved cfg s a s')
    (hdone : Done s r k) : Done s' r k :=
  done_kept hl h (fun _ _ _ _ _ hproc => noReset hno hproc) hdone

theorem Punctual.reapsDead (h : Punctual cfg r s a) : ReapsDead cfg s a := by
  cases a with
  | step i x =>
    intro rest hproc row hrow hstuck
    exact (h.2.1 rest hproc row hrow hstuck).2
  | _ => trivial

theorem Punctual.spares (h : Punctual cfg r s a) (i : ℕ) (q : Request) (ha : a = .request i q) :
    q.spares r := by
  subst ha
  exact h

theorem noFailure_moved (hsingle : Single r s) (hok : Punctual cfg r s a)
    (h : Moved cfg s a s') : ∀ i cs, s'.procs i = .todo cs → ∀ c ∈ cs, ¬ c.fails r := by
  apply moved_todo (P := fun c => ¬ c.fails r) h hsingle.noFailure
  · intro i x c rest c' _ hproc hfollow hc'
    have hc := hsingle.noFailure i _ hproc c List.mem_cons_self
    cases hfollow with
    | fail => exact hc hc'
    | _ => exact hc'
  · intro i q _ hq
    cases q <;> exact hq
  · exact id
  · exact fun _ _ _ => id
  · intro i job body error hproc hwhy hr
    rcases hwhy with rfl | ⟨x, st, body', rfl, rfl, hexec⟩
    · exact hok job body hproc hr
    · have hsome := hok.1 job st body' hproc hr
      simp [hexec] at hsome
  · exact fun _ _ _ _ _ => id

theorem noSucc_moved (hsingle : Single r s) (h : Moved cfg s a s') :
    ∀ i cs, s'.procs i = .todo cs → ∀ c ∈ cs, c ≠ .succ r .transcode := by
  apply moved_todo (P := fun c => c ≠ .succ r .transcode) h hsingle.noSucc
  · rintro i x c rest c' _ hproc hfollow rfl
    cases hfollow with
    | @succ job _ _ hr hy => cases hk : job.kind <;> simp [hk, JobKind.successors] at hy
  · intro i q _
    cases q <;> simp [Request.first]
  · simp
  · simp
  · simp
  · simp

theorem good_moved (hs : Snapshot s) (hsingle : Single r s) (hok : Punctual cfg r s a)
    (h : Moved cfg s a s') {row : Job} (hrow : row ∈ s'.db.jobs.rows)
    (hr : row.recordingId = some r) : row.state ≠ .failed := by
  intro hst
  rcases moved_failed_row hs h hrow hst with ⟨old, hold, hcont, hst'⟩ |
    ⟨i, x, job, error, n, rest, -, hproc, hjr, -⟩ | ⟨i, x, rest, rfl, hproc, old, hold, hcont, hstuck, -⟩
  · exact hsingle.good old hold (hcont.recordingId.symm.trans hr) hst'
  · exact hsingle.noFailure i _ hproc _ List.mem_cons_self (hjr.trans hr)
  · exact (hok.2.1 rest hproc old hold hstuck).1 (hcont.recordingId.symm.trans hr)

theorem gated_moved (hl : Leased s) (hsingle : Single r s) (h : Moved cfg s a s') {row : Job}
    (hrow : row ∈ s'.db.jobs.rows) (hr : row.recordingId = some r) {p : JobKind}
    (hp : p ∈ row.kind.predecessors) : Done s' r p := by
  apply done_moved hl hsingle.noEdits h
  rcases moved_rows h hrow with ⟨old, hold, hcont⟩ | ⟨i, x, r', k, payload, strict, rest, -, hproc, hnew⟩
  · exact hsingle.gated old hold (hcont.recordingId.symm.trans hr) p (hcont.kind ▸ hp)
  · rw [hnew] at hr hp
    cases hr
    exact hsingle.gate i _ hproc _ List.mem_cons_self k payload strict rfl p hp

theorem gate_moved (hl : Leased s) (hsingle : Single r s) (h : Moved cfg s a s') :
    ∀ i cs, s'.procs i = .todo cs → ∀ c ∈ cs, ∀ k payload strict,
      c = .insertJob r k payload strict → ∀ p ∈ k.predecessors, Done s' r p := by
  apply moved_todo (P := fun c => ∀ k payload strict, c = .insertJob r k payload strict →
    ∀ p ∈ k.predecessors, Done s' r p) h
  · intro i cs hproc c hc k payload strict heq p hp
    exact done_moved hl hsingle.noEdits h (hsingle.gate i cs hproc c hc k payload strict heq p hp)
  · rintro i x c rest c' ha hproc hfollow k payload strict rfl p hp
    have hk := (JobKind.isPipeline_of_mem_predecessors hp).2
    have hedit := hsingle.noEdits i _ hproc c List.mem_cons_self
    rcases follows_insert hfollow hk hedit with ⟨-, hdone⟩ | ⟨-, rfl, -⟩
    · rw [predecessorsDone, List.all_eq_true] at hdone
      exact done_moved hl hsingle.noEdits h (hdone p hp)
    · cases hp
  · intro i q _ k payload strict heq
    cases q <;> cases heq
  · intro _ _ _ heq
    cases heq
  · intro _ _ _ _ _ _ heq
    cases heq
  · intro _ _ _ _ _ _ _ _ _ heq
    cases heq
  · intro _ _ _ _ _ _ _ _ heq
    cases heq

theorem entering_moved (hsingle : Single r s) (h : Moved cfg s a s') :
    ∀ i cs, s'.procs i = .todo cs → ∀ c ∈ cs, ∀ payload strict,
      c = .insertJob r .transcode payload strict → Closed s' r := by
  apply moved_todo (P := fun c => ∀ payload strict, c = .insertJob r .transcode payload strict →
    Closed s' r) h
  · intro i cs hproc c hc payload strict heq
    exact closed_moved h (hsingle.entering i cs hproc c hc payload strict heq)
  · rintro i x c rest c' rfl hproc hfollow payload strict rfl
    have hedit := hsingle.noEdits i _ hproc c List.mem_cons_self
    rcases follows_insert hfollow rfl hedit with ⟨rfl, -⟩ | ⟨rfl, -, hsome⟩
    · exact absurd rfl (hsingle.noSucc i _ hproc _ List.mem_cons_self)
    · obtain rfl := next_of_todo h hproc
      simp [Closed, Cmd.exec, hsome, Db.setStatus]
  · intro i q _ payload strict heq
    cases q <;> cases heq
  · intro _ _ heq
    cases heq
  · intro _ _ _ _ _ heq
    cases heq
  · intro _ _ _ _ _ _ _ _ heq
    cases heq
  · intro _ _ _ _ _ _ _ heq
    cases heq

theorem entered_moved (hsingle : Single r s) (h : Moved cfg s a s') {row : Job}
    (hrow : row ∈ s'.db.jobs.rows) (hr : row.recordingId = some r)
    (hk : row.kind = .transcode) : Closed s' r := by
  apply closed_moved h
  rcases moved_rows h hrow with ⟨old, hold, hcont⟩ | ⟨i, x, r', k, payload, strict, rest, -, hproc, hnew⟩
  · exact hsingle.entered old hold (hcont.recordingId.symm.trans hr) (hcont.kind.symm.trans hk)
  · rw [hnew] at hr hk
    cases hr
    cases hk
    exact hsingle.entering i _ hproc _ List.mem_cons_self payload strict rfl

/-- A pipeline stage is inserted only while no row of its kind exists. -/
theorem once_moved (hsingle : Single r s) (h : Moved cfg s a s') (hk : k.isPipeline = true) :
    rowCount s'.db.jobs r k ≤ 1 := by
  rw [moved_rowCount hsingle.noEdits h]
  by_cases hins : insertions r k s a = 0
  · rw [hins]
    exact hsingle.once k hk
  · have hzero : rowCount s.db.jobs r k = 0 ∧ insertions r k s a ≤ 1 := by
      unfold insertions at hins ⊢
      split at hins
      · rename_i i x
        split at hins
        · rename_i r' k' payload strict rest hproc
          split at hins
          · rename_i hcond
            rw [if_pos hcond]
            obtain ⟨rfl, rfl, -, hlive⟩ := hcond
            refine ⟨rowCount_eq_zero fun row hrow hr hrk => ?_, le_rfl⟩
            have hlive' : ¬ row.isLive = true := by
              intro hl
              have hhas : s.db.jobs.has r' k' Job.isLive = true :=
                has_iff.mpr ⟨row, hrow, ⟨hr, hrk⟩, hl⟩
              simp [hlive] at hhas
            cases hst : row.state with
            | queued => exact hlive' (Job.isLive_of_queued hst)
            | running => exact hlive' (Job.isLive_of_running hst)
            | done =>
              have hdone : Done s r' k' := has_iff.mpr ⟨row, hrow, ⟨hr, hrk⟩, by simp [hst]⟩
              exact hsingle.settled k' hk hdone i _ hproc _ List.mem_cons_self ⟨rfl, rfl⟩
            | failed => exact hsingle.good row hrow hr hst
          · exact absurd rfl hins
        · exact absurd rfl hins
      · exact absurd rfl hins
    omega

/-- Nobody is on the way to enqueue a stage that is done. -/
theorem settled_moved (hs : Snapshot s) (hl : Leased s) (hsingle : Single r s)
    (hok : Punctual cfg r s a) (h : Moved cfg s a s') (hk : k.isPipeline = true)
    (hdone : Done s' r k) : ∀ i cs, s'.procs i = .todo cs → ∀ c ∈ cs, ¬ c.enters r k := by
  have hbefore := moved_done hs h hdone
  apply moved_todo (P := fun c => ¬ c.enters r k) h
  · intro i cs hproc c hc hin
    rcases hbefore with hold | ⟨j, x, job, rest, rfl, hproc', hr, rfl⟩
    · exact hsingle.settled k hk hold i cs hproc c hc hin
    · exact hok.2.2 job rest hproc' hr c hin ⟨i, by rw [hproc]; exact hc⟩
  · rintro i x c rest c' rfl hproc hfollow hin
    have hedit := hsingle.noEdits i _ hproc c List.mem_cons_self
    rcases hbefore with hold | ⟨j, x', job, rest', ha, hproc', hr, rfl⟩
    · rcases follows_enters hfollow hin hk hedit with hc | ⟨d, m, rfl, hup, rfl⟩ |
        ⟨job, rfl, hr, hsucc⟩
      · exact hsingle.settled k hk hold i _ hproc c List.mem_cons_self hc
      · rcases has_iff.mp hold with ⟨row, hrow, hrk, -⟩
        exact (hsingle.entered row hrow hrk.1 hrk.2).2 hup
      · have hpred := JobKind.mem_successors.mp hsucc
        have hhold : Holds s i job := by
          rw [Holds, hproc]
          rfl
        apply hsingle.not_done hs hl hhold hr (JobKind.isPipeline_of_mem_predecessors hpred).1
        rcases has_iff.mp hold with ⟨row, hrow, hrk, -⟩
        exact hsingle.gated row hrow hrk.1 _ (hrk.2 ▸ hpred)
    · cases (Label.step.inj ha).1
      cases hproc.symm.trans hproc'
      rcases follows_enters hfollow hin hk hedit with hc | ⟨d, m, heq, -⟩ | ⟨job', heq, -, hsucc⟩
      · exact hc
      · cases heq
      · cases heq
        have hlt := JobKind.depth_lt_of_mem_predecessors (JobKind.mem_successors.mp hsucc)
        exact absurd hlt (Nat.lt_irrefl _)
  · intro i q _ hin
    cases q <;> exact hin
  · exact id
  · exact fun _ _ _ => id
  · exact fun _ _ _ _ _ _ => id
  · exact fun _ _ _ _ _ => id

theorem single_moved (hs : Snapshot s) (hl : Leased s) (hsingle : Single r s)
    (hok : Punctual cfg r s a) (h : Moved cfg s a s') : Single r s' where
  noEdits := noEdits_moved hsingle.noEdits hok.spares h
  noFailure := noFailure_moved hsingle hok h
  noSucc := noSucc_moved hsingle h
  present := present_moved hs hsingle.present h fun _ _ _ _ _ hproc => noReset hsingle.noEdits hproc
  good _ := good_moved hs hsingle hok h
  gated _ hrow hr _ := gated_moved hl hsingle h hrow hr
  gate := gate_moved hl hsingle h
  entered _ := entered_moved hsingle h
  entering := entering_moved hsingle h
  once _ := once_moved hsingle h
  settled _ := settled_moved hs hl hsingle hok h

theorem single_start : Single r Sys.start where
  noEdits _ _ h := nomatch h
  noFailure _ _ h := nomatch h
  noSucc _ _ h := nomatch h
  present _ _ h := nomatch h
  good _ h := nomatch h
  gated _ h := nomatch h
  gate _ _ h := nomatch h
  entered _ h := nomatch h
  entering _ _ h := nomatch h
  once _ _ := Nat.zero_le 1
  settled _ _ h := nomatch h

/-! ## Accepted completes -/

/-- The pipeline of `r` has begun: a stage exists, or somebody is about to enqueue one. -/
def Begun (r : Uuid) (s : Sys) : Prop :=
  (∃ row ∈ s.db.jobs.rows, row.recordingId = some r ∧ row.kind.isPipeline = true) ∨
    ∃ i cs, s.procs i = .todo cs ∧ ∃ c ∈ cs, ∃ k, k.isPipeline = true ∧ c.enters r k

/-- A pipeline begins with an accepted complete call. -/
theorem begun_moved (hs : Snapshot s) (hsingle : Single r s) (h : Moved cfg s a s')
    (hbegun : Begun r s') : Begun r s ∨ accepts r s a = 1 := by
  have hpending {i : ℕ} {cs : List Cmd} {c : Cmd} {k : JobKind} (hproc : s.procs i = .todo cs) (hc : c ∈ cs)
      (hk : k.isPipeline = true) (hin : c.enters r k) : Begun r s :=
    .inr ⟨i, cs, hproc, c, hc, k, hk, hin⟩
  rcases hbegun with ⟨row, hrow, hr, hk⟩ | ⟨i, cs, hproc, c, hc, k, hk, hin⟩
  · left
    rcases moved_rows h hrow with ⟨old, hold, hcont⟩ |
      ⟨i, x, r', k, payload, strict, rest, -, hproc, hnew⟩
    · exact .inl ⟨old, hold, hcont.recordingId.symm.trans hr, hcont.kind ▸ hk⟩
    · rw [hnew] at hr hk
      cases hr
      exact hpending hproc List.mem_cons_self hk ⟨rfl, rfl⟩
  · have hall : ∀ i cs, s'.procs i = .todo cs → ∀ c ∈ cs, c.enters r k →
        Begun r s ∨ accepts r s a = 1 := by
      apply moved_todo (P := fun c => c.enters r k → Begun r s ∨ accepts r s a = 1) h
      · exact fun i cs hproc c hc hin => .inl (hpending hproc hc hk hin)
      · rintro i x c rest c' rfl hproc hfollow hin
        have hedit := hsingle.noEdits i _ hproc c List.mem_cons_self
        rcases follows_enters hfollow hin hk hedit with hc | ⟨d, m, rfl, hup, -⟩ |
          ⟨job, rfl, hr, hsucc⟩
        · exact .inl (hpending hproc List.mem_cons_self hk hc)
        · exact .inr (by simp [accepts, hproc, hup])
        · have hhold : Holds s i job := by
            rw [Holds, hproc]
            rfl
          rcases hsingle.present i job hhold hr with ⟨row, hrow⟩
          have hcols := hs.columns i job row hhold hrow
          have hpred := JobKind.isPipeline_of_mem_predecessors (JobKind.mem_successors.mp hsucc)
          exact .inl (.inl ⟨row, (row_eq_some.mp hrow).1, hcols.2.trans hr, hcols.1 ▸ hpred.1⟩)
      · intro i q _ hin
        cases q <;> exact hin.elim
      · exact fun hin => hin.elim
      · exact fun _ _ _ hin => hin.elim
      · exact fun _ _ _ _ _ _ hin => hin.elim
      · exact fun _ _ _ _ _ hin => hin.elim
    exact hall i cs hproc c hc hin

structure Counted (cfg : Config) (r : Uuid) (tr : List Label) (s : Sys) : Prop where
  snapshot : Snapshot s
  leased : Leased s
  single : Single r s
  inserted : ∀ k, tally (step cfg) (insertions r k) Sys.start tr = rowCount s.db.jobs r k
  accepted : Begun r s → 1 ≤ tally (step cfg) (accepts r) Sys.start tr

theorem counted_run (h : Run (step cfg) (Punctual cfg r) Sys.start tr s) :
    Counted cfg r tr s := by
  apply h.history
  · refine ⟨snapshot_start, leased_start, single_start, fun _ => rfl, ?_⟩
    rintro (⟨_, hrow, -⟩ | ⟨_, _, hproc, -⟩)
    · cases hrow
    · cases hproc
  · intro tr s a s' hrun hc hok hstep
    have hmoved := step_moved hstep
    refine ⟨snapshot_moved hc.snapshot hmoved,
      leased_moved hc.snapshot hc.leased hok.reapsDead hmoved,
      single_moved hc.snapshot hc.leased hc.single hok hmoved, fun k => ?_, fun hbegun => ?_⟩
    · rw [hrun.tally_snoc hstep, hc.inserted, moved_rowCount hc.single.noEdits hmoved]
    · rw [hrun.tally_snoc hstep]
      rcases begun_moved hc.snapshot hc.single hmoved hbegun with hold | hone
      · exact Nat.le_add_right_of_le (hc.accepted hold)
      · omega

/-- In every run without failures and edits, whose reaps spare the jobs of `r` and those still worked
on, and in which a job completes only when nobody is still on the way to enqueue its kind, a job row
of each pipeline kind is inserted at most once per accepted complete call. -/
theorem insertions_le_accepts (h : Run (step cfg) (Punctual cfg r) Sys.start tr s)
    (hk : k ∈ JobKind.pipelineStages) :
    tally (step cfg) (insertions r k) Sys.start tr ≤ tally (step cfg) (accepts r) Sys.start tr := by
  have hc := counted_run h
  rw [JobKind.mem_pipelineStages] at hk
  have hone := hc.single.once k hk
  rw [hc.inserted]
  by_cases hzero : rowCount s.db.jobs r k = 0
  · omega
  · rw [rowCount, List.countP_eq_zero] at hzero
    push Not at hzero
    rcases hzero with ⟨row, hrow, hof⟩
    have hcols := Job.isOf_iff.mp hof
    have haccepted := hc.accepted (.inl ⟨row, hrow, hcols.1, hcols.2 ▸ hk⟩)
    omega

/-- Both workers of the join find it satisfied; the second enqueues merge after the
first one's merge is done. -/
def duplicateRun : List Label :=
  [Label.request 0 (.create 7)] ++ steps 0 1 ++ [Label.request 1 (.complete 7 none none)] ++ steps 1 4 ++
  [Label.claim 2 1 [.transcode] 1] ++ steps 2 8 ++
  [Label.claim 3 1 [.diarize] 2, .claim 4 2 [.transcribe] 3] ++ steps 3 6 ++ steps 4 4 ++ steps 3 2 ++
  [Label.claim 5 1 [.merge] 4] ++ steps 5 6 ++ steps 4 1

theorem not_insertions_le_accepts :
    ¬ ∀ (tr : List Label) (s : Sys) (r : Uuid) (k : JobKind),
      Run (step {}) (Undisturbed {} r) Sys.start tr s → k ∈ JobKind.pipelineStages →
      tally (step {}) (insertions r k) Sys.start tr ≤ tally (step {}) (accepts r) Sys.start tr := by
  intro h
  have hexec : (exec (guarded (step {}) calm) Sys.start duplicateRun).isSome = true := by
    decide +kernel
  have hle := h duplicateRun _ 7 .merge (run_of_guarded hexec fun _ _ => undisturbed_of_calm)
    (by decide)
  revert hle
  decide +kernel

/-- The test of a timely completion, looking at the first `n` processes. -/
def timely (n : ℕ) (r : Uuid) (s : Sys) : Label → Bool
  | .step i _ =>
    match s.procs i with
    | .todo (.completeJob job :: _) =>
      (List.range n).all fun j => ((s.procs j).pending false).all fun c => !c.enters r job.kind
    | _ => true
  | _ => true

theorem punctual_of_timely {n : ℕ} (hs : s.Within n)
    (h : (calm s a && timely n r s a) = true) : Punctual {} r s a := by
  rw [Bool.and_eq_true] at h
  have hcalm := undisturbed_of_calm (r := r) h.1
  cases a with
  | step i x =>
    refine ⟨hcalm.1, fun rest hproc row hrow hstuck => ?_, ?_⟩
    · rw [hcalm.2.1 rest hproc row hrow] at hstuck
      cases hstuck
    · rintro job rest hproc - c hc ⟨j, hj⟩
      have htimely := h.2
      simp only [timely, hproc, List.all_eq_true, List.mem_range] at htimely
      by_cases hjn : j < n
      · simpa [hc] using htimely j hjn c hj
      · rw [hs j (by omega)] at hj
        cases hj
  | request | stageErr => exact hcalm
  | _ => trivial

theorem insertions_le_accepts_pipelineRun :
    tally (step {}) (insertions 7 .merge) Sys.start pipelineRun = 1 ∧
      tally (step {}) (insertions 7 .merge) Sys.start pipelineRun ≤
        tally (step {}) (accepts 7) Sys.start pipelineRun :=
  ⟨by decide +kernel, insertions_le_accepts
    (run_of_amid (n := 8) (b := fun s a => calm s a && timely 8 7 s a) (by decide +kernel)
      fun _ _ => punctual_of_timely) (by decide)⟩

end ScribeLocal.Server
