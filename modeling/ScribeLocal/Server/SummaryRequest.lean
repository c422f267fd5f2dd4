import ScribeLocal.Server.Stages
import ScribeLocal.Server.Moves

/-!
# What a summary request is promised

A summary request inserts a job that carries its template. Where a summarize job of the
recording is live already the insert does nothing, and the request is answered as if it had
inserted its own.
-/
namespace ScribeLocal.Server
open Table Jobs Transition

variable {cfg : Config} {r : Uuid} {s s' : Sys} {a : Label} {x : Heard} {db : Db} {c : Cmd} {i k : ℕ}
  {rest : List Cmd} {id : JobId} {job row row' : Job}

/-- What has come of a summary request. -/
structure SummaryCall where
  recording : Uuid
  template : String
  /-- The job its insert returned. -/
  inserted : Option Job := none
  /-- The live job that made its insert do nothing. -/
  met : Option Job := none
  /-- The live job that it found after that. -/
  found : Option Job := none
  /-- The summaries written since its insert. -/
  written : List (Uuid × String) := []

/-- The summary requests, by process. -/
abbrev SummaryLog := ℕ → Option SummaryCall

/-- A process takes its next step; `own` if it is the process of the request. -/
def SummaryCall.note (s : Sys) (own : Bool) (q : SummaryCall) : Proc → SummaryCall
  | .todo (.insertJob r k payload _ :: _) =>
    if own && (s.db.status r).isSome then
      match (s.db.jobs.insert s.db.now r k payload 0).1 with
      | some job => { q with inserted := some job, written := [] }
      | none => { q with met := s.db.jobs.liveJob r k }
    else q
  | .todo (.selectJob r k _ :: _) => if own then { q with found := s.db.jobs.liveJob r k } else q
  | .stage _ (.upsertSummary r template :: _) => { q with written := q.written ++ [(r, template)] }
  | _ => q

def SummaryLog.note (s : Sys) (a : Label) (l : SummaryLog) : SummaryLog :=
  match a with
  | .request i (.summarize r template) =>
    Function.update l i (some { recording := r, template := template })
  | .step j _ => fun i => (l i).map fun q => q.note s (i == j) (s.procs j)
  | _ => l

variable {l : SummaryLog} {q : SummaryCall}

/-- The job is a live summarize job of the recording. -/
def SummaryCall.Meets (q : SummaryCall) (job : Job) : Prop :=
  job.recordingId = some q.recording ∧ job.kind = .summarize ∧ job.isLive = true

/-- The job is one that nobody has claimed, and carries the template of the request. -/
def SummaryCall.Carries (q : SummaryCall) (job : Job) : Prop :=
  job.recordingId = some q.recording ∧ job.kind = .summarize ∧ job.state = .queued ∧
    job.lockedBy = none ∧ job.payload.template = some q.template

/-- The request has put in a job of its own; or one was live at its insert, which did nothing,
and one was live when it looked. -/
def SummaryCall.Answered (q : SummaryCall) : Prop :=
  (∃ job, q.inserted = some job ∧ q.Carries job) ∨
    (q.inserted = none ∧ (∃ job, q.met = some job ∧ q.Meets job) ∧ ∃ job, q.found = some job ∧ q.Meets job)

/-- There is a summarize job of the recording that nobody has claimed, for this template. -/
def Awaits (s : Sys) (r : Uuid) (template : String) : Prop :=
  ∃ row ∈ s.db.jobs.rows, row.recordingId = some r ∧ row.kind = .summarize ∧ row.state = .queued ∧
    row.payload.template = some template

/-! ## Where a request stands -/

inductive SummaryPhase (q : SummaryCall) : Proc → Prop
  | reading (hnone : q.inserted = none) :
      SummaryPhase q (.todo [.summarizeRead q.recording q.template])
  | entering (hnone : q.inserted = none) :
      SummaryPhase q (.todo [enqueue q.recording .summarize { template := some q.template }, .reply 202])
  | looking (hnone : q.inserted = none) (hmet : ∃ job, q.met = some job ∧ q.Meets job) :
      SummaryPhase q (.todo [.selectJob q.recording .summarize true, .reply 202])
  | replying (hans : q.Answered) : SummaryPhase q (.todo [.reply 202])
  | answered (hans : q.Answered) : SummaryPhase q (.ended (some 202) [])
  | refused {reply : Option ℕ} {left : List Cmd} (hreply : reply ≠ some 202) :
      SummaryPhase q (.ended reply left)

theorem liveJob_of_has (h : db.jobs.has r .summarize Job.isLive = true) :
    ∃ job, db.jobs.liveJob r .summarize = some job := by
  rcases has_iff.mp h with ⟨job, hjob, hk, hlive⟩
  rw [← Option.isSome_iff_exists, liveJob, List.find?_isSome]
  exact ⟨job, hjob, by simp [Job.isOf, hk, hlive]⟩

theorem liveJob_eq_some (h : db.jobs.liveJob r .summarize = some job) :
    job.recordingId = some r ∧ job.kind = .summarize ∧ job.isLive = true := by
  have hjob := List.find?_some h
  simpa [Job.isOf, and_assoc] using hjob

/-- Another process only adds to what is written. -/
theorem note_other (p : Proc) : ∃ new, q.note s false p = { q with written := q.written ++ new } := by
  unfold SummaryCall.note
  split
  · exact ⟨[], by simp⟩
  · exact ⟨[], by simp⟩
  · next t _ => exact ⟨[_], rfl⟩
  · exact ⟨[], by simp⟩

theorem phase_written {p : Proc} (h : SummaryPhase q p) (new : List (Uuid × String)) :
    SummaryPhase { q with written := new } p := by
  cases h with
  | reading hnone => exact .reading hnone
  | entering hnone => exact .entering hnone
  | looking hnone hmet => exact .looking hnone hmet
  | replying hans => exact .replying hans
  | answered hans => exact .answered hans
  | refused hreply => exact .refused hreply

/-- A request takes its next step. -/
theorem phase_step (h : SummaryPhase q (.todo (c :: rest))) (hproc : s.procs i = .todo (c :: rest)) :
    SummaryPhase (q.note s true (.todo (c :: rest))) ((s.after cfg x i c rest).procs i) := by
  rw [after_procs_self]
  cases h with
  | reading hnone =>
    simp only [Cmd.exec, fetched]
    split
    · exact .refused (by simp)
    · exact .entering hnone
  | entering hnone =>
    simp only [Cmd.exec, enqueue, SummaryCall.note]
    cases hst : s.db.status q.recording with
    | none => exact .refused (by simp)
    | some st =>
      simp only [Option.isNone_some, Option.isSome_some, Bool.and_true, if_true]
      rcases hins : s.db.jobs.insert s.db.now q.recording .summarize
        { template := some q.template } 0 with ⟨_ | job, t⟩
      · have hlive : s.db.jobs.has q.recording .summarize Job.isLive = true := by
          unfold Jobs.insert at hins
          split at hins
          · assumption
          · cases hins
        rcases liveJob_of_has hlive with ⟨job, hjob⟩
        exact .looking hnone ⟨job, hjob, liveJob_eq_some hjob⟩
      · refine .replying (.inl ⟨job, rfl, ?_⟩)
        rw [(row_insert hins 0).1]
        exact ⟨rfl, rfl, rfl, rfl, rfl⟩
  | looking hnone hmet =>
    simp only [Cmd.exec, SummaryCall.note]
    cases hlive : s.db.jobs.liveJob q.recording .summarize with
    | none => exact .refused (by simp)
    | some job => exact .replying (.inr ⟨hnone, hmet, job, rfl, liveJob_eq_some hlive⟩)
  | replying hans => exact .answered hans

/-! ## What becomes of a job -/

/-- `row'` is `row` after a step; it is done only if it was, or if it has been completed. -/
structure RowKept (row row' : Job) (completed : Prop) : Prop where
  recordingId : row'.recordingId = row.recordingId
  kind : row'.kind = row.kind
  payload : row'.payload = row.payload
  done : row'.state = .done → row.state = .done ∨ completed

theorem RowKept.refl {completed : Prop} : RowKept row row completed := ⟨rfl, rfl, rfl, .inl⟩

theorem rowKept_of_update {t t' : Jobs} {p : Job → Bool} {f : Job → Job} {completed : Prop}
    (hf : Keeps f) (hrows : t'.rows = updateWhere p f t.rows)
    (hpayload : ∀ j, (f j).payload = j.payload)
    (hdone : ∀ j ∈ t.rows, j.id = id → p j = true → (f j).state = .done →
      j.state = .done ∨ completed)
    (h : t'.row id = some row') : ∃ row, t.row id = some row ∧ RowKept row row' completed := by
  rw [row_of_rows hf hrows] at h
  rcases Option.map_eq_some_iff.mp h with ⟨row, hrow, rfl⟩
  refine ⟨row, hrow, column_updateRow hf.recordingId row, column_updateRow hf.kind row,
    column_updateRow hpayload row, ?_⟩
  have hmem := row_eq_some.mp hrow
  by_cases hp : p row = true
  · rw [updateRow_of_pos hp]
    exact hdone row hmem.1 hmem.2 hp
  · rw [updateRow_of_neg (by simpa using hp)]
    exact .inl

theorem rowKept_of_delete {t : Jobs} {p : Job → Bool} {completed : Prop}
    (h : (t.delete p).row id = some row') :
    ∃ row, t.row id = some row ∧ RowKept row row' completed :=
  ⟨row', (row_delete.mp h).1, .refl⟩

theorem exec_row_of_lt (hid : id < db.jobs.nextId)
    (h : (c.exec cfg x db).1.jobs.row id = some row') :
    ∃ row, db.jobs.row id = some row ∧
      RowKept row row' (∃ job, c = .completeJob job ∧ job.id = id) := by
  cases c with
  | insertJob r k payload strict =>
    cases hst : db.status r with
    | none =>
      simp only [Cmd.exec, hst, Option.isNone_none, if_true] at h
      exact ⟨row', h, .refl⟩
    | some st =>
      have hsome : (db.status r).isSome = true := by simp [hst]
      rcases exec_insertJob cfg x k payload strict hsome with ⟨cs, hexec⟩
      rw [hexec, row_insert_of_lt (Nat.ne_of_lt hid)] at h
      exact ⟨row', h, .refl⟩
  | resetForReprocess r =>
    simp only [Cmd.exec] at h
    split at h
    · exact rowKept_of_delete h
    · exact ⟨row', h, .refl⟩
  | resetForRediarize r =>
    simp only [Cmd.exec] at h
    split at h
    · exact ⟨row', h, .refl⟩
    · split at h
      · exact rowKept_of_delete h
      · exact ⟨row', h, .refl⟩
  | completeJob job =>
    refine rowKept_of_update keeps_completed rfl (fun _ => rfl) ?_ h
    intro j _ hjid hp _
    exact .inr ⟨job, rfl, (eq_of_beq hp).symm.trans hjid⟩
  | reapStuck =>
    refine rowKept_of_update keeps_reaped rfl (fun _ => rfl) ?_ h
    intro j _ _ _ hdone
    simp only [reaped] at hdone
    split at hdone <;> cases hdone
  | failUpdate job error n =>
    have hfailed (j : Job) : (failed db.now error n cfg.maxAttempts cfg.backoff j).payload =
        j.payload ∧ (failed db.now error n cfg.maxAttempts cfg.backoff j).state ≠ .done := by
      unfold failed requeued parked
      split <;> exact ⟨rfl, by rintro ⟨⟩⟩
    have hwritten {y : Bool × Jobs}
        (hwrite : db.jobs.failWrite db.now job.id error n cfg.maxAttempts cfg.backoff = some y)
        (h : y.2.row id = some row') : ∃ row, db.jobs.row id = some row ∧
          RowKept row row' (∃ job', Cmd.failUpdate job error n = .completeJob job' ∧ job'.id = id) := by
      apply rowKept_of_update keeps_failed (failWrite_eq_some hwrite).2.2 _ _ h
      · exact fun j => (hfailed j).1
      · exact fun j _ _ _ hdone => absurd hdone (hfailed j).2
    simp only [Cmd.exec] at h
    split at h
    · exact ⟨row', h, .refl⟩
    · next hwrite => exact hwritten hwrite h
    · next hwrite => exact hwritten hwrite h
  | deferJob job delay =>
    simp only [Cmd.exec] at h
    split at h
    · exact ⟨row', h, .refl⟩
    · next hdefer =>
      refine rowKept_of_update keeps_deferred (tryUpdate_rows hdefer).1 (fun _ => rfl) ?_ h
      intro j _ _ _ hdone
      cases hdone
  | _ =>
    refine ⟨row', ?_, .refl⟩
    simp only [Cmd.exec, fetched] at h
    first
    | exact h
    | split at h <;> exact h

theorem moved_row_of_lt (hmoved : Moved cfg s a s') (hid : id < s.db.jobs.nextId)
    (h : s'.db.jobs.row id = some row') :
    ∃ row, s.db.jobs.row id = some row ∧ RowKept row row' (∃ i job rest,
      s.procs i = .todo (.completeJob job :: rest) ∧ job.id = id) := by
  cases hmoved with
  | @cmd i c rest x hproc =>
    rcases exec_row_of_lt hid h with ⟨row, hrow, hkept⟩
    refine ⟨row, hrow, hkept.recordingId, hkept.kind, hkept.payload, fun hdone => ?_⟩
    rcases hkept.done hdone with hold | ⟨job, rfl, hjob⟩
    · exact .inl hold
    · exact .inr ⟨i, job, rest, hproc, hjob⟩
  | @claim i w kinds id' j t hidle hclaim =>
    rcases claimOne_eq_some hclaim with ⟨j₀, hrow, hqueued, -, hrows⟩
    change t.row id = some row' at h
    rw [hrows] at h
    split at h
    · next heq =>
      cases h
      exact ⟨j₀, heq ▸ hrow, rfl, rfl, rfl, nofun⟩
    · exact ⟨row', h, .refl⟩
  | heartbeat =>
    refine rowKept_of_update keeps_renewed rfl (fun _ => rfl) ?_ h
    intro j _ _ _ hdone
    exact .inl hdone
  | _ => exact ⟨row', h, .refl⟩

/-- The job is on its way: where it is done, or about to be, the summary has been written, and
a process that works on it has written it or still has to. -/
structure OnItsWay (s : Sys) (q : SummaryCall) (job : Job) : Prop where
  id_lt : job.id < s.db.jobs.nextId
  row : ∀ row, s.db.jobs.row job.id = some row → row.recordingId = some q.recording ∧
    row.kind = .summarize ∧ row.payload.template = some q.template ∧
      (row.state = .done → (q.recording, q.template) ∈ q.written)
  stage : ∀ k j body, s.procs k = .stage j body → j.id = job.id →
    .upsertSummary q.recording q.template ∈ body ∨ (q.recording, q.template) ∈ q.written
  complete : ∀ k j rest, s.procs k = .todo (.completeJob j :: rest) → j.id = job.id →
    (q.recording, q.template) ∈ q.written

/-- What has been written stays written, and what a stage writes is written down. -/
structure SummaryCall.Notes (s : Sys) (a : Label) (q q' : SummaryCall) : Prop where
  recording : q'.recording = q.recording
  template : q'.template = q.template
  inserted : q'.inserted = q.inserted
  written : ∀ y ∈ q.written, y ∈ q'.written
  upsert : ∀ k x j r template body, a = .step k x →
    s.procs k = .stage j (.upsertSummary r template :: body) → (r, template) ∈ q'.written

theorem jobBody_summarize (hrecording : job.recordingId = some q.recording)
    (hkind : job.kind = .summarize) (htemplate : job.payload.template = some q.template) :
    .upsertSummary q.recording q.template ∈ jobBody cfg job := by
  simp [jobBody, hrecording, hkind, stageBody, summarizeTemplate, htemplate]

theorem onItsWay_moved (hs : Snapshot s) (h : OnItsWay s q job) {q' : SummaryCall}
    (hnotes : q.Notes s a q') (hmoved : Moved cfg s a s') : OnItsWay s' q' job := by
  have hrecording := hnotes.recording
  have htemplate := hnotes.template
  constructor
  · exact h.id_lt.trans_le (moved_extends hmoved).nextId_le
  · intro row' hrow'
    rw [hrecording, htemplate]
    rcases moved_row_of_lt hmoved h.id_lt hrow' with ⟨row, hrow, hkept⟩
    rcases h.row row hrow with ⟨hr, hk, hpayload, hdone⟩
    refine ⟨hkept.recordingId.trans hr, hkept.kind.trans hk, ?_, fun hdone' => ?_⟩
    · rw [hkept.payload]
      exact hpayload
    · rcases hkept.done hdone' with hold | ⟨k, j, rest, hproc, hj⟩
      · exact hnotes.written _ (hdone hold)
      · exact hnotes.written _ (h.complete k j rest hproc hj)
  · intro k j body hproc hj
    rw [hrecording, htemplate]
    rcases moved_stage hmoved hproc with ⟨hold, -⟩ | ⟨rfl, w, kinds, id, t, -, hclaim⟩ |
      ⟨x, st, rest, c, sts, rfl, hold, -, rfl, -⟩
    · exact (h.stage k j body hold hj).imp id (hnotes.written _)
    · rcases claimOne_eq_some hclaim with ⟨row, hrow, -, hclaimed, -⟩
      change j = claimed s.db.now w row at hclaimed
      have hid : id = job.id := by
        rw [← hj, hclaimed]
        exact (row_eq_some.mp hrow).2.symm
      rcases h.row row (hid ▸ hrow) with ⟨hr, hk, hpayload, -⟩
      left
      apply jobBody_summarize
      · rw [hclaimed]
        exact hr
      · rw [hclaimed]
        exact hk
      · rw [hclaimed]
        exact hpayload
    · rcases h.stage k j _ hold hj with hmem | hwritten
      · rcases List.mem_cons.mp hmem with rfl | hmem
        · exact .inr (hnotes.upsert k x j _ _ rest rfl hold)
        · exact .inl (List.mem_append_right _ hmem)
      · exact .inr (hnotes.written _ hwritten)
  · intro k j rest hproc hj
    rw [hrecording, htemplate]
    rcases moved_complete hs hmoved hproc with hold | ⟨x, -, hold⟩
    · exact hnotes.written _ (h.complete k j rest hold hj)
    · rcases h.stage k j [] hold hj with hmem | hwritten
      · cases hmem
      · exact hnotes.written _ hwritten

/-- A job that has just been inserted is held by nobody. -/
theorem tracked_inserted (hs : Snapshot s) {t : Jobs} {payload : Payload}
    (hpayload : payload.template = some q.template)
    (hins : s.db.jobs.insert s.db.now q.recording .summarize payload 0 = (some job, t))
    (hjobs : s'.db.jobs = t) (hmoved : Moved cfg s (.step i x) s') :
    OnItsWay s' { q with inserted := some job, written := [] } job := by
  have hjob := (row_insert hins 0).1
  have hid : job.id = s.db.jobs.nextId := by
    rw [hjob]
    rfl
  have hfree (k : ℕ) (j : Job) (hheld : (s'.procs k).job? = some j) : j.id ≠ job.id := by
    rcases moved_job hs hmoved hheld with hold | ⟨w, kinds, t, ha, -⟩
    · rw [hid]
      exact Nat.ne_of_lt (hs.id_lt k j hold)
    · cases ha
  constructor
  · have hnext : t.nextId = s.db.jobs.nextId + 1 := by
      rw [← insert_nextId, hins]
    rw [hjobs, hnext, hid]
    exact Nat.lt_succ_self _
  · intro row hrow
    rw [hjobs, (row_insert hins _).2, if_pos hid] at hrow
    cases hrow
    rw [hjob]
    exact ⟨rfl, rfl, hpayload, nofun⟩
  · intro k j body hproc hj
    exact absurd hj (hfree k j (by rw [hproc]; rfl))
  · intro k j rest hproc hj
    exact absurd hj (hfree k j (by rw [hproc]; rfl))

/-! ## Over a run -/

structure Promised (l : SummaryLog) (s : Sys) : Prop where
  snapshot : Snapshot s
  phase : ∀ i q, l i = some q → SummaryPhase q (s.procs i)
  tracked : ∀ i q job, l i = some q → q.inserted = some job → OnItsWay s q job

theorem SummaryPhase.not_idle (h : SummaryPhase q (s.procs i)) : s.procs i ≠ .idle := by
  intro hidle
  rw [hidle] at h
  cases h

theorem phase_ended {p p' : Proc} (h : SummaryPhase q p) (hp' : p' = p ∨ p' = p.stopped) :
    SummaryPhase q p' := by
  rcases hp' with rfl | rfl
  · exact h
  · cases h with
    | reading | entering | looking | replying => exact .refused (by simp)
    | answered hans => exact .answered hans
    | refused hreply => exact .refused hreply

/-- A note on a step of another process, or on one that inserts nothing. -/
theorem note_step {j : ℕ} (hown : ∀ r k payload strict rest, i = j →
    s.procs j ≠ .todo (.insertJob r k payload strict :: rest)) :
    q.Notes s (.step j x) (q.note s (i == j) (s.procs j)) := by
  have hsame {q' : SummaryCall} (hr : q'.recording = q.recording) (ht : q'.template = q.template)
      (hi : q'.inserted = q.inserted) (hw : q'.written = q.written)
      (hno : ∀ job r template body, s.procs j ≠ .stage job (.upsertSummary r template :: body)) :
      q.Notes s (.step j x) q' := by
    refine ⟨hr, ht, hi, fun y hy => hw ▸ hy, ?_⟩
    rintro k x job r template body ⟨rfl, -⟩ hproc
    exact absurd hproc (hno _ _ _ _)
  unfold SummaryCall.note
  split
  · next r k payload strict rest hproc =>
    by_cases hij : i = j
    · exact absurd hproc (hown r k payload strict rest hij)
    · simp only [beq_eq_false_iff_ne.mpr hij, Bool.false_and, Bool.false_eq_true, if_false]
      exact hsame rfl rfl rfl rfl (by simp [hproc])
  · next hproc =>
    split
    · exact hsame rfl rfl rfl rfl (by simp [hproc])
    · exact hsame rfl rfl rfl rfl (by simp [hproc])
  · next job r template body hproc =>
    refine ⟨rfl, rfl, rfl, fun y hy => List.mem_append_left _ hy, ?_⟩
    rintro k x job' r' template' body' ⟨rfl, -⟩ hproc'
    cases hproc.symm.trans hproc'
    simp
  · next hproc => exact hsame rfl rfl rfl rfl fun job r template body => hproc job r template body

/-- A label that is no step writes no summary. -/
theorem notes_of_no_step (h : ∀ k x, a ≠ .step k x) : q.Notes s a q :=
  ⟨rfl, rfl, rfl, fun _ => id, fun k x _ _ _ _ ha => absurd ha (h k x)⟩

/-- What is noted of a request when another process moves. -/
theorem note_of_ne (hi : a.proc ≠ some i) (hq : l i = some q) :
    ∃ new, l.note s a i = some { q with written := new } := by
  cases a with
  | request j b =>
    have hij : i ≠ j := fun heq => hi (congrArg some heq.symm)
    refine ⟨q.written, ?_⟩
    cases b with
    | summarize => exact (Function.update_of_ne hij _ _).trans hq
    | _ => exact hq
  | step j x =>
    have hij : (i == j) = false := beq_eq_false_iff_ne.mpr fun heq => hi (congrArg some heq.symm)
    rcases note_other (s := s) (q := q) (s.procs j) with ⟨new, hnew⟩
    refine ⟨q.written ++ new, ?_⟩
    simp [SummaryLog.note, hq, hij, hnew]
  | _ => exact ⟨q.written, hq⟩

/-- What a process that is a request can do. -/
theorem phase_own (h : SummaryPhase q (s.procs i)) (hmoved : Moved cfg s a s')
    (hi : a.proc = some i) :
    (∃ x c rest, a = .step i x ∧ s.procs i = .todo (c :: rest) ∧ s' = s.after cfg x i c rest) ∨
      (a = .stop i ∧ s'.procs i = (s.procs i).stopped) := by
  cases hmoved with
  | request _ hidle | reaper hidle =>
    cases hi
    exact absurd hidle h.not_idle
  | claim hidle =>
    cases hi
    exact absurd hidle h.not_idle
  | cmd x hproc =>
    cases hi
    exact .inl ⟨x, _, _, rfl, hproc, rfl⟩
  | stop =>
    cases hi
    exact .inr ⟨rfl, Sys.setProc_self⟩
  | stmt _ hproc | stmtErr _ hproc | bodyDone _ hproc | stageErr _ hproc | windowClosed _ hproc
  | heartbeat hproc =>
    cases hi
    rw [hproc] at h
    cases h
  | tick => cases hi

/-- A request stays where a request can stand. -/
theorem summaryPhase_moved (h : SummaryPhase q (s.procs i)) (hmoved : Moved cfg s a s') {q' : SummaryCall}
    (hq' : l.note s a i = some q') (hq : l i = some q) : SummaryPhase q' (s'.procs i) := by
  by_cases hi : a.proc = some i
  · rcases phase_own h hmoved hi with ⟨x, c, rest, rfl, hproc, rfl⟩ | ⟨rfl, hstopped⟩
    · rw [hproc] at h
      simp only [SummaryLog.note, hq, hproc, beq_self_eq_true, Option.map_some] at hq'
      cases hq'
      exact phase_step h hproc
    · cases hq.symm.trans hq'
      exact phase_ended h (.inr hstopped)
  · rcases note_of_ne (s := s) hi hq with ⟨new, hnew⟩
    cases hnew.symm.trans hq'
    rw [moved_procs_of_ne hmoved hi]
    exact phase_written h new

/-- Only a request's own insert gives it a job, and only where it is about to answer. -/
theorem onItsWay_note (hs : Snapshot s) (h : SummaryPhase q (s.procs i))
    (hold : ∀ job, q.inserted = some job → OnItsWay s q job) (hmoved : Moved cfg s a s')
    {q' : SummaryCall} (hq' : l.note s a i = some q') (hq : l i = some q)
    (hjob : q'.inserted = some job) : OnItsWay s' q' job := by
  have hkept (hnotes : q.Notes s a q') : OnItsWay s' q' job :=
    onItsWay_moved hs (hold job (hnotes.inserted.symm.trans hjob)) hnotes hmoved
  cases ha : a with
  | step j x =>
    subst ha
    simp only [SummaryLog.note, hq, Option.map_some, Option.some.injEq] at hq'
    by_cases hins : i = j ∧ ∃ r k payload strict rest,
        s.procs j = .todo (.insertJob r k payload strict :: rest)
    · rcases hins with ⟨rfl, r, k, payload, strict, rest, hproc⟩
      rw [hproc] at h
      rcases phase_own (hproc ▸ h) hmoved rfl with ⟨x', c, rest', ha, hproc', rfl⟩ | ⟨ha, -⟩
      · cases hproc.symm.trans hproc'
        cases h with
        | entering hnone =>
          simp only [SummaryCall.note, hproc, beq_self_eq_true, Bool.true_and] at hq'
          split at hq'
          · next hsome =>
            have hnone' : (s.db.status q.recording).isNone = false := by simpa using hsome
            rcases hinsert : s.db.jobs.insert s.db.now q.recording .summarize
              { template := some q.template } 0 with ⟨_ | job', t⟩
            · rw [hinsert] at hq'
              rw [← hq', hnone] at hjob
              cases hjob
            · rw [hinsert] at hq'
              rw [← hq'] at hjob ⊢
              cases hjob
              apply tracked_inserted hs _ hinsert _ hmoved
              · rfl
              · simp [after_db, Cmd.exec, hnone', hinsert]
          · rw [← hq', hnone] at hjob
            cases hjob
      · cases ha
    · rw [← hq'] at hkept ⊢
      apply hkept
      apply note_step
      intro r k payload strict rest hij hproc
      exact hins ⟨hij, r, k, payload, strict, rest, hproc⟩
  | request j b =>
    subst ha
    have hij : i ≠ j := by
      rintro rfl
      cases hmoved with
      | request _ hidle => exact h.not_idle hidle
    have hsame : q' = q := by
      cases b with
      | summarize => exact Option.some.inj (hq'.symm.trans ((Function.update_of_ne hij _ _).trans hq))
      | _ => exact Option.some.inj (hq'.symm.trans hq)
    rw [hsame] at hkept ⊢
    exact hkept (notes_of_no_step (by simp))
  | _ =>
    subst ha
    cases hq.symm.trans hq'
    exact hkept (notes_of_no_step (by simp))

theorem promised_start : Promised (fun _ => none) Sys.start where
  snapshot := snapshot_start
  phase _ _ h := nomatch h
  tracked _ _ _ h := nomatch h

theorem promised_moved (h : Promised l s) (hmoved : Moved cfg s a s') :
    Promised (l.note s a) s' := by
  have hcall {i : ℕ} {q' : SummaryCall} (hq' : l.note s a i = some q') :
      (∃ q, l i = some q) ∨ ∃ r template, a = .request i (.summarize r template) ∧
        q' = { recording := r, template := template } := by
    cases hq : l i with
    | some q => exact .inl ⟨q, rfl⟩
    | none =>
      right
      cases a with
      | request j b =>
        cases b with
        | summarize r template =>
          by_cases hij : i = j
          · subst hij
            refine ⟨r, template, rfl, ?_⟩
            simpa [SummaryLog.note, eq_comm] using hq'
          · have hold : l i = some q' := (Function.update_of_ne hij _ _).symm.trans hq'
            cases hq.symm.trans hold
        | _ => cases hq.symm.trans hq'
      | step j x => simp [SummaryLog.note, hq] at hq'
      | _ => cases hq.symm.trans hq'
  constructor
  · exact snapshot_moved h.snapshot hmoved
  · intro i q' hq'
    rcases hcall hq' with ⟨q, hq⟩ | ⟨r, template, rfl, rfl⟩
    · exact summaryPhase_moved (h.phase i q hq) hmoved hq' hq
    · cases hmoved
      rw [Sys.setProc_self]
      exact .reading rfl
  · intro i q' job hq' hjob
    rcases hcall hq' with ⟨q, hq⟩ | ⟨r, template, rfl, rfl⟩
    · exact onItsWay_note h.snapshot (h.phase i q hq) (fun job => h.tracked i q job hq) hmoved hq' hq
        hjob
    · cases hjob

/-- A request that is answered has put in a job of its own, or has met a live one. The job it has
put in is done only after a summary with the request's template has been written. -/
theorem summary_promised {p : Sys × SummaryLog} {tr : List Label} {left : List Cmd}
    (h : Run (withNotes (step cfg) SummaryLog.note) anyStep (Sys.start, fun _ => none) tr p)
    (hq : p.2 i = some q) (hreply : p.1.procs i = .ended (some 202) left) :
    q.Answered ∧ ∀ job row, q.inserted = some job → p.1.db.jobs.row job.id = some row →
      row.state = .done → (q.recording, q.template) ∈ q.written := by
  have hpromised : Promised p.2 p.1 := by
    apply h.invariant (I := fun p => Promised p.2 p.1) promised_start
    intro p a p' hp _ hstep
    rcases withNotes_eq_some.mp hstep with ⟨hs, hnote⟩
    rw [hnote]
    exact promised_moved hp (step_moved hs)
  constructor
  · have hphase := hpromised.phase i q hq
    rw [hreply] at hphase
    cases hphase with
    | answered hans => exact hans
    | refused hno => exact absurd rfl hno
  · intro job row hjob hrow
    exact ((hpromised.tracked i q job hq hjob).row row hrow).2.2.2

/-- A request for a stand-up summary while a job for a general one waits. -/
def overlooked : List Label :=
  [Label.request 0 (.create 7)] ++ steps 0 1 ++ [Label.request 1 (.summarize 7 "general")] ++ steps 1 3 ++
  [Label.request 2 (.summarize 7 "standup")] ++ steps 2 4

def overlookedState : Sys := (exec (step {}) Sys.start overlooked).get (by decide +kernel)

/-- The request is answered, and no job is for its template. -/
theorem not_awaits_overlookedState :
    Run (step {}) anyStep Sys.start overlooked overlookedState ∧
      .request 2 (.summarize 7 "standup") ∈ overlooked ∧
      overlookedState.procs 2 = .ended (some 202) [] ∧ ¬ Awaits overlookedState 7 "standup" := by
  refine ⟨run_of_isSome _, by simp [overlooked], rfl, ?_⟩
  rintro ⟨row, hrow, -, -, -, htemplate⟩
  have hrows : overlookedState.db.jobs.rows.all fun row =>
      row.payload.template == some "general" := by decide +kernel
  have hgeneral := eq_of_beq (List.all_eq_true.mp hrows row hrow)
  rw [htemplate] at hgeneral
  exact absurd hgeneral (by decide +kernel)

/-- A request whose job is claimed and done. -/
def carriedOut : List Label :=
  [Label.request 0 (.create 7)] ++ steps 0 1 ++ [Label.request 1 (.summarize 7 "standup")] ++ steps 1 3 ++
  [Label.claim 2 1 [.summarize] 1] ++ steps 2 4

def carriedOutState : Sys × SummaryLog :=
  (exec (withNotes (step {}) SummaryLog.note) (Sys.start, fun _ => none) carriedOut).get
    (by decide +kernel)

def carriedOutCall : SummaryCall := (carriedOutState.2 1).get (by decide +kernel)

theorem summary_promised_carriedOut :
    (∃ job row, carriedOutCall.inserted = some job ∧
      carriedOutState.1.db.jobs.row job.id = some row ∧ row.state = .done) ∧
      carriedOutCall.Answered ∧ ∀ job row, carriedOutCall.inserted = some job →
        carriedOutState.1.db.jobs.row job.id = some row → row.state = .done →
          (carriedOutCall.recording, carriedOutCall.template) ∈ carriedOutCall.written := by
  constructor
  · exact ⟨_, _, rfl, rfl, rfl⟩
  · exact summary_promised (run_of_isSome _) (Option.some_get _).symm rfl

end ScribeLocal.Server
