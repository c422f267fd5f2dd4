import ScribeLocal.Server.Moves
import ScribeLocal.Server.Lease

/-! # What is left to do while nothing disturbs a recording

With no stage failing, no process stopping and no request but uploads and one
accepted complete, the list of a process is one of a few as far as one recording's
pipeline goes: `Errand` names them.
-/
namespace ScribeLocal.Server
open Table Jobs Transition

variable {cfg : Config} {r : Uuid} {s s' : Sys} {a : Label} {k : JobKind}

/-! ## The jobs table seen from one pipeline -/

/-- Each pipeline stage of `r` has a live job, and a done one, just when it had before. -/
structure Alike (r : Uuid) (t t' : Jobs) : Prop where
  live : ∀ k, k.isPipeline = true → t'.has r k Job.isLive = t.has r k Job.isLive
  done : ∀ k, k.isPipeline = true →
    t'.has r k (fun j => j.state == .done) = t.has r k fun j => j.state == .done

section Table
variable {t t' : Jobs} {p : Job → Bool} {f : Job → Job} {now : Time}

theorem alike_refl : Alike r t t := ⟨fun _ _ => rfl, fun _ _ => rfl⟩

theorem has_update {q : Job → Bool} (hf : Keeps f) (hrows : t'.rows = updateWhere p f t.rows)
    (h : ∀ j ∈ t.rows, p j = true → j.recordingId = some r → q (f j) = q j) :
    t'.has r k q = t.has r k q := by
  have hrow {j : Job} (hj : j ∈ t.rows) (hr : j.recordingId = some r) : q (updateRow p f j) = q j := by
    by_cases hp : p j = true
    · rw [updateRow_of_pos hp, h j hj hp hr]
    · rw [updateRow_of_neg (by simpa using hp)]
  have hcols (j : Job) : (updateRow p f j).recordingId = j.recordingId ∧
      (updateRow p f j).kind = j.kind :=
    ⟨column_updateRow hf.recordingId j, column_updateRow hf.kind j⟩
  rw [Bool.eq_iff_iff, has_iff, has_iff]
  constructor
  · rintro ⟨j', hj', hk, hq⟩
    rw [hrows] at hj'
    rcases mem_updateWhere.mp hj' with ⟨j, hj, rfl⟩
    rw [(hcols j).1, (hcols j).2] at hk
    exact ⟨j, hj, hk, by rwa [hrow hj hk.1] at hq⟩
  · rintro ⟨j, hj, hk, hq⟩
    refine ⟨updateRow p f j, ?_, ?_, by rwa [hrow hj hk.1]⟩
    · rw [hrows]
      exact mem_updateWhere.mpr ⟨j, hj, rfl⟩
    · rwa [(hcols j).1, (hcols j).2]

theorem alike_update (hf : Keeps f) (hrows : t'.rows = updateWhere p f t.rows)
    (h : ∀ j ∈ t.rows, p j = true → j.recordingId = some r →
      (f j).isLive = j.isLive ∧ ((f j).state = .done ↔ j.state = .done)) : Alike r t t' := by
  constructor
  · intro k _
    exact has_update hf hrows fun j hj hp hr => (h j hj hp hr).1
  · intro k _
    apply has_update hf hrows
    intro j hj hp hr
    rw [Bool.eq_iff_iff, beq_iff_eq, beq_iff_eq]
    exact (h j hj hp hr).2

/-- An assignment to rows of other recordings only. -/
theorem alike_update_other (hf : Keeps f) (hrows : t'.rows = updateWhere p f t.rows)
    (h : ∀ j ∈ t.rows, p j = true → j.recordingId ≠ some r) : Alike r t t' :=
  alike_update hf hrows fun j hj hp hr => absurd hr (h j hj hp)

theorem alike_delete (h : ∀ j, p j = true → j.recordingId ≠ some r) : Alike r t (t.delete p) := by
  have hkeep (k : JobKind) (q : Job → Bool) : (t.delete p).has r k q = t.has r k q := by
    rw [Bool.eq_iff_iff, has_iff, has_iff]
    constructor
    · rintro ⟨j, hj, hk, hq⟩
      exact ⟨j, (mem_deleteWhere.mp hj).1, hk, hq⟩
    · rintro ⟨j, hj, hk, hq⟩
      refine ⟨j, mem_deleteWhere.mpr ⟨hj, ?_⟩, hk, hq⟩
      by_contra hp
      exact h j (by simpa using hp) hk.1
  exact ⟨fun k _ => hkeep k _, fun k _ => hkeep k _⟩

theorem has_insert {r' : Uuid} {k' : JobKind} {payload : Payload} {priority : ℤ} {q : Job → Bool}
    (h : r' = r → k' ≠ k) :
    (t.insert now r' k' payload priority).2.has r k q = t.has r k q := by
  unfold Jobs.insert
  split
  · rfl
  · rw [has, List.any_append, ← has]
    have hno : (newJob now t.nextId r' k' payload priority).isOf r k = false := by
      by_contra hof
      have hcols := Job.isOf_iff.mp (by simpa using hof)
      exact h (Option.some.inj hcols.1) hcols.2
    simp [hno]

theorem alike_insert {r' : Uuid} {k' : JobKind} {payload : Payload} {priority : ℤ}
    (h : r' = r → k' = .transcribeSegment) :
    Alike r t (t.insert now r' k' payload priority).2 := by
  have hno {k : JobKind} (hk : k.isPipeline = true) : r' = r → k' ≠ k := by
    rintro hr rfl
    rw [h hr] at hk
    cases hk
  exact ⟨fun k hk => has_insert (hno hk), fun k hk => has_insert (hno hk)⟩

theorem alike_claimOne {w : WorkerId} {kinds : List JobKind} {id : JobId} {y : Job × Jobs}
    (h : t.claimOne now w kinds id = some y) : Alike r t y.2 := by
  unfold claimOne at h
  split at h
  · cases h
  · split at h
    · cases h
      apply alike_update keeps_claimed rfl
      intro j _ hp _
      have hqueued : j.state = .queued := eq_of_beq (Bool.and_eq_true_iff.mp hp).2
      exact ⟨by simp [Job.isLive, claimed, hqueued], by simp [claimed, hqueued]⟩
    · cases h

end Table

/-! ## The lists -/

theorem exec_enqueue (cfg : Config) (x : Heard) (y : JobKind) {db : Db}
    (hsome : (db.status r).isSome = true) :
    (Cmd.exec cfg x db (enqueue r y {})).1 =
        { db with jobs := (db.jobs.insert db.now r y {} 0).2 } ∧
      (Cmd.exec cfg x db (enqueue r y {})).2 =
        .next (if db.jobs.has r y Job.isLive then [.selectJob r y true] else []) := by
  have hnone : (db.status r).isNone = false := by simpa using hsome
  simp only [enqueue, Cmd.exec, hnone, Bool.false_eq_true, if_false]
  unfold Jobs.insert
  by_cases hlive : db.jobs.has r y Job.isLive = true
  · simp [hlive]
  · simp [hlive]

/-- The command leaves the pipeline of recording `r` alone, and so does what follows it. -/
def Cmd.spares (r : Uuid) : Cmd → Prop
  | .insertJob r' k _ _ => r' = r → k = .transcribeSegment
  | .completeRead r' _ _ | .markProcessing r' | .reprocessRead r' | .resetForReprocess r'
  | .rediarizeRead r' | .resetForRediarize r' | .summarizeRead r' _ | .deleteSpeakerRead r' _
  | .succ r' _ | .maybeMarkReady r' | .markReady r' | .parkRecording r' => r' ≠ r
  | .completeJob job | .failSelect job _ | .failUpdate job _ _ => job.recordingId ≠ some r
  | _ => True

/-- A live or a done job of this kind exists. -/
def Enqueued (s : Sys) (r : Uuid) (k : JobKind) : Prop := Live s r k ∨ Done s r k

/-- The lists of commands a process can be left with. -/
inductive Errand (s : Sys) (r : Uuid) : List Cmd → Prop
  | spare {cs : List Cmd} (h : ∀ c ∈ cs, c.spares r) : Errand s r cs
  | accept (durationMs : Option ℤ) (marks : Option (List ℤ)) :
      Errand s r [.completeRead r durationMs marks]
  | process (sts : List Stmt) : Errand s r (sts.map .content ++ [.markProcessing r])
  | enter : Errand s r [enqueue r .transcode {}, .reply 200]
  | report (job : Job) (hr : job.recordingId = some r) : Errand s r [.completeJob job]
  | succeed {k : JobKind} {ys : List JobKind} (hys : ys <:+ k.successors) :
      Errand s r (ys.map (.succ r))
  | enqueue {k y : JobKind} {ys : List JobKind} (hys : y :: ys <:+ k.successors)
      (hdone : ∀ p ∈ y.predecessors, Done s r p) :
      Errand s r (enqueue r y {} :: ys.map (.succ r))
  | select {k y : JobKind} {ys : List JobKind} (hys : y :: ys <:+ k.successors)
      (hrow : Enqueued s r y) : Errand s r (.selectJob r y true :: ys.map (.succ r))
  | count : Errand s r [.maybeMarkReady r]
  | mark (hembed : Done s r .embed) (hsummarize : Done s r .summarize) : Errand s r [.markReady r]

/-- Requests that touch the pipeline of `r` by an accepted complete at most. -/
def Request.spares (r : Uuid) : Request → Prop
  | .create _ | .setParticipants _ _ | .putSegment _ _ _ _ | .complete _ _ _ => True
  | q => q.recording ≠ r

/-- No stage of `r` fails, no process stops, no lease runs out, and of all complete
calls for `r` only one is let past its status check. -/
def Undisturbed (cfg : Config) (r : Uuid) (s : Sys) : Label → Prop
  | .request _ q => q.spares r
  | .step i x =>
    (∀ job st body, s.procs i = .stage job (st :: body) → job.recordingId = some r →
      (st.exec s.db.now s.db.status x s.db.content).isSome = true) ∧
    (∀ rest, s.procs i = .todo (.reapStuck :: rest) →
      ∀ row ∈ s.db.jobs.rows, stuck s.db.now cfg.lease row = false) ∧
    (∀ rest, s.procs i = .todo (.markProcessing r :: rest) → s.db.status r = some .uploading)
  | .stageErr i _ => ∀ job body, s.procs i = .stage job body → job.recordingId ≠ some r
  | .stop _ => False
  | _ => True

theorem Undisturbed.reapsDead (h : Undisturbed cfg r s a) : ReapsDead cfg s a := by
  cases a with
  | step i x =>
    intro rest hproc row hrow hstuck
    rw [h.2.1 rest hproc row hrow] at hstuck
    cases hstuck
  | _ => trivial

theorem postSteps_errand {job : Job} (hr : job.recordingId = some r) :
    Errand s r (postSteps job) := by
  cases hk : job.kind with
  | embed | summarize =>
    simp only [postSteps, hr, hk]
    exact .count
  | transcribeSegment =>
    simp only [postSteps, hr, hk]
    exact .spare (by simp [JobKind.successors, Cmd.spares])
  | _ =>
    simp only [postSteps, hr, hk, reduceCtorEq, or_self, if_false, List.append_nil]
    exact .succeed List.suffix_rfl

/-- A command that spares the recording is followed by such commands only. -/
theorem spares_next {c : Cmd} {x : Heard} {db : Db} {cs : List Cmd} (hc : c.spares r)
    (hreap : c = .reapStuck → ∀ row ∈ db.jobs.rows, stuck db.now cfg.lease row = true →
      exhausted cfg.maxAttempts row = true → row.recordingId ≠ some r)
    (h : (c.exec cfg x db).2 = .next cs) : ∀ c' ∈ cs, c'.spares r := by
  intro c' hc'
  cases exec_follows h hc' with
  | live | requeue => exact fun _ => rfl
  | accept | reprocess | rediarize => exact hc
  | process | restart | redo | summarize | reembed | resummarize | gate =>
    exact fun hr => absurd hr hc
  | succ hr | count hr | park hr =>
    rintro rfl
    exact hc hr
  | ready => exact hc
  | fail => exact hc
  | reap hrow hr hstuck hex =>
    rintro rfl
    exact hreap rfl _ hrow hstuck hex hr
  | _ => trivial

/-- A command that spares the recording leaves its status alone, but may create it. -/
theorem spares_status (cfg : Config) (x : Heard) {c : Cmd} {db : Db} (hc : c.spares r) :
    (c.exec cfg x db).1.status r = db.status r ∨
      (db.status r = none ∧ (c.exec cfg x db).1.status r = some .uploading) := by
  rcases exec_status cfg x db c r with h | ⟨-, h⟩ | ⟨rfl | rfl | rfl, -⟩ | ⟨rfl, -⟩ | ⟨rfl, -⟩
  · exact .inl h
  · exact .inr h
  all_goals exact absurd rfl hc

/-! ## Edits -/

/-- Commands that rewrite or re-run a recording on a client's behalf. -/
def Cmd.edits (r : Uuid) : Cmd → Prop
  | .reprocessRead r' | .resetForReprocess r' | .rediarizeRead r' | .resetForRediarize r'
  | .summarizeRead r' _ | .deleteSpeakerRead r' _ | .content (.deleteSpeaker r' _) => r' = r
  | _ => False

theorem follows_edits {db : Db} {c c' : Cmd} (h : Follows cfg db c c') (hc' : c'.edits r) : c.edits r := by
  cases h with
  | @content st st' hrec hst hsome =>
    cases st' <;> first | exact hc'.elim | cases hsome
  | reprocess | rediarize | speaker => exact hc'
  | reply | duration | marks => exact hc'.elim
  | _ => exact hc'.elim

def NoEdits (r : Uuid) (s : Sys) : Prop :=
  ∀ i cs, s.procs i = .todo cs → ∀ c ∈ cs, ¬ c.edits r

theorem noEdits_moved (hno : NoEdits r s) (hreq : ∀ i q, a = .request i q → q.spares r)
    (h : Moved cfg s a s') : NoEdits r s' := by
  apply moved_todo (P := fun c => ¬ c.edits r) h hno
  · intro i x c rest c' _ hproc hfollow hc'
    exact hno i _ hproc c List.mem_cons_self (follows_edits hfollow hc')
  · intro i q ha hq
    have hspare := hreq i q ha
    cases q <;> first | exact hq.elim | exact hspare hq
  · exact id
  · exact fun _ _ _ => id
  · exact fun _ _ _ _ _ _ => id
  · exact fun _ _ _ _ _ => id

end ScribeLocal.Server
