import ScribeLocal.Server.Moves

/-! # What a recording that becomes ready was built from

`predecessors_done` and `maybe_mark_ready` look for some done job of a kind. Embed and
summarize jobs are also enqueued by requests, with no gate: that the done ones belong
to the transcript at hand rests on when a worker claims them.
-/
namespace ScribeLocal.Server
open Table Jobs Transition

variable {cfg : Config} {r : Uuid} {s s' : Sys} {a : Label} {k : JobKind} {x : Heard} {c : Cmd}
  {i : ℕ} {rest : List Cmd} {tr : List Label}

/-- A claim of job `id` is among the labels. -/
def ClaimedIn (tr : List Label) (id : JobId) : Prop := ∃ i w kinds, Label.claim i w kinds id ∈ tr

/-- A job of one of the two kinds that `maybe_mark_ready` counts. -/
def Finishes (r : Uuid) (j : Job) : Prop :=
  j.recordingId = some r ∧ (j.kind = .embed ∨ j.kind = .summarize)

/-- Embed and summarize jobs are claimed only behind a done merge, no reset falls between
the count of `maybe_mark_ready` and its status write, and reaps take only abandoned jobs. -/
def Fresh (cfg : Config) (r : Uuid) (s : Sys) (a : Label) : Prop :=
  ReapsDead cfg s a ∧
  (∀ i w kinds id row, a = .claim i w kinds id → s.db.jobs.row id = some row → Finishes r row →
    Done s r .merge) ∧
  ∀ i x c rest, a = .step i x → s.procs i = .todo (c :: rest) → c.resets r →
    ∀ k cs, s.procs k = .todo cs → .markReady r ∉ cs

/-- The labels `A` end with a merge of `r` done, and its row is still there. -/
def MergedBy (cfg : Config) (r : Uuid) (A : List Label) (s : Sys) : Prop :=
  ∃ sA, exec (step cfg) Sys.start A = some sA ∧ ∃ m ∈ sA.db.jobs.rows, m ∈ s.db.jobs.rows ∧
    m.recordingId = some r ∧ m.kind = .merge ∧ m.state = .done

/-- Embed and summarize are done, and the labels split at a done merge that still stands,
with the claim of every done job of these kinds behind it and none before it. -/
def Current (cfg : Config) (r : Uuid) (tr : List Label) (s : Sys) : Prop :=
  Done s r .embed ∧ Done s r .summarize ∧ ∃ A B, tr = A ++ B ∧ MergedBy cfg r A s ∧
    ∀ row ∈ s.db.jobs.rows, Finishes r row → row.state = .done →
      ClaimedIn B row.id ∧ ¬ ClaimedIn A row.id

theorem claimedIn_append {A B : List Label} {id : JobId} :
    ClaimedIn (A ++ B) id ↔ ClaimedIn A id ∨ ClaimedIn B id := by
  constructor
  · rintro ⟨i, w, kinds, h⟩
    exact (List.mem_append.mp h).imp (fun h => ⟨i, w, kinds, h⟩) fun h => ⟨i, w, kinds, h⟩
  · rintro (⟨i, w, kinds, h⟩ | ⟨i, w, kinds, h⟩)
    · exact ⟨i, w, kinds, List.mem_append_left _ h⟩
    · exact ⟨i, w, kinds, List.mem_append_right _ h⟩

theorem claimedIn_singleton {id : JobId} :
    ClaimedIn [a] id ↔ ∃ i w kinds, a = .claim i w kinds id := by
  constructor
  · rintro ⟨i, w, kinds, h⟩
    exact ⟨i, w, kinds, (List.mem_singleton.mp h).symm⟩
  · rintro ⟨i, w, kinds, rfl⟩
    exact ⟨i, w, kinds, List.mem_cons_self⟩

theorem Job.Continues.finishes {row old : Job} (h : Job.Continues row old)
    (hrow : Finishes r row) : Finishes r old :=
  ⟨h.recordingId ▸ hrow.1, h.kind ▸ hrow.2⟩

/-! ## Claims -/

/-- The rows that ever left the queue were claimed, and the ids claimed are in use. -/
structure Dated (tr : List Label) (s : Sys) : Prop where
  ids : ∀ id, ClaimedIn tr id → id < s.db.jobs.nextId
  rows : ∀ row ∈ s.db.jobs.rows, row.state ≠ .queued → ClaimedIn tr row.id

/-- A row out of the queue was so before the step, or the step claimed it. -/
theorem moved_unqueued (hl : Leased s) (h : Moved cfg s a s') {row : Job}
    (hrow : row ∈ s'.db.jobs.rows) (hst : row.state ≠ .queued) :
    (∃ old ∈ s.db.jobs.rows, Job.Continues row old ∧ old.state ≠ .queued) ∨
      ClaimedIn [a] row.id := by
  rcases moved_rows h hrow with ⟨old, hold, hcont⟩ | ⟨i, x, r, k, payload, strict, rest, -, -, hnew⟩
  · have hrow' : s'.db.jobs.row row.id = some row := row_eq_some.mpr ⟨hrow, rfl⟩
    have hold' : s.db.jobs.row row.id = some old := row_eq_some.mpr ⟨hold, hcont.id.symm⟩
    have hkeep (heq : s'.db.jobs.row row.id = s.db.jobs.row row.id) :
        ∃ old ∈ s.db.jobs.rows, Job.Continues row old ∧ old.state ≠ .queued := by
      rw [hrow', hold'] at heq
      exact ⟨old, hold, hcont, Option.some.inj heq ▸ hst⟩
    have hrun (hr : old.state = .running) :
        ∃ old ∈ s.db.jobs.rows, Job.Continues row old ∧ old.state ≠ .queued :=
      ⟨old, hold, hcont, by simp [hr]⟩
    cases h with
    | @claim i w kinds id j t hidle hclaim =>
      by_cases hid : row.id = id
      · exact .inr (claimedIn_singleton.mpr ⟨i, w, kinds, by rw [hid]⟩)
      · rcases claimOne_eq_some hclaim with ⟨j₀, -, -, -, hrows⟩
        left
        apply hkeep
        change t.row row.id = _
        rw [hrows, if_neg hid]
    | @heartbeat i job body w hproc hw =>
      left
      rw [Sys.setJobs_jobs, heartbeat, row_update, hold', Option.map_some] at hrow'
      by_cases hp : (old.id == job.id && old.lockedBy == some w && old.state == .running) = true
      · exact hrun (eq_of_beq (Bool.and_eq_true_iff.mp hp).2)
      · rw [updateRow_of_neg (by simpa using hp)] at hrow'
        exact ⟨old, hold, hcont, Option.some.inj hrow' ▸ hst⟩
    | @cmd i c rest x hproc =>
      left
      have hid : row.id < s.db.jobs.nextId := hcont.id ▸ s.db.jobs.id_lt old hold
      rcases exec_row hid hrow' with ⟨row₀, hrow₀, hsame | ⟨job, hjob, -, hjid⟩ | ⟨-, hstuck⟩⟩
      · exact hkeep (by rw [hrow₀, ← hsame]; exact hrow')
      · have hhold : Holds s i job := by
          rw [Holds, hproc]
          exact hjob
        exact hrun (hl.held i job old hhold (hjid ▸ hold')).1
      · cases Option.some.inj (hrow₀.symm.trans hold')
        exact hrun (eq_of_beq (Bool.and_eq_true_iff.mp hstuck).1)
    | _ => exact .inl (hkeep rfl)
  · rw [hnew] at hst
    exact absurd rfl hst

theorem dated_moved (hl : Leased s) (hd : Dated tr s) (h : Moved cfg s a s') :
    Dated (tr ++ [a]) s' := by
  constructor
  · intro id hid
    have hext := moved_extends h
    rcases claimedIn_append.mp hid with hid | hid
    · exact (hd.ids id hid).trans_le hext.nextId_le
    · rcases claimedIn_singleton.mp hid with ⟨i, w, kinds, rfl⟩
      cases h with
      | claim hidle hclaim =>
        rcases claimOne_eq_some hclaim with ⟨j, hrow, -⟩
        have hmem := row_eq_some.mp hrow
        exact (hmem.2 ▸ s.db.jobs.id_lt j hmem.1 : id < s.db.jobs.nextId).trans_le hext.nextId_le
  · intro row hrow hst
    rw [claimedIn_append]
    rcases moved_unqueued hl h hrow hst with ⟨old, hold, hcont, hst'⟩ | hnow
    · exact .inl (hcont.id ▸ hd.rows old hold hst')
    · exact .inr hnow

/-- A row that continues one no label claimed is claimed by no label but the last. -/
theorem not_claimed_moved {A : List Label} (hd : Dated tr s)
    (hA : ∀ id, ClaimedIn A id → ClaimedIn tr id) (h : Moved cfg s a s')
    (hno : ∀ row ∈ s.db.jobs.rows, Finishes r row → ¬ ClaimedIn A row.id) {row : Job}
    (hrow : row ∈ s'.db.jobs.rows) (hf : Finishes r row) : ¬ ClaimedIn A row.id := by
  rcases moved_rows h hrow with ⟨old, hold, hcont⟩ | ⟨i, x, r', k, payload, strict, rest, -, -, hnew⟩
  · rw [hcont.id]
    exact hno old hold (hcont.finishes hf)
  · intro hclaimed
    have hlt := hd.ids row.id (hA _ hclaimed)
    rw [hnew] at hlt
    exact absurd hlt (Nat.lt_irrefl _)

/-! ## Whole runs -/

/-- Either no merge is done and no embed or summarize job was ever claimed, or the labels
split where a merge was done that still stands, with every claim of one behind it. -/
def Behind (cfg : Config) (r : Uuid) (tr : List Label) (s : Sys) : Prop :=
  (¬ Done s r .merge ∧ ∀ row ∈ s.db.jobs.rows, Finishes r row → ¬ ClaimedIn tr row.id) ∨
    ∃ A B, tr = A ++ B ∧ MergedBy cfg r A s ∧
      ∀ row ∈ s.db.jobs.rows, Finishes r row → ¬ ClaimedIn A row.id

structure Dates (cfg : Config) (r : Uuid) (tr : List Label) (s : Sys) : Prop where
  snapshot : Snapshot s
  leased : Leased s
  dated : Dated tr s
  behind : Behind cfg r tr s
  counted : ∀ i cs, s.procs i = .todo cs → ∀ c ∈ cs, c = .markReady r →
    Done s r .embed ∧ Done s r .summarize

theorem behind_moved (hdates : Dates cfg r tr s) (hok : Fresh cfg r s a) (h : Moved cfg s a s')
    (hexec : exec (step cfg) Sys.start (tr ++ [a]) = some s') : Behind cfg r (tr ++ [a]) s' := by
  rcases hdates.behind with ⟨hnone, hno⟩ | ⟨A, B, htr, ⟨sA, hA, m, hmA, hm, hr, hk, hd⟩, hno⟩
  · by_cases hclaim : ∃ i w kinds id row, a = .claim i w kinds id ∧
        s.db.jobs.row id = some row ∧ Finishes r row
    · rcases hclaim with ⟨i, w, kinds, id, row, ha, hrow, hf⟩
      exact absurd (hok.2.1 i w kinds id row ha hrow hf) hnone
    have hno' : ∀ row ∈ s'.db.jobs.rows, Finishes r row → ¬ ClaimedIn (tr ++ [a]) row.id := by
      intro row hrow hf hclaimed
      rcases claimedIn_append.mp hclaimed with hold | hnow
      · exact not_claimed_moved hdates.dated (fun _ => id) h hno hrow hf hold
      · rcases claimedIn_singleton.mp hnow with ⟨i, w, kinds, rfl⟩
        rcases moved_rows h hrow with ⟨old, hold, hcont⟩ | ⟨_, _, _, _, _, _, _, ha, -⟩
        · exact hclaim ⟨i, w, kinds, row.id, old, rfl,
            row_eq_some.mpr ⟨hold, hcont.id.symm⟩, hcont.finishes hf⟩
        · cases ha
    by_cases hdone : Done s' r .merge
    · rcases has_iff.mp hdone with ⟨m, hm, hk, hd⟩
      exact .inr ⟨tr ++ [a], [], (List.append_nil _).symm,
        ⟨s', hexec, m, hm, hm, hk.1, hk.2, eq_of_beq hd⟩, hno'⟩
    · exact .inl ⟨hdone, hno'⟩
  · rcases moved_done_row hdates.leased h hm hr hd with hm' | ⟨-, hgone⟩
    · refine .inr ⟨A, B ++ [a], ?_, ⟨sA, hA, m, hmA, hm', hr, hk, hd⟩, fun row hrow hf => ?_⟩
      · rw [htr, List.append_assoc]
      · apply not_claimed_moved hdates.dated _ h hno hrow hf
        intro id hid
        rw [htr]
        exact claimedIn_append.mpr (.inl hid)
    · left
      constructor
      · intro hdone
        rcases has_iff.mp hdone with ⟨m', hm', hk', -⟩
        have hkind := hgone m' hm' hk'.1
        simp [hk'.2] at hkind
      · intro row hrow hf
        have hkind := hgone row hrow hf.1
        rcases hf.2 with hk' | hk' <;> simp [hk'] at hkind

theorem counted_moved (hdates : Dates cfg r tr s) (hok : Fresh cfg r s a) (h : Moved cfg s a s') :
    ∀ i cs, s'.procs i = .todo cs → ∀ c ∈ cs, c = .markReady r →
      Done s' r .embed ∧ Done s' r .summarize := by
  have hkeep (hno : ∀ i x c rest, a = .step i x → s.procs i = .todo (c :: rest) → ¬ c.resets r)
      (hboth : Done s r .embed ∧ Done s r .summarize) : Done s' r .embed ∧ Done s' r .summarize :=
    ⟨done_kept hdates.leased h hno hboth.1, done_kept hdates.leased h hno hboth.2⟩
  apply moved_todo (P := fun c => c = .markReady r → Done s' r .embed ∧ Done s' r .summarize) h
  · intro i cs hproc c hc heq
    apply hkeep _ (hdates.counted i cs hproc c hc heq)
    intro k x c' rest ha hproc' hreset
    exact hok.2.2 k x c' rest ha hproc' hreset i cs hproc (heq ▸ hc)
  · intro i x c rest c' ha hproc hfollows heq
    subst heq
    cases hfollows with
    | ready hdone =>
      rw [embedAndSummarizeDone, Bool.and_eq_true] at hdone
      apply hkeep _ hdone
      intro k x' c' rest' ha' hproc' hreset
      cases (Label.step.inj (ha.symm.trans ha')).1
      cases hproc.symm.trans hproc'
      exact hreset
  · intro i q _ heq
    cases q <;> cases heq
  · intro heq
    cases heq
  · intro _ _ _ heq
    cases heq
  · intro _ _ _ _ _ _ heq
    cases heq
  · intro _ _ _ _ _ heq
    cases heq

theorem dates_start : Dates cfg r [] Sys.start where
  snapshot := snapshot_start
  leased := leased_start
  dated := ⟨fun _ ⟨_, _, _, h⟩ => (nomatch h), fun _ h => nomatch h⟩
  behind := .inl ⟨fun h => (nomatch h), fun _ h => nomatch h⟩
  counted _ _ h := nomatch h

theorem dates_run (h : Run (step cfg) (Fresh cfg r) Sys.start tr s) : Dates cfg r tr s := by
  apply h.history dates_start
  intro tr s a s' hrun hdates hok hstep
  have hmoved := step_moved hstep
  have hexec := (hrun.snoc a hok hstep).exec_eq
  exact ⟨snapshot_moved hdates.snapshot hmoved,
    leased_moved hdates.snapshot hdates.leased hok.1 hmoved,
    dated_moved hdates.leased hdates.dated hmoved, behind_moved hdates hok hmoved hexec,
    counted_moved hdates hok hmoved⟩

/-- In every run that stays fresh, a recording that a worker sets ready is current. -/
theorem current_of_markReady (h : Run (step cfg) (Fresh cfg r) Sys.start tr s)
    (hproc : s.procs i = .todo (.markReady r :: rest)) : Current cfg r tr s := by
  have hdates := dates_run h
  have hboth := hdates.counted i _ hproc _ List.mem_cons_self rfl
  have hclaimed {row : Job} (hrow : row ∈ s.db.jobs.rows) (hd : row.state = .done) :
      ClaimedIn tr row.id := hdates.dated.rows row hrow (by simp [hd])
  refine ⟨hboth.1, hboth.2, ?_⟩
  rcases hdates.behind with ⟨-, hno⟩ | ⟨A, B, htr, hmerged, hno⟩
  · rcases has_iff.mp hboth.1 with ⟨row, hrow, hk, hd⟩
    exact absurd (hclaimed hrow (eq_of_beq hd)) (hno row hrow ⟨hk.1, .inl hk.2⟩)
  · refine ⟨A, B, htr, hmerged, fun row hrow hf hd => ?_⟩
    have hnot := hno row hrow hf
    have hin := hclaimed hrow hd
    rw [htr, claimedIn_append] at hin
    exact ⟨hin.resolve_left hnot, hnot⟩

/-- A client asks for a summary before the upload is complete; embed is then enough. -/
def earlyRun : List Label :=
  [Label.request 0 (.create 7)] ++ steps 0 1 ++ [Label.request 1 (.summarize 7 "general")] ++ steps 1 3 ++
  [Label.claim 2 1 [.summarize] 1] ++ steps 2 5 ++ [Label.request 3 (.complete 7 none none)] ++ steps 3 4 ++
  [Label.claim 4 1 [.transcode] 2] ++ steps 4 8 ++ [Label.claim 5 1 [.diarize] 3] ++ steps 5 7 ++
  [Label.claim 6 1 [.transcribe] 4] ++ steps 6 5 ++ [Label.claim 7 1 [.merge] 5] ++ steps 7 10 ++
  [Label.claim 8 1 [.embed] 6] ++ steps 8 5

def earlyState : Sys := (exec (step {}) Sys.start earlyRun).get (by decide +kernel)

/-- The recording becomes ready with the summary of an empty transcript. -/
theorem not_current_of_markReady :
    ¬ ∀ (tr : List Label) (s : Sys) (r : Uuid) (i : ℕ) (rest : List Cmd),
      Run (step {}) anyStep Sys.start tr s → s.procs i = .todo (.markReady r :: rest) →
      Current {} r tr s := by
  intro h
  rcases h earlyRun earlyState 7 8 [] (run_of_isSome _) (by decide +kernel) with
    ⟨-, -, A, B, htr, ⟨sA, hA, m, hm, -, hr, hk, hd⟩, hclaims⟩
  have hrow : (earlyState.db.jobs.rows.find? fun j => j.id == 1).any fun j =>
      j.isOf 7 .summarize && j.state == .done := by decide +kernel
  rcases (Option.any_eq_true _ _).mp hrow with ⟨row, hfind, hdone⟩
  have hmem := row_eq_some.mp hfind
  rw [Bool.and_eq_true, Job.isOf_iff, beq_iff_eq] at hdone
  have hlate := (hclaims row hmem.1 ⟨hdone.1.1, .inr hdone.1.2⟩ hdone.2).2
  -- the merge is not done before the claim of job 1, the label at index 6
  have hcut : ∀ n < 7, ((exec (step {}) Sys.start (earlyRun.take n)).any fun s =>
      s.db.jobs.has 7 .merge fun j => j.state == .done) = false := by decide +kernel
  have htake : earlyRun.take A.length = A := by rw [htr, List.take_left]
  by_cases hlen : A.length < 7
  · have hno := hcut A.length hlen
    rw [htake, hA, Option.any_some] at hno
    have hhas : sA.db.jobs.has 7 .merge (fun j => j.state == .done) = true :=
      has_iff.mpr ⟨m, hm, ⟨hr, hk⟩, by simp [hd]⟩
    exact absurd hhas (by simp [hno])
  · apply hlate
    rw [hmem.2]
    have hget : (A ++ B)[6]? = A[6]? := List.getElem?_append_left (by omega)
    rw [← htr] at hget
    exact ⟨2, 1, [.summarize], List.mem_of_getElem? hget.symm⟩

/-- The stages run in their order, and nobody edits. -/
def inOrder (s : Sys) : Label → Bool
  | .claim _ _ _ id =>
    (s.db.jobs.row id).all fun row => !(row.kind == .embed || row.kind == .summarize) ||
      s.db.jobs.has 7 .merge fun j => j.state == .done
  | .step i _ =>
    match s.procs i with
    | .todo (.reapStuck :: _) | .todo (.resetForReprocess _ :: _)
    | .todo (.resetForRediarize _ :: _) => false
    | _ => true
  | _ => true

theorem fresh_of_inOrder (h : inOrder s a = true) : Fresh {} 7 s a := by
  refine ⟨?_, ?_, ?_⟩
  · cases a with
    | step i x =>
      intro rest hproc
      simp [inOrder, hproc] at h
    | _ => trivial
  · rintro i w kinds id row rfl hrow hf
    simp only [inOrder, hrow, Option.all_some, Bool.or_eq_true, Bool.not_eq_true'] at h
    rcases h with h | h
    · rcases hf.2 with hk | hk <;> simp [hk] at h
    · exact h
  · rintro i x c rest rfl hproc hreset
    cases c with
    | resetForReprocess | resetForRediarize => simp [inOrder, hproc] at h
    | _ => cases hreset

def orderedRun : List Label :=
  [Label.request 0 (.create 7)] ++ steps 0 1 ++ [Label.request 1 (.complete 7 none none)] ++ steps 1 4 ++
  [Label.claim 2 1 [.transcode] 1] ++ steps 2 8 ++ [Label.claim 3 1 [.diarize] 2] ++ steps 3 7 ++
  [Label.claim 4 1 [.transcribe] 3] ++ steps 4 5 ++ [Label.claim 5 1 [.merge] 4] ++ steps 5 10 ++
  [Label.claim 6 1 [.embed] 5] ++ steps 6 5 ++ [Label.claim 7 1 [.summarize] 6] ++ steps 7 5

def orderedState : Sys :=
  (exec (guarded (step {}) inOrder) Sys.start orderedRun).get (by decide +kernel)

theorem current_of_markReady_orderedState : Current {} 7 orderedRun orderedState :=
  have hproc : orderedState.procs 7 = .todo [.markReady 7] := by decide +kernel
  current_of_markReady (run_of_guarded _ fun _ _ => fresh_of_inOrder) hproc

end ScribeLocal.Server
