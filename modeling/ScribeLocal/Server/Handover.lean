import ScribeLocal.Server.Errands
import ScribeLocal.Server.Progress

/-! # What holds at the joins of the stage DAG

A stage is completed before its worker checks what it unblocks, so whoever completes
the last predecessor of a stage still has the check in front of it. `Joins` says so
for every stage, and a step that hands over what it owes keeps it.
-/
namespace ScribeLocal.Server
open Table Jobs Transition

variable {cfg : Config} {r : Uuid} {s s' s₁ : Sys} {a : Label} {k y : JobKind} {i : ℕ} {p : Proc}
  {c : Cmd} {cs rest : List Cmd}

/-- Some process is still going to check stage `y` or to enqueue it. -/
def Owed (s : Sys) (r : Uuid) (y : JobKind) : Prop :=
  Pending false s (.succ r y) ∨ Pending false s (enqueue r y {})

/-- Some process executes `c` next. -/
def Leading (s : Sys) (c : Cmd) : Prop := ∃ i rest, s.procs i = .todo (c :: rest)

/-- Some process checks stage `y` or enqueues it in its next step. -/
def OwedNext (s : Sys) (r : Uuid) (y : JobKind) : Prop :=
  Leading s (.succ r y) ∨ Leading s (enqueue r y {})

theorem Leading.pending (h : Leading s c) : Pending false s c := by
  rcases h with ⟨i, rest, h⟩
  exact ⟨i, by simp [h, Proc.pending]⟩

theorem OwedNext.owed (h : OwedNext s r y) : Owed s r y := h.imp Leading.pending Leading.pending

/-- What holds of recording `r` while nothing disturbs it. -/
structure Joins (s : Sys) (r : Uuid) : Prop where
  errand : ∀ i cs, s.procs i = .todo cs → Errand s r cs
  gate : ∀ k, k.isPipeline = true → Enqueued s r k →
    (s.db.status r).isSome = true ∧ ∀ p ∈ k.predecessors, Done s r p
  owed : ∀ y ∈ JobKind.later, (∀ p ∈ y.predecessors, Done s r p) → Enqueued s r y ∨ Owed s r y
  sibling : ∀ k y y' : JobKind, k.successors = [y, y'] → Enqueued s r y → Enqueued s r y' ∨ OwedNext s r y'
  ready : Done s r .embed → Done s r .summarize →
    s.db.status r = some .ready ∨ ReadyPending false s r

/-- One step of a process, seen from recording `r`: its jobs only advance, and what the
process no longer owes has been done or is not due. -/
structure Handover (r : Uuid) (s s' : Sys) : Prop where
  done : ∀ k, k.isPipeline = true → Done s r k → Done s' r k
  enqueued : ∀ k, k.isPipeline = true → Enqueued s r k → Enqueued s' r k
  done_new : ∀ k, k.isPipeline = true → Done s' r k → Done s r k ∨
    ((∀ y ∈ k.successors, Owed s' r y) ∧
      (k = .embed ∨ k = .summarize → ReadyPending false s' r))
  enqueued_new : ∀ k, k.isPipeline = true → Enqueued s' r k → Enqueued s r k ∨
    ((s'.db.status r).isSome = true ∧ (∀ p ∈ k.predecessors, Done s' r p) ∧
      ∀ k₀ y' : JobKind, k₀.successors = [k, y'] → OwedNext s' r y')
  known : (s.db.status r).isSome = true → (s'.db.status r).isSome = true
  ready : s.db.status r = some .ready → s'.db.status r = some .ready
  owed : ∀ y ∈ JobKind.later, (∀ p ∈ y.predecessors, Done s r p) → Owed s r y →
    Enqueued s' r y ∨ Owed s' r y
  owedNext : ∀ y ∈ JobKind.later, (∀ p ∈ y.predecessors, Done s r p) → OwedNext s r y →
    Enqueued s' r y ∨ OwedNext s' r y
  readyPending : Done s r .embed → Done s r .summarize → ReadyPending false s r →
    s'.db.status r = some .ready ∨ ReadyPending false s' r

/-- What a step keeps of an undisturbed recording. -/
def Advances (r : Uuid) (s s' : Sys) : Prop := Handover r s s' ∧ Joins s' r

theorem errand_mono (h : Handover r s s') (he : Errand s r cs) : Errand s' r cs := by
  have hpred {y p : JobKind} (hp : p ∈ y.predecessors) : p.isPipeline = true :=
    (JobKind.isPipeline_of_mem_predecessors hp).1
  cases he with
  | spare h => exact .spare h
  | accept d m => exact .accept d m
  | process sts => exact .process sts
  | enter => exact .enter
  | report job hr => exact .report job hr
  | succeed hys => exact .succeed hys
  | enqueue hys hdone => exact .enqueue hys fun p hp => h.done p (hpred hp) (hdone p hp)
  | @select k y ys hys hrow =>
    have hmem : y ∈ k.successors := hys.subset List.mem_cons_self
    have hpipe := (JobKind.isPipeline_of_mem_predecessors (JobKind.mem_successors.mp hmem)).2
    exact .select hys (h.enqueued _ hpipe hrow)
  | count => exact .count
  | mark he hs => exact .mark (h.done _ rfl he) (h.done _ rfl hs)

/-- The step lemma: a handover by one process keeps every join. -/
theorem joins_handover (hj : Joins s r) (h : Handover r s s')
    (hothers : ∀ j ≠ i, s'.procs j = s.procs j)
    (herrand : ∀ cs, s'.procs i = .todo cs → Errand s' r cs) : Advances r s s' := by
  refine ⟨h, ?_⟩
  constructor
  · intro j cs hproc
    by_cases hji : j = i
    · subst hji
      exact herrand cs hproc
    · rw [hothers j hji] at hproc
      exact errand_mono h (hj.errand j cs hproc)
  · intro k hk hrow
    rcases h.enqueued_new k hk hrow with hold | hnew
    · have hgate := hj.gate k hk hold
      exact ⟨h.known hgate.1, fun p hp =>
        h.done p (JobKind.isPipeline_of_mem_predecessors hp).1 (hgate.2 p hp)⟩
    · exact ⟨hnew.1, hnew.2.1⟩
  · intro y hy hdone
    by_cases hall : ∀ p ∈ y.predecessors, Done s r p
    · rcases hj.owed y hy hall with hrow | howed
      · exact .inl (h.enqueued y (JobKind.isPipeline_of_mem_later hy) hrow)
      · exact h.owed y hy hall howed
    · -- this very step completed a predecessor
      push Not at hall
      rcases hall with ⟨p, hp, hno⟩
      have hnew := (h.done_new p (JobKind.isPipeline_of_mem_predecessors hp).1
        (hdone p hp)).resolve_left hno
      exact .inr (hnew.1 y (JobKind.mem_successors.mpr hp))
  · intro k y y' hpair hrow
    rcases JobKind.successors_of_pair hpair with ⟨hy, hy', hpre, hpre'⟩
    have hpipe := JobKind.isPipeline_of_mem_later hy
    rcases h.enqueued_new y hpipe hrow with hold | hnew
    · have hdone : ∀ p ∈ y'.predecessors, Done s r p := by
        rw [hpre', ← hpre]
        exact (hj.gate y hpipe hold).2
      rcases hj.sibling k y y' hpair hold with hrow' | hnext
      · exact .inl (h.enqueued y' (JobKind.isPipeline_of_mem_later hy') hrow')
      · exact h.owedNext y' hy' hdone hnext
    · exact .inr (hnew.2.2 k y' hpair)
  · intro hembed hsummarize
    rcases h.done_new _ rfl hembed with he | hnew
    · rcases h.done_new _ rfl hsummarize with hs | hnew
      · rcases hj.ready he hs with hready | hpend
        · exact .inl (h.ready hready)
        · exact h.readyPending he hs hpend
      · exact .inr (hnew.2 (.inr rfl))
    · exact .inr (hnew.2 (.inl rfl))

/-! ## The steps of one process -/

theorem pending_false_setProc (hprocs : s₁.procs = s.procs) (h : Pending false s c) :
    c ∈ (s.procs i).pending false ∨ Pending false (s₁.setProc i p) c :=
  (pending_setProc s₁ p (fun c => c ∈ (s.procs i).pending false) hprocs
    (fun _ hc => .inr hc) h).symm

theorem leading_setProc (hprocs : s₁.procs = s.procs) (h : Leading s c) :
    (∃ rest, s.procs i = .todo (c :: rest)) ∨ Leading (s₁.setProc i p) c := by
  rcases h with ⟨j, rest, h⟩
  by_cases hji : j = i
  · exact .inl ⟨rest, hji ▸ h⟩
  · exact .inr ⟨j, rest, by rw [Sys.setProc_of_ne hji, hprocs, h]⟩

theorem enqueued_of_alike (h : Alike r s.db.jobs s'.db.jobs) (hk : k.isPipeline = true) :
    Enqueued s' r k ↔ Enqueued s r k := by
  rw [Enqueued, Enqueued, Live, Live, Done, Done, h.live k hk, h.done k hk]

theorem done_of_alike (h : Alike r s.db.jobs s'.db.jobs) (hk : k.isPipeline = true) :
    Done s' r k ↔ Done s r k := by
  rw [Done, Done, h.done k hk]

/-- What process `i` owes to recording `r` before a step, it owes after the step, or it
is done, or somebody else owes it. -/
structure Settles (r : Uuid) (s s' : Sys) (i : ℕ) : Prop where
  owed : ∀ y ∈ JobKind.later, (∀ p ∈ y.predecessors, Done s r p) →
    (.succ r y ∈ (s.procs i).pending false ∨ enqueue r y {} ∈ (s.procs i).pending false) →
      Enqueued s' r y ∨ Owed s' r y
  owedNext : ∀ y ∈ JobKind.later, (∀ p ∈ y.predecessors, Done s r p) →
    ((∃ rest, s.procs i = .todo (.succ r y :: rest)) ∨
      ∃ rest, s.procs i = .todo (enqueue r y {} :: rest)) → Enqueued s' r y ∨ OwedNext s' r y
  readyPending : Done s r .embed → Done s r .summarize →
    (.maybeMarkReady r ∈ (s.procs i).pending false ∨ .markReady r ∈ (s.procs i).pending false) →
      s'.db.status r = some .ready ∨ ReadyPending false s' r

section Settles
variable (hprocs : s₁.procs = s.procs) (hset : Settles r s (s₁.setProc i p) i)
include hprocs hset

theorem Settles.owed' (hy : y ∈ JobKind.later) (hdone : ∀ p ∈ y.predecessors, Done s r p)
    (h : Owed s r y) : Enqueued (s₁.setProc i p) r y ∨ Owed (s₁.setProc i p) r y := by
  rcases h with h | h
  · rcases pending_false_setProc (i := i) (p := p) hprocs h with hi | hpend
    · exact hset.owed y hy hdone (.inl hi)
    · exact .inr (.inl hpend)
  · rcases pending_false_setProc (i := i) (p := p) hprocs h with hi | hpend
    · exact hset.owed y hy hdone (.inr hi)
    · exact .inr (.inr hpend)

theorem Settles.owedNext' (hy : y ∈ JobKind.later) (hdone : ∀ p ∈ y.predecessors, Done s r p)
    (h : OwedNext s r y) : Enqueued (s₁.setProc i p) r y ∨ OwedNext (s₁.setProc i p) r y := by
  rcases h with h | h
  · rcases leading_setProc (i := i) (p := p) hprocs h with hi | hlead
    · exact hset.owedNext y hy hdone (.inl hi)
    · exact .inr (.inl hlead)
  · rcases leading_setProc (i := i) (p := p) hprocs h with hi | hlead
    · exact hset.owedNext y hy hdone (.inr hi)
    · exact .inr (.inr hlead)

theorem Settles.readyPending' (he : Done s r .embed) (hs : Done s r .summarize)
    (h : ReadyPending false s r) :
    (s₁.setProc i p).db.status r = some .ready ∨ ReadyPending false (s₁.setProc i p) r := by
  rcases h with h | h
  · rcases pending_false_setProc (i := i) (p := p) hprocs h with hi | hpend
    · exact hset.readyPending he hs (.inl hi)
    · exact .inr (.inl hpend)
  · rcases pending_false_setProc (i := i) (p := p) hprocs h with hi | hpend
    · exact hset.readyPending he hs (.inr hi)
    · exact .inr (.inr hpend)

/-- A step that leaves the pipeline's jobs as they are. -/
theorem handover_of_alike (hjobs : Alike r s.db.jobs s₁.db.jobs)
    (hknown : (s.db.status r).isSome = true → (s₁.db.status r).isSome = true)
    (hready : s.db.status r = some .ready → s₁.db.status r = some .ready) :
    Handover r s (s₁.setProc i p) where
  done _ hk h := (done_of_alike hjobs hk).mpr h
  enqueued _ hk h := (enqueued_of_alike hjobs hk).mpr h
  done_new _ hk h := .inl ((done_of_alike hjobs hk).mp h)
  enqueued_new _ hk h := .inl ((enqueued_of_alike hjobs hk).mp h)
  known := hknown
  ready := hready
  owed _ hy hdone h := hset.owed' hprocs hy hdone h
  owedNext _ hy hdone h := hset.owedNext' hprocs hy hdone h
  readyPending he hs h := hset.readyPending' hprocs he hs h

end Settles

/-- The command checks, enqueues or counts something for the pipeline of `r`. -/
def Cmd.owes (r : Uuid) (c : Cmd) : Prop :=
  (∃ y ∈ JobKind.later, c = .succ r y ∨ c = enqueue r y {}) ∨ c = .maybeMarkReady r ∨
    c = .markReady r

theorem not_owes_of_spares (h : c.spares r) : ¬ c.owes r := by
  rintro (⟨y, hy, rfl | rfl⟩ | rfl | rfl)
  · exact h rfl
  · rw [h rfl] at hy
    simp [JobKind.later] at hy
  · exact h rfl
  · exact h rfl

theorem settles_of_not_owes (h : ∀ c ∈ (s.procs i).pending false, ¬ c.owes r) :
    Settles r s s' i := by
  constructor
  · rintro y hy - (hc | hc)
    · exact (h _ hc (.inl ⟨y, hy, .inl rfl⟩)).elim
    · exact (h _ hc (.inl ⟨y, hy, .inr rfl⟩)).elim
  · rintro y hy - (⟨rest, hproc⟩ | ⟨rest, hproc⟩)
    · refine (h (.succ r y) ?_ (.inl ⟨y, hy, .inl rfl⟩)).elim
      simp [hproc, Proc.pending]
    · refine (h (enqueue r y {}) ?_ (.inl ⟨y, hy, .inr rfl⟩)).elim
      simp [hproc, Proc.pending]
  · rintro - - (hc | hc)
    · exact (h _ hc (.inr (.inl rfl))).elim
    · exact (h _ hc (.inr (.inr rfl))).elim

variable {x : Heard} {job : Job}

theorem errand_after (hnext : ∀ cs, (c.exec cfg x s.db).2 = .next cs → Errand s' r (cs ++ rest)) :
    ∀ cs, (s.after cfg x i c rest).procs i = .todo cs → Errand s' r cs := by
  intro cs hproc
  rw [Sys.after, Sys.setProc_self] at hproc
  cases hflow : (c.exec cfg x s.db).2 with
  | next cs' =>
    rw [hflow] at hproc
    cases hproc
    exact hnext cs' hflow
  | reply code => simp [hflow, advance] at hproc
  | abort => simp [hflow, advance] at hproc

/-- A command that spares the recording leaves its pipeline's jobs alone. -/
theorem spares_alike (hs : Snapshot s) (hl : Leased s) (hproc : s.procs i = .todo (c :: rest))
    (hc : c.spares r)
    (hreap : c = .reapStuck → ∀ row ∈ s.db.jobs.rows, stuck s.db.now cfg.lease row = false) :
    Alike r s.db.jobs (c.exec cfg x s.db).1.jobs := by
  have hheld {job : Job} (hjob : c.job? = some job) : Holds s i job := by
    rw [Holds, hproc]
    exact hjob
  -- a report on another recording's job touches no row of `r`
  have hother {job : Job} (hjob : c.job? = some job) (hr : job.recordingId ≠ some r) :
      ∀ j ∈ s.db.jobs.rows, (j.id == job.id) = true → j.recordingId ≠ some r := by
    intro j hj hid hjr
    have hcols := hs.columns i job j (hheld hjob) (row_eq_some.mpr ⟨hj, eq_of_beq hid⟩)
    exact hr (hcols.2.symm.trans hjr)
  cases c with
  | insertJob r' k payload strict =>
    cases hsome : (s.db.status r').isSome with
    | false =>
      have hnone : s.db.status r' = none := by simpa using hsome
      simp only [Cmd.exec, hnone, Option.isNone_none, if_true]
      exact alike_refl
    | true =>
      rcases exec_insertJob cfg x k payload strict hsome with ⟨cs, hexec⟩
      rw [hexec]
      exact alike_insert hc
  | completeJob job => exact alike_update_other keeps_completed rfl (hother rfl hc)
  | failUpdate job error n =>
    simp only [Cmd.exec]
    split
    · exact alike_refl
    · rename_i hwrite
      exact alike_update_other keeps_failed (failWrite_eq_some hwrite).2.2 (hother rfl hc)
    · rename_i hwrite
      exact alike_update_other keeps_failed (failWrite_eq_some hwrite).2.2 (hother rfl hc)
  | deferJob job delay =>
    simp only [Cmd.exec]
    split
    · exact alike_refl
    · rename_i hdefer
      apply alike_update keeps_deferred (tryUpdate_rows hdefer).1
      intro j hj hid _
      -- the worker still has its lease, so the row it hands back is running
      have hrunning := (hl.held i job j (hheld rfl) (row_eq_some.mpr ⟨hj, eq_of_beq hid⟩)).1
      exact ⟨by simp [Job.isLive, deferred, hrunning], by simp [deferred, hrunning]⟩
  | reapStuck =>
    apply alike_update keeps_reaped rfl
    intro j hj hstuck _
    rw [hreap rfl j hj] at hstuck
    cases hstuck
  | resetForReprocess r' =>
    simp only [Cmd.exec]
    split
    · apply alike_delete
      intro j hp hjr
      simp [hjr, Ne.symm hc] at hp
    · exact alike_refl
  | resetForRediarize r' =>
    simp only [Cmd.exec]
    split
    · exact alike_refl
    · split
      · apply alike_delete
        intro j hp hjr
        simp [hjr, Ne.symm hc] at hp
      · exact alike_refl
  | _ =>
    simp only [Cmd.exec, fetched]
    repeat' split
    all_goals exact alike_refl

theorem joins_spare (hs : Snapshot s) (hl : Leased s) (hj : Joins s r)
    (hproc : s.procs i = .todo (c :: rest)) (hspares : ∀ c' ∈ c :: rest, c'.spares r)
    (hreap : c = .reapStuck → ∀ row ∈ s.db.jobs.rows, stuck s.db.now cfg.lease row = false) :
    Advances r s (s.after cfg x i c rest) := by
  have hc : c.spares r := hspares c List.mem_cons_self
  have hjobs : Alike r s.db.jobs (c.exec cfg x s.db).1.jobs := spares_alike hs hl hproc hc hreap
  have hstatus (h : (s.db.status r).isSome = true) :
      (c.exec cfg x s.db).1.status r = s.db.status r := by
    apply (spares_status cfg x hc).resolve_right
    rintro ⟨hnone, -⟩
    simp [hnone] at h
  have hset : Settles r s (s.after cfg x i c rest) i := by
    apply settles_of_not_owes
    intro c' hc'
    rw [hproc] at hc'
    exact not_owes_of_spares (hspares c' hc')
  apply joins_handover (i := i) hj
  · have hprocs : ({ s with db := (c.exec cfg x s.db).1 } : Sys).procs = s.procs := rfl
    exact handover_of_alike hprocs hset hjobs
      (fun h => (hstatus h).symm ▸ h) (fun h => (hstatus (by simp [h])).trans h)
  · exact fun j => after_procs_of_ne
  · refine errand_after fun cs hflow => .spare fun c' hc' => ?_
    rcases List.mem_append.mp hc' with hc' | hc'
    · refine spares_next hc (fun hc row hrow hstuck => ?_) hflow c' hc'
      rw [hreap hc row hrow] at hstuck
      cases hstuck
    · exact hspares c' (List.mem_cons_of_mem _ hc')

end ScribeLocal.Server
