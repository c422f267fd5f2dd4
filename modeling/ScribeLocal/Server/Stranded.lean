import ScribeLocal.Server.Progress

/-! # No recording is stranded in `processing`

The status write and the enqueue are separate statements, and a job is completed
before its successors are enqueued. Where no process stands in such a gap, or was
cut off in one, a recording in `processing` has a live job.
-/
namespace ScribeLocal.Server
open Jobs Transition

variable {cfg : Config} {r : Uuid} {s s' : Sys} {a : Label}

/-- Commands whose process stands in a gap of the recording's pipeline: between a
status write and its enqueue, between completing a stage and the last of its
post-completion steps, or between parking a job and failing the recording. -/
def Cmd.IsGap (r : Uuid) : Cmd → Prop
  | .insertJob r' k _ _ => r' = r ∧ k.isPipeline = true
  | .succ r' _ | .maybeMarkReady r' | .markReady r' | .parkRecording r' => r' = r
  | _ => False

/-- Some process stands in a gap of recording `r`, or ended in one. -/
def Gap (s : Sys) (r : Uuid) : Prop := ∃ c, Pending true s c ∧ c.IsGap r

/-- A rediarize that finds a stored transcript also finds its transcribe job done, or
one that will be. -/
def Rediarizable (s : Sys) : Label → Prop
  | .step i _ => ∀ r rest, s.procs i = .todo (.resetForRediarize r :: rest) →
      (s.db.content.transcript r).isSome = true →
      Done s r .transcribe ∨ Live s r .transcribe ∨ Live s r .transcode
  | _ => True

/-- A recording in `processing` is about to be failed, or flows. -/
def Moving (s : Sys) (r : Uuid) : Prop :=
  s.db.status r = some .processing →
    Pending true s (.parkRecording r) ∨ (Flowing true s r ∧ Busy true s r)

theorem busy_ready_or {x : JobKind → Prop} {lost : Cmd → Prop}
    (hframe : Frame true r s s' x lost) (hlost : ∀ c, lost c → c ≠ .markReady r)
    (h : ReadyPending true s r) : ReadyPending true s' r ∨ lost (.maybeMarkReady r) := by
  rcases h with h | h
  · rcases hframe.pend (.maybeMarkReady r) rfl h with h' | hl
    · exact .inl (.inl h')
    · exact .inr hl
  · rcases hframe.pend (.markReady r) rfl h with h' | hl
    · exact .inl (.inr h')
    · exact absurd rfl (hlost _ hl)

/-- A step that completes nothing, hands on what it drops and keeps the status. -/
theorem moving_frame {lost : Cmd → Prop} (hframe : Frame true r s s' (fun _ => False) lost)
    (hand : Handed true r s s' lost) (hstatus : s'.db.status r = s.db.status r)
    (hlost : ∀ c, lost c → c ≠ .markReady r ∧ c ≠ .parkRecording r)
    (hcount : lost (.maybeMarkReady r) → Flowing true s r → Busy true s' r) (h : Moving s r) :
    Moving s' r := by
  intro hproc
  rcases h (hstatus ▸ hproc) with hpark | ⟨hflow, hbusy⟩
  · rcases hframe.pend (.parkRecording r) rfl hpark with hpark' | hl
    · exact .inl hpark'
    · exact absurd rfl (hlost _ hl).2
  · refine .inr ⟨flowing_frame hframe hand hflow, ?_⟩
    rcases hbusy with hready | ⟨k, hk, hbase⟩
    · rcases busy_ready_or hframe (fun c hc => (hlost c hc).1) hready with hready' | hl
      · exact .inl hready'
      · exact hcount hl hflow
    · exact busy_base_frame hframe hand hk hbase

theorem moving_completed {k : JobKind} (hframe : Frame true r s s' (· = k) (fun _ => False))
    (hstatus : s'.db.status r = s.db.status r) (hdone : Done s' r k)
    (hsucc : ∀ y ∈ k.successors, Pending true s' (.succ r y))
    (hready : k = .embed ∨ k = .summarize → Pending true s' (.maybeMarkReady r))
    (h : Moving s r) : Moving s' r := by
  intro hproc
  rcases h (hstatus ▸ hproc) with hpark | ⟨hflow, hbusy⟩
  · exact .inl ((hframe.pend (.parkRecording r) rfl hpark).resolve_right id)
  · refine .inr ⟨flowing_completed hframe hdone hsucc hflow, ?_⟩
    have hnext {y : JobKind} (hy : y ∈ k.successors) (hpipe : y.isPipeline = true) :
        Busy true s' r := (coming_successor hframe hdone hsucc hflow hy).busy hpipe
    cases k with
    | transcode => exact hnext (y := .diarize) (by decide) rfl
    | diarize => exact hnext (y := .merge) (by decide) rfl
    | transcribe => exact hnext (y := .merge) (by decide) rfl
    | merge => exact hnext (y := .embed) (by decide) rfl
    | embed => exact .inl (.inl (hready (.inl rfl)))
    | summarize => exact .inl (.inl (hready (.inr rfl)))
    | transcribeSegment =>
      rcases hbusy with hr | ⟨m, hm, hbase⟩
      · exact .inl ((busy_ready_or hframe (fun _ hf => hf.elim) hr).resolve_right id)
      · rcases base_frame hframe ⟨fun _ _ _ hf => hf.elim, fun _ hf => hf.elim⟩ hbase with hc | rfl
        · exact hc.busy hm
        · cases hm

theorem busy_of_not_done {k : JobKind} {lost : Cmd → Prop}
    (hframe : Frame true r s s' (fun _ => False) lost) (hand : Handed true r s s' lost)
    (hflow : Flowing true s r) (hk : k ∈ JobKind.later) (hno : ¬ Done s r k) :
    Busy true s' r := by
  have hc : Coming true s r k := (hflow k hk).resolve_left hno
  rcases coming_frame hframe hand hc with hc' | ⟨_, _, hx⟩
  · exact hc'.busy (JobKind.isPipeline_of_mem_later hk)
  · exact hx.elim

/-- A fresh entry into the pipeline makes every stage below it coming. -/
theorem flowing_of_transcode (h : Base true s' r .transcode) :
    Flowing true s' r ∧ Busy true s' r :=
  ⟨fun _ hk => .inr (h.coming_of_mem (JobKind.transcode_mem_upstream hk)), .inr ⟨_, rfl, h⟩⟩

theorem flowing_of_diarize (h : Base true s' r .diarize)
    (htranscribe : Done s' r .transcribe ∨ Live s' r .transcribe ∨ Live s' r .transcode) :
    Flowing true s' r ∧ Busy true s' r := by
  refine ⟨fun k hk => ?_, .inr ⟨_, rfl, h⟩⟩
  cases k with
  | transcribe =>
    rcases htranscribe with hd | hl | hl
    · exact .inl hd
    · exact .inr (Base.live hl).coming
    · exact .inr ((Base.live hl).coming_of_mem (by decide))
  | transcode | transcribeSegment => simp [JobKind.later] at hk
  | _ => exact .inr (h.coming_of_mem (by decide))

theorem moving_effect (hguard : Rediarizable s a) (h : Effect cfg true r s a s')
    (hmov : Moving s r) : Moving s' r := by
  have hnone : Handed true r s s' fun _ => False := ⟨fun _ _ _ h => h.elim, fun _ h => h.elim⟩
  cases h with
  | quiet hframe hstatus =>
    exact moving_frame hframe hnone hstatus (fun _ h => h.elim) (fun h => h.elim) hmov
  | cut i c rest hproc hframe hstatus hflow =>
    have hframe' : Frame true r s s' (fun _ => False) (fun _ => False) :=
      ⟨hframe.live, hframe.done, hframe.done_new,
        fun c hc hp => (hframe.pend c hc hp).imp_right fun hl => nomatch hl.1⟩
    exact moving_frame hframe' hnone hstatus (fun _ h => h.elim) (fun h => h.elim) hmov
  | checked k hframe hstatus hout =>
    apply moving_frame hframe _ hstatus (by rintro c rfl; exact ⟨nofun, nofun⟩) nofun hmov
    refine ⟨nofun, fun k' hk' hdone => ?_⟩
    cases hk'
    rcases hout with hpend | ⟨p, hp, hno⟩
    · exact .insert {} true hpend
    · exact absurd (hdone p hp) hno
  | inserted k payload strict hframe hstatus hlive =>
    apply moving_frame hframe _ hstatus (by rintro c rfl; exact ⟨nofun, nofun⟩) nofun hmov
    refine ⟨fun k' p' st' hk' => ?_, nofun⟩
    cases hk'
    exact .live hlive
  | counted hframe hstatus hout =>
    have hand : Handed true r s s' (· = .maybeMarkReady r) :=
      ⟨nofun, nofun⟩
    apply moving_frame hframe hand hstatus (by rintro c rfl; exact ⟨nofun, nofun⟩) _ hmov
    intro _ hflow
    rcases hout with hpend | hno
    · exact .inl (.inr hpend)
    · by_cases hembed : Done s r .embed
      · exact busy_of_not_done hframe hand hflow (by decide) fun hsum => hno ⟨hembed, hsum⟩
      · exact busy_of_not_done hframe hand hflow (by decide) hembed
  | readied hframe hstatus =>
    intro hproc
    rw [hstatus] at hproc
    cases hproc
  | parked hpend hstatus =>
    intro hproc
    rw [hstatus] at hproc
    cases hproc
  | failed hpend => exact fun _ => .inl hpend
  | completed k hframe hstatus hdone hsucc hready =>
    exact moving_completed hframe hstatus hdone hsucc hready hmov
  | restarted hpend => exact fun _ => .inr (flowing_of_transcode (.insert {} true hpend))
  | rediarized i x rest hlabel hproc htranscript hpend hstatus hlive hdone =>
    subst hlabel
    refine fun _ => .inr (flowing_of_diarize (.insert {} true hpend) ?_)
    rcases hguard r rest hproc htranscript with h | h | h
    · exact .inl (hdone _ (.inr rfl) h)
    · exact .inr (.inl (hlive _ (.inr rfl) h))
    · exact .inr (.inr (hlive _ (.inl rfl) h))
  | unknown _ hstatus' => exact fun hproc => absurd hproc hstatus'

theorem moving_run {tr : List Label} (h : Run (step cfg) Rediarizable Sys.start tr s) (r : Uuid) :
    Moving s r := by
  have hinv : Snapshot s ∧ Moving s r := by
    apply h.invariant (I := fun s => Snapshot s ∧ Moving s r)
    · exact ⟨snapshot_start, fun h => nomatch h⟩
    · rintro s a s' ⟨hs, hmov⟩ hguard hstep
      have hmoved := step_moved hstep
      exact ⟨snapshot_moved hs hmoved,
        moving_effect hguard (moved_effect hs hmoved (.inl rfl)) hmov⟩
  exact hinv.2

theorem gap_of_base {k : JobKind} (h : Base true s r k) (hk : k.isPipeline = true) :
    Live s r k ∨ Gap s r := by
  cases h with
  | live h => exact .inl h
  | insert payload strict h => exact .inr ⟨_, h, rfl, hk⟩
  | check h => exact .inr ⟨_, h, rfl⟩

/-- In every run whose rediarize requests find a transcribe job that is or will be
done: a recording in `processing` has a live pipeline job wherever no process stands
in a gap of it or ended in one. -/
theorem live_of_processing {tr : List Label} (h : Run (step cfg) Rediarizable Sys.start tr s)
    (hstatus : s.db.status r = some .processing) (hgap : ¬ Gap s r) :
    ∃ k ∈ JobKind.pipelineStages, Live s r k := by
  rcases moving_run h r hstatus with hpark | ⟨-, hready | ⟨k, hk, hbase⟩⟩
  · exact absurd ⟨_, hpark, rfl⟩ hgap
  · rcases hready with hp | hp
    · exact absurd ⟨_, hp, rfl⟩ hgap
    · exact absurd ⟨_, hp, rfl⟩ hgap
  · rcases gap_of_base hbase hk with hlive | hg
    · exact ⟨k, JobKind.mem_pipelineStages.mpr hk, hlive⟩
    · exact absurd hg hgap

/-- A complete request stops between its status write and its enqueue. -/
def strandedRun : List Label :=
  [.request 0 (.create 7), .step 0 {}, .request 1 (.complete 7 none none), .step 1 {}, .step 1 {},
    .stop 1]

def strandedState : Sys := (exec (step {}) Sys.start strandedRun).get (by decide)

theorem not_live_of_processing :
    ¬ ∀ (tr : List Label) (s : Sys) (r : Uuid), Run (step {}) anyStep Sys.start tr s →
      s.db.status r = some .processing → ∃ k ∈ JobKind.pipelineStages, Live s r k := by
  intro h
  rcases h strandedRun strandedState 7 (run_of_isSome _) (by decide) with ⟨k, -, hlive⟩
  have hno : ∀ k ∈ JobKind.all, strandedState.db.jobs.has 7 k Job.isLive = false := by decide
  rw [Live, hno k (by cases k <;> decide)] at hlive
  cases hlive

/-- The same request run to its end: nobody stands in a gap. -/
def completedRun : List Label :=
  [.request 0 (.create 7), .step 0 {}, .request 1 (.complete 7 none none), .step 1 {}, .step 1 {},
    .step 1 {}, .step 1 {}]

/-- A test that lets no rediarize request through. -/
def noRediarize (s : Sys) : Label → Bool
  | .step i _ => match s.procs i with
    | .todo (.resetForRediarize _ :: _) => false
    | _ => true
  | _ => true

theorem rediarizable_of_noRediarize (h : noRediarize s a = true) : Rediarizable s a := by
  cases a with
  | step i x =>
    intro r rest hproc
    simp [noRediarize, hproc] at h
  | _ => trivial

def completedState : Sys :=
  (exec (guarded (step {}) noRediarize) Sys.start completedRun).get (by decide)

theorem not_gap_completedState (r : Uuid) : ¬ Gap completedState r := by
  rintro ⟨c, ⟨i, hc⟩, -⟩
  match i with
  | 0 => cases hc
  | 1 => cases hc
  | n + 2 => cases hc

theorem live_of_processing_completedState :
    ∃ k ∈ JobKind.pipelineStages, Live completedState 7 k :=
  live_of_processing (run_of_guarded _ fun _ _ => rediarizable_of_noRediarize) (by decide)
    (not_gap_completedState 7)

end ScribeLocal.Server
