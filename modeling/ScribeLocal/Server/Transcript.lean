import ScribeLocal.Server.Errands
import ScribeLocal.Server.Stages

/-! # The final transcript

A live pass reads the status once and then inserts for as long as its segments last;
a merge clears the table and inserts in two statements. Where no two of them overlap,
a recording that is `ready` shows exactly what its last merge inserted.
-/
namespace ScribeLocal.Server
open Jobs Transition

variable {cfg : Config} {r : Uuid} {s s' : Sys} {a : Label} {x : Heard} {db : Db} {c c' : Cmd}
  {job : Job} {i : ℕ}

/-- A statement of a live pass that has found the recording in `uploading`. -/
def Stmt.pastCheck (r : Uuid) : Stmt → Prop
  | .liveList r' | .liveOffset r' _ | .liveInsert r' _ _ | .liveMark r' _ _ _ => r' = r
  | _ => False

/-- A live pass of `r` is under way, past its status check. -/
def LivePass (s : Sys) (r : Uuid) : Prop :=
  ∃ i job body, s.procs i = .stage job body ∧ ∃ st ∈ body, Stmt.pastCheck r st

/-- Process `i` stands between the clear and the insert of a merge of `r`. -/
def Merging (s : Sys) (r : Uuid) (i : ℕ) : Prop :=
  ∃ job body, s.procs i = .stage job (.insertMerged r :: body)

/-- A merge of `r` clears the table only while no live pass is under way, no other merge
stands between its two writes and the recording is not ready; it then goes on to its
insert, and the recording is not marked ready in between. Clients only upload and
complete. -/
def MergesAlone (r : Uuid) (s : Sys) : Label → Prop
  | .request _ q => q.spares r
  | .step i _ =>
    (∀ job body, s.procs i = .stage job (.clearUtterances r :: body) →
      ¬ LivePass s r ∧ (∀ j, ¬ Merging s r j) ∧ s.db.status r ≠ some .ready) ∧
    (∀ rest, s.procs i = .todo (.markReady r :: rest) → ∀ j, ¬ Merging s r j)
  | .stageErr i _ | .windowClosed i _ | .stop i => ¬ Merging s r i
  | _ => True

theorem MergesAlone.spares (h : MergesAlone r s a) (i : ℕ) (q : Request)
    (ha : a = .request i q) : q.spares r := by
  subst ha
  exact h

/-- Commands that only the pipeline of a completed recording issues. -/
def Cmd.late (r : Uuid) : Cmd → Prop
  | .insertJob r' k _ _ => r' = r ∧ k ≠ .transcribeSegment
  | .succ r' _ | .maybeMarkReady r' | .markReady r' => r' = r
  | _ => False

/-! ## Before the recording is completed -/

/-- Nobody has completed the recording. -/
def Open (s : Sys) (r : Uuid) : Prop :=
  s.db.status r = none ∨ s.db.status r = some .uploading

/-- While a recording is open it has live jobs only. -/
structure Early (r : Uuid) (s : Sys) : Prop where
  kinds : ∀ row ∈ s.db.jobs.rows, row.recordingId = some r → row.kind = .transcribeSegment
  held : ∀ i job, (s.procs i).job? = some job → job.recordingId = some r →
    job.kind = .transcribeSegment
  todo : ∀ i cs, s.procs i = .todo cs → ∀ c ∈ cs, ¬ c.late r

/-- A recording that is open has been so before. -/
theorem open_of_moved (h : Moved cfg s a s') (hopen : Open s' r) : Open s r := by
  cases h with
  | @cmd i c rest x hproc =>
    change (c.exec cfg x s.db).1.status r = none ∨ (c.exec cfg x s.db).1.status r = some .uploading
      at hopen
    rcases exec_status cfg x s.db c r with heq | ⟨-, hnone, -⟩ | ⟨-, hst⟩ | ⟨-, hst⟩ | ⟨-, hst⟩
    · rwa [heq] at hopen
    · exact .inl hnone
    all_goals simp [hst] at hopen
  | _ => exact hopen

theorem early_moved (hs : Snapshot s) (hno : NoEdits r s) (hearly : Open s r → Early r s)
    (h : Moved cfg s a s') (hopen : Open s' r) : Early r s' := by
  have hold := hearly (open_of_moved h hopen)
  -- the step is no status write of a complete request
  have hprocess {i : ℕ} {x : Heard} {rest : List Cmd} (ha : a = .step i x)
      (hproc : s.procs i = .todo (.markProcessing r :: rest))
      (hsome : (s.db.status r).isSome = true) : False := by
    subst ha
    obtain rfl := next_of_todo h hproc
    change (Cmd.exec cfg x s.db (.markProcessing r)).1.status r = none ∨
      (Cmd.exec cfg x s.db (.markProcessing r)).1.status r = some .uploading at hopen
    simp [Cmd.exec, hsome] at hopen
  constructor
  · intro row hrow hr
    rcases moved_rows h hrow with ⟨old, hmem, hcont⟩ |
      ⟨i, x, r', k, payload, strict, rest, -, hproc, rfl⟩
    · exact hcont.kind.trans (hold.kinds old hmem (hcont.recordingId.symm.trans hr))
    · have hlate := hold.todo i _ hproc _ List.mem_cons_self
      by_contra hne
      exact hlate ⟨Option.some.inj hr, hne⟩
  · intro i job hjob hr
    rcases moved_job hs h hjob with hheld | ⟨w, kinds, t, -, hclaim⟩
    · exact hold.held i job hheld hr
    · rcases claimOne_eq_some hclaim with ⟨j, hrow, -, hj, -⟩
      change job = claimed s.db.now w j at hj
      rw [hj] at hr ⊢
      exact hold.kinds j (row_eq_some.mp hrow).1 hr
  · apply moved_todo (P := fun c => ¬ c.late r) h hold.todo
    · intro i x c rest c' ha hproc hfollow hlate
      have hc := hold.todo i _ hproc c List.mem_cons_self
      have hedit := hno i _ hproc c List.mem_cons_self
      have hlive (job : Job) (hjob : c = .completeJob job) (hr : job.recordingId = some r) :
          job.kind = .transcribeSegment :=
        hold.held i job (by rw [hproc, hjob]; rfl) hr
      cases hfollow with
      | live | requeue => exact hlate.2 rfl
      | process hsome =>
        obtain ⟨rfl, -⟩ := hlate
        exact hprocess ha hproc hsome
      | restart | redo | summarize | reembed | resummarize => exact hedit hlate.1
      | @succ job r' y hr hy =>
        have hrr : r' = r := hlate
        rw [hlive job rfl (hrr ▸ hr)] at hy
        cases hy
      | @count job r' hr hk =>
        have hrr : r' = r := hlate
        rw [hlive job rfl (hrr ▸ hr)] at hk
        rcases hk with hk | hk <;> cases hk
      | gate => exact hc hlate.1
      | ready => exact hc hlate
      | _ => exact hlate
    · rintro i q rfl hq
      cases q <;> exact hq
    · exact id
    · exact fun _ _ _ => id
    · exact fun _ _ _ _ _ _ => id
    · exact fun _ _ _ _ _ => id

/-! ## Utterances and merges -/

/-- What one step does to the utterances of `r` and to the record of its last merge. -/
inductive Writes (r : Uuid) (s : Sys) (a : Label) (s' : Sys) : Prop
  | none (hu : s'.db.content.utterancesOf r = s.db.content.utterancesOf r)
      (hm : s'.db.content.lastMerge r = s.db.content.lastMerge r)
  | clear (i : ℕ) (x : Heard) (job : Job) (body : List Stmt) (ha : a = .step i x)
      (hproc : s.procs i = .stage job (.clearUtterances r :: body))
      (hu : s'.db.content.utterancesOf r = [])
      (hm : s'.db.content.lastMerge r = s.db.content.lastMerge r)
  | insert (i : ℕ) (x : Heard) (job : Job) (body : List Stmt) (new : List Utterance)
      (ha : a = .step i x) (hproc : s.procs i = .stage job (.insertMerged r :: body))
      (hu : s'.db.content.utterancesOf r = s.db.content.utterancesOf r ++ new)
      (hm : s'.db.content.lastMerge r = some new)
  | live (hlive : LivePass s r) (hm : s'.db.content.lastMerge r = s.db.content.lastMerge r)

theorem moved_writes (hst : Staged s) (hno : NoEdits r s) (h : Moved cfg s a s') :
    Writes r s a s' := by
  cases h with
  | @stmt i job st body c sts x hproc hexec =>
    have hstage := (hst.body i job _ hproc st List.mem_cons_self).2
    have hnot : ∀ idx, st ≠ .deleteSpeaker r idx := by
      rintro idx rfl
      cases hstage
    rcases exec_utterances hexec hnot with ⟨hu, hm⟩ | ⟨rfl, hu, hm⟩ | ⟨rfl, new, hu, hm⟩ |
      ⟨offset, segments, rfl, hm⟩
    · exact .none hu hm
    · exact .clear i x job body rfl hproc hu hm
    · exact .insert i x job body new rfl hproc hu hm
    · exact .live ⟨i, job, _, hproc, _, List.mem_cons_self, rfl⟩ hm
  | @cmd i c rest x hproc =>
    have hedit := hno i _ hproc c List.mem_cons_self
    cases c with
    | content st =>
      have hstage := hst.handler i _ hproc st List.mem_cons_self
      have hnot : ∀ idx, st ≠ .deleteSpeaker r idx := by
        rintro idx rfl
        exact hedit rfl
      simp only [Cmd.exec]
      cases hexec : st.exec s.db.now s.db.status x s.db.content with
      | none => exact .none rfl rfl
      | some y =>
        rcases y with ⟨c', sts⟩
        rcases exec_utterances hexec hnot with ⟨hu, hm⟩ | ⟨rfl, -⟩ | ⟨rfl, -⟩ | ⟨_, _, rfl, -⟩
        · exact .none hu hm
        all_goals cases hstage
    | resetForReprocess r' =>
      simp only [Cmd.exec]
      split
      · exact .none (reset_utterances hedit) rfl
      · exact .none rfl rfl
    | resetForRediarize r' =>
      simp only [Cmd.exec]
      split
      · exact .none rfl rfl
      · split
        · exact .none (reset_utterances hedit) rfl
        · exact .none rfl rfl
    | _ =>
      simp only [Cmd.exec, fetched]
      repeat' split
      all_goals exact .none rfl rfl
  | _ => exact .none rfl rfl

/-! ## Before the first merge -/

/-- Commands that come only after a merge of `r`. -/
def Cmd.beyondMerge (r : Uuid) : Cmd → Prop
  | .insertJob r' k _ _ => r' = r ∧ k = .embed
  | .markReady r' => r' = r
  | .completeJob job => job.recordingId = some r ∧ job.kind = .merge
  | _ => False

/-- While no merge has inserted anything, none is done and nothing after it exists. -/
structure Unmerged (r : Uuid) (s : Sys) : Prop where
  done : ¬ Done s r .merge
  rows : ∀ row ∈ s.db.jobs.rows, row.recordingId = some r → row.kind ≠ .embed
  finished : ∀ i job, s.procs i = .stage job [] → job.recordingId = some r → job.kind ≠ .merge
  todo : ∀ i cs, s.procs i = .todo cs → ∀ c ∈ cs, ¬ c.beyondMerge r

theorem lastMerge_of_moved (hst : Staged s) (hno : NoEdits r s) (h : Moved cfg s a s')
    (hnone : s'.db.content.lastMerge r = none) : s.db.content.lastMerge r = none := by
  cases moved_writes hst hno h with
  | none _ hm | clear _ _ _ _ _ _ _ hm | live _ hm => exact hm.symm.trans hnone
  | insert _ _ _ _ _ _ _ _ hm => cases hm.symm.trans hnone

/-- The last statement of a merge is its insert. -/
theorem suffix_merge_singleton {r₀ : Uuid} {st : Stmt} (h : [st] <:+
    [.getTranscript r₀, .getDiarization r₀, .clearUtterances r₀, .insertMerged r₀]) :
    st = .insertMerged r₀ := by
  rcases h with ⟨front, h⟩
  have hlast := congrArg List.getLast? h
  simpa using hlast

theorem finished_moved (hst : Staged s) (hold : ∀ i job, s.procs i = .stage job [] →
      job.recordingId = some r → job.kind ≠ .merge)
    (hnone : s'.db.content.lastMerge r = none) (h : Moved cfg s a s') :
    ∀ i job, s'.procs i = .stage job [] → job.recordingId = some r → job.kind ≠ .merge := by
  have hset {k : ℕ} {p : Proc} {s₁ : Sys} (hprocs : s₁.procs = s.procs)
      (hp : ∀ job, p = .stage job [] → job.recordingId = some r → job.kind ≠ .merge) (i : ℕ)
      (job : Job) (hproc : (s₁.setProc k p).procs i = .stage job []) :
      job.recordingId = some r → job.kind ≠ .merge := by
    by_cases hik : i = k
    · rw [hik, Sys.setProc_self] at hproc
      exact hp job hproc
    · rw [Sys.setProc_of_ne hik, hprocs] at hproc
      exact hold i job hproc
  cases h with
  | tick | heartbeat => exact hold
  | request | reaper | stmtErr | bodyDone | stageErr | windowClosed =>
    apply hset rfl
    intro job hp
    cases hp
  | @claim i w kinds id j t =>
    apply hset (show (s.setJobs t).procs = s.procs from rfl)
    intro job hp hr hk
    rcases Proc.stage.inj hp with ⟨rfl, hbody⟩
    simp [jobBody, hr, hk, stageBody] at hbody
  | @cmd i c rest x hproc =>
    have hprocs : ({ s with db := (c.exec cfg x s.db).1 } : Sys).procs = s.procs := rfl
    apply hset hprocs
    intro job hp
    cases hflow : (c.exec cfg x s.db).2 <;> rw [hflow] at hp <;> cases hp
  | @stop i =>
    apply hset rfl
    intro job hp
    cases hproc : s.procs i <;> rw [hproc] at hp <;> cases hp
  | @stmt i job st body c sts x hproc hexec =>
    have hprocs : ({ s with db := { s.db with content := c } } : Sys).procs = s.procs := rfl
    apply hset hprocs
    intro job' hp hr hk
    rcases Proc.stage.inj hp with ⟨rfl, hbody⟩
    rcases hst.merge i job _ hproc hk with ⟨r₀, hsuffix⟩
    rw [(List.append_eq_nil_iff.mp hbody).2] at hsuffix
    have hins := suffix_merge_singleton hsuffix
    have hrec := (hst.body i job _ hproc st List.mem_cons_self).1
    rw [hins] at hexec hrec
    have hrr : r₀ = r := Option.some.inj (hrec.symm.trans hr)
    cases hexec
    simp [hrr] at hnone

theorem unmerged_moved (hs : Snapshot s) (hst : Staged s) (hno : NoEdits r s)
    (hold : s.db.content.lastMerge r = none → Unmerged r s) (h : Moved cfg s a s')
    (hnone : s'.db.content.lastMerge r = none) : Unmerged r s' := by
  have hun := hold (lastMerge_of_moved hst hno h hnone)
  constructor
  · intro hdone
    rcases moved_done hs h hdone with hd | ⟨i, x, job, rest, -, hproc, hr, hk⟩
    · exact hun.done hd
    · exact hun.todo i _ hproc _ List.mem_cons_self ⟨hr, hk⟩
  · intro row hrow hr hk
    rcases moved_rows h hrow with ⟨old, hmem, hcont⟩ |
      ⟨i, x, r', k, payload, strict, rest, -, hproc, rfl⟩
    · exact hun.rows old hmem (hcont.recordingId.symm.trans hr) (hcont.kind.symm.trans hk)
    · exact hun.todo i _ hproc _ List.mem_cons_self ⟨Option.some.inj hr, hk⟩
  · exact finished_moved hst hun.finished hnone h
  · apply moved_todo (P := fun c => ¬ c.beyondMerge r) h hun.todo
    · intro i x c rest c' _ hproc hfollow hbeyond
      have hedit := hno i _ hproc c List.mem_cons_self
      cases hfollow with
      | reembed => exact hedit hbeyond.1
      | gate hdone =>
        obtain ⟨rfl, rfl⟩ := hbeyond
        rw [predecessorsDone, List.all_eq_true] at hdone
        exact hun.done (hdone .merge (by decide))
      | ready hdone =>
        obtain rfl := hbeyond
        rw [embedAndSummarizeDone, Bool.and_eq_true] at hdone
        rcases has_iff.mp hdone.1 with ⟨row, hrow, hk, -⟩
        exact hun.rows row hrow hk.1 hk.2
      | live | process | restart | redo | summarize | resummarize | requeue =>
        cases hbeyond.2
      | _ => exact hbeyond
    · rintro i q rfl hq
      cases q <;> exact hq
    · exact id
    · exact fun i job hproc hbeyond => hun.finished i job hproc hbeyond.1 hbeyond.2
    · exact fun _ _ _ _ _ _ => id
    · exact fun _ _ _ _ _ => id

/-! ## The two windows -/

theorem suffix_merge_cons {r₀ : Uuid} {st : Stmt} {body : List Stmt}
    (h : st :: .insertMerged r :: body <:+
      [.getTranscript r₀, .getDiarization r₀, .clearUtterances r₀, .insertMerged r₀]) :
    st = .clearUtterances r := by
  simp [List.suffix_cons_iff] at h
  rw [h.1, h.2.1]

theorem suffix_merge_clear {r₀ : Uuid} {body : List Stmt} (h : .clearUtterances r :: body <:+
    [.getTranscript r₀, .getDiarization r₀, .clearUtterances r₀, .insertMerged r₀]) :
    body = [.insertMerged r] := by
  simp [List.suffix_cons_iff] at h
  rw [h.1, h.2]

/-- A process stands between clear and insert because it stood there, or has just cleared. -/
theorem merging_moved (hst : Staged s) (h : Moved cfg s a s') {j : ℕ} (hmerging : Merging s' r j) :
    (Merging s r j ∧ ∀ x, a ≠ .step j x) ∨
      ∃ x job body, a = .step j x ∧ s.procs j = .stage job (.clearUtterances r :: body) := by
  rcases hmerging with ⟨job, body, hproc'⟩
  have hother {k : ℕ} {p : Proc} {s₁ : Sys} (hprocs : s₁.procs = s.procs) (hjk : j ≠ k)
      (hproc' : (s₁.setProc k p).procs j = .stage job (.insertMerged r :: body)) :
      Merging s r j := by
    rw [Sys.setProc_of_ne hjk, hprocs] at hproc'
    exact ⟨job, body, hproc'⟩
  cases h with
  | tick | heartbeat => exact .inl ⟨⟨job, body, hproc'⟩, by rintro _ ⟨⟩⟩
  | @request k | @reaper k | @stageErr k | @windowClosed k =>
    by_cases hjk : j = k
    · rw [hjk, Sys.setProc_self] at hproc'
      cases hproc'
    · exact .inl ⟨hother rfl hjk hproc', by rintro _ ⟨⟩⟩
  | @stmtErr k _ _ _ x | @bodyDone k _ x =>
    by_cases hjk : j = k
    · rw [hjk, Sys.setProc_self] at hproc'
      cases hproc'
    · exact .inl ⟨hother rfl hjk hproc', fun _ heq => hjk (Label.step.inj heq).1.symm⟩
  | @claim k w kinds id j₀ t =>
    by_cases hjk : j = k
    · rw [hjk, Sys.setProc_self] at hproc'
      rcases Proc.stage.inj hproc' with ⟨rfl, hbody⟩
      have hmem : .insertMerged r ∈ jobBody cfg j₀ := hbody ▸ List.mem_cons_self
      have hstage := jobBody_stage hmem
      simp [jobBody, hstage.1, ← Option.some.inj hstage.2, stageBody] at hbody
    · exact .inl ⟨hother (show (s.setJobs t).procs = s.procs from rfl) hjk hproc', by rintro _ ⟨⟩⟩
  | @cmd k c rest x hproc =>
    by_cases hjk : j = k
    · rw [hjk, Sys.setProc_self] at hproc'
      cases hflow : (c.exec cfg x s.db).2 <;> rw [hflow] at hproc' <;> cases hproc'
    · have hprocs : ({ s with db := (c.exec cfg x s.db).1 } : Sys).procs = s.procs := rfl
      exact .inl ⟨hother hprocs hjk hproc', fun _ heq => hjk (Label.step.inj heq).1.symm⟩
  | @stop k =>
    by_cases hjk : j = k
    · rw [hjk, Sys.setProc_self] at hproc'
      cases hproc : s.procs k <;> rw [hproc] at hproc' <;> cases hproc'
    · exact .inl ⟨hother rfl hjk hproc', by rintro _ ⟨⟩⟩
  | @stmt k job₀ st body₀ c sts x hproc hexec =>
    by_cases hjk : j = k
    · right
      rw [hjk, Sys.setProc_self] at hproc'
      rcases Proc.stage.inj hproc' with ⟨rfl, hbody⟩
      have hstage := (hst.body k job₀ _ hproc st List.mem_cons_self).2
      have hmem : .insertMerged r ∈ sts ++ body₀ := hbody ▸ List.mem_cons_self
      have hk : job₀.kind = .merge := by
        rcases List.mem_append.mp hmem with hmem | hmem
        · have hfollow := (Stmt.exec_follows hexec hmem).2.1
          exact Option.some.inj (hstage.symm.trans hfollow.symm)
        · have hbody := (hst.body k job₀ _ hproc _ (List.mem_cons_of_mem _ hmem)).2
          exact (Option.some.inj hbody).symm
      rcases hst.merge k job₀ _ hproc hk with ⟨r₀, hsuffix⟩
      rw [follows_merge hexec (hk ▸ hstage), List.nil_append] at hbody
      rw [hbody] at hsuffix hproc
      rw [suffix_merge_cons hsuffix] at hproc
      exact ⟨x, job₀, _, hjk ▸ rfl, hjk ▸ hproc⟩
    · have hprocs : ({ s with db := { s.db with content := c } } : Sys).procs = s.procs := rfl
      exact .inl ⟨hother hprocs hjk hproc', fun _ heq => hjk (Label.step.inj heq).1.symm⟩

/-- It goes on standing there until its insert. -/
theorem merging_kept (hok : MergesAlone r s a) (h : Moved cfg s a s') {j : ℕ}
    (hmerging : Merging s r j) :
    Merging s' r j ∨ ∃ x job body, a = .step j x ∧
      s.procs j = .stage job (.insertMerged r :: body) := by
  rcases hmerging with ⟨job, body, hproc⟩
  have hother {k : ℕ} {p : Proc} {s₁ : Sys} (hprocs : s₁.procs = s.procs) (hjk : j ≠ k) :
      Merging (s₁.setProc k p) r j :=
    ⟨job, body, by rw [Sys.setProc_of_ne hjk, hprocs, hproc]⟩
  cases h with
  | tick | heartbeat => exact .inl ⟨job, body, hproc⟩
  | request q hidle | reaper hidle =>
    refine .inl (hother rfl ?_)
    rintro rfl
    cases hproc.symm.trans hidle
  | @claim i w kinds id j₀ t hidle =>
    refine .inl (hother (show (s.setJobs t).procs = s.procs from rfl) ?_)
    rintro rfl
    cases hproc.symm.trans hidle
  | @cmd i c rest x hproc' =>
    have hprocs : ({ s with db := (c.exec cfg x s.db).1 } : Sys).procs = s.procs := rfl
    refine .inl (hother hprocs ?_)
    rintro rfl
    cases hproc.symm.trans hproc'
  | @stmt i job₀ st body₀ c sts x hproc' =>
    by_cases hji : j = i
    · subst hji
      exact .inr ⟨x, job, body, rfl, hproc⟩
    · have hprocs : ({ s with db := { s.db with content := c } } : Sys).procs = s.procs := rfl
      exact .inl (hother hprocs hji)
  | @stmtErr i job₀ st body₀ x hproc' =>
    by_cases hji : j = i
    · subst hji
      exact .inr ⟨x, job, body, rfl, hproc⟩
    · exact .inl (hother rfl hji)
  | @bodyDone i job₀ x hproc' =>
    refine .inl (hother rfl ?_)
    rintro rfl
    cases hproc.symm.trans hproc'
  | @stageErr i | @windowClosed i | @stop i =>
    refine .inl (hother rfl ?_)
    rintro rfl
    exact hok ⟨job, body, hproc⟩

theorem follows_pastCheck {now : Time} {status : Uuid → Option RecordingStatus} {c c' : Content}
    {st st' : Stmt} {sts : List Stmt} (h : st.exec now status x c = some (c', sts))
    (hst' : st' ∈ sts) (hpast : Stmt.pastCheck r st') :
    Stmt.pastCheck r st ∨ (st = .liveStatus r ∧ status r = some .uploading) := by
  have hrec := (Stmt.exec_follows h hst').1
  have hstage := (Stmt.exec_follows h hst').2.1
  have hr : st'.recording = r ∧ st'.stage = some .transcribeSegment := by
    cases st' <;> first | exact ⟨hpast, rfl⟩ | cases hpast
  rw [hrec, hstage] at hr
  cases st with
  | liveStatus r' =>
    right
    obtain rfl : r' = r := hr.1
    simp only [Stmt.exec] at h
    split at h
    · cases h
    · rename_i status' hstatus
      split at h
      · rename_i huploading
        exact ⟨rfl, huploading ▸ hstatus⟩
      · cases h
        cases hst'
  | liveList | liveOffset | liveInsert | liveMark => exact .inl hr.1
  | _ => cases hr.2

/-- A live pass gets past its check only while the recording is in `uploading`. -/
theorem livePass_moved (h : Moved cfg s a s') (hlive : LivePass s' r) :
    LivePass s r ∨ s.db.status r = some .uploading := by
  rcases hlive with ⟨i, job, body, hproc', st', hst', hpast⟩
  have hset {k : ℕ} {p : Proc} {s₁ : Sys} (hprocs : s₁.procs = s.procs)
      (hproc' : (s₁.setProc k p).procs i = .stage job body)
      (hp : p = .stage job body → LivePass s r ∨ s.db.status r = some .uploading) :
      LivePass s r ∨ s.db.status r = some .uploading := by
    by_cases hik : i = k
    · rw [hik, Sys.setProc_self] at hproc'
      exact hp hproc'
    · rw [Sys.setProc_of_ne hik, hprocs] at hproc'
      exact .inl ⟨i, job, body, hproc', st', hst', hpast⟩
  cases h with
  | tick | heartbeat => exact .inl ⟨i, job, body, hproc', st', hst', hpast⟩
  | request | reaper | stmtErr | bodyDone | stageErr | windowClosed =>
    apply hset rfl hproc'
    intro hp
    cases hp
  | @claim k w kinds id j t =>
    apply hset (show (s.setJobs t).procs = s.procs from rfl) hproc'
    intro hp
    rcases Proc.stage.inj hp with ⟨rfl, hbody⟩
    rw [← hbody] at hst'
    unfold jobBody at hst'
    split at hst'
    · cases hst'
    · cases hk : j.kind <;> simp [hk, stageBody] at hst'
      all_goals (try rcases hst' with rfl | rfl | rfl | rfl)
      all_goals exact hpast.elim
  | @cmd k c rest x hproc =>
    have hprocs : ({ s with db := (c.exec cfg x s.db).1 } : Sys).procs = s.procs := rfl
    apply hset hprocs hproc'
    intro hp
    cases hflow : (c.exec cfg x s.db).2 <;> rw [hflow] at hp <;> cases hp
  | @stop k =>
    apply hset rfl hproc'
    intro hp
    cases hproc : s.procs k <;> rw [hproc] at hp <;> cases hp
  | @stmt k job₀ st body₀ c sts x hproc hexec =>
    have hprocs : ({ s with db := { s.db with content := c } } : Sys).procs = s.procs := rfl
    apply hset hprocs hproc'
    intro hp
    rcases Proc.stage.inj hp with ⟨rfl, hbody⟩
    rw [← hbody] at hst'
    rcases List.mem_append.mp hst' with hst' | hst'
    · rcases follows_pastCheck hexec hst' hpast with hpast | ⟨-, hst⟩
      · exact .inl ⟨k, job₀, _, hproc, st, List.mem_cons_self, hpast⟩
      · exact .inr hst
    · exact .inl ⟨k, job₀, _, hproc, st', List.mem_cons_of_mem _ hst', hpast⟩

/-! ## Whole runs -/

theorem moved_clear (hst : Staged s) (h : Moved cfg s (.step i x) s') {body : List Stmt}
    (hproc : s.procs i = .stage job (.clearUtterances r :: body)) :
    s'.db.content.utterancesOf r = [] ∧ Merging s' r i := by
  obtain rfl := next_of_stage h hproc rfl
  have hk := (hst.body i job _ hproc _ List.mem_cons_self).2
  rcases hst.merge i job _ hproc (Option.some.inj hk).symm with ⟨r₀, hsuffix⟩
  refine ⟨utterancesOf_clear, job, [], ?_⟩
  rw [Sys.setProc_self, suffix_merge_clear hsuffix]
  rfl

theorem moved_insert (h : Moved cfg s (.step i x) s') {body : List Stmt}
    (hproc : s.procs i = .stage job (.insertMerged r :: body)) :
    ∃ new, s'.db.content.utterancesOf r = s.db.content.utterancesOf r ++ new ∧
      s'.db.content.lastMerge r = some new := by
  obtain rfl := next_of_stage h hproc rfl
  exact ⟨_, utterancesOf_insert_self, by simp⟩

/-- What holds of the utterances of `r` while its merges stay alone. -/
structure Replaces (r : Uuid) (s : Sys) : Prop where
  closed : ((s.db.content.lastMerge r).isSome = true ∨ ∃ j, Merging s r j) →
    ¬ LivePass s r ∧ ¬ Open s r
  alone : ∀ i, Merging s r i → s.db.content.utterancesOf r = [] ∧ ∀ j, Merging s r j → j = i
  settled : ∀ rows, s.db.content.lastMerge r = some rows →
    s.db.content.utterancesOf r = rows ∨ ∃ j, Merging s r j
  ready : s.db.status r = some .ready →
    (s.db.content.lastMerge r).isSome = true ∧ ∀ j, ¬ Merging s r j

/-- The invariant of a run in which merges stay alone. -/
structure Merged (r : Uuid) (s : Sys) : Prop where
  snapshot : Snapshot s
  staged : Staged s
  noEdits : NoEdits r s
  early : Open s r → Early r s
  unmerged : s.db.content.lastMerge r = none → Unmerged r s
  replaces : Replaces r s

theorem lastMerge_isSome_moved (hst : Staged s) (hno : NoEdits r s) (h : Moved cfg s a s')
    (hsome : (s.db.content.lastMerge r).isSome = true) :
    (s'.db.content.lastMerge r).isSome = true := by
  by_contra hnone
  rw [lastMerge_of_moved hst hno h (by simpa using hnone)] at hsome
  cases hsome

theorem ready_moved (h : Moved cfg s a s') (hready : s'.db.status r = some .ready) :
    s.db.status r = some .ready ∨
      ∃ i x rest, a = .step i x ∧ s.procs i = .todo (.markReady r :: rest) := by
  cases h with
  | @cmd i c rest x hproc =>
    change (c.exec cfg x s.db).1.status r = some .ready at hready
    rcases exec_status cfg x s.db c r with h | ⟨-, -, h⟩ | ⟨-, h⟩ | ⟨rfl, -⟩ | ⟨-, h⟩
    · exact .inl (h.symm.trans hready)
    · cases h.symm.trans hready
    · cases h.symm.trans hready
    · exact .inr ⟨i, x, rest, rfl, hproc⟩
    · cases h.symm.trans hready
  | _ => exact .inl hready

/-- A merge of `r` clears only after the recording was completed. -/
theorem not_open_of_clear (hm : Merged r s) {body : List Stmt}
    (hproc : s.procs i = .stage job (.clearUtterances r :: body)) : ¬ Open s r := by
  intro hopen
  have hbody := hm.staged.body i job _ hproc _ List.mem_cons_self
  have hkind := (hm.early hopen).held i job (by rw [hproc]; rfl) hbody.1
  rw [hkind] at hbody
  cases hbody.2

theorem replaces_moved (hm : Merged r s) (hok : MergesAlone r s a) (h : Moved cfg s a s') :
    Replaces r s' := by
  have hrep := hm.replaces
  have hclear {j : ℕ} {x : Heard} {job : Job} {body : List Stmt} (ha : a = .step j x)
      (hproc : s.procs j = .stage job (.clearUtterances r :: body)) :
      ¬ LivePass s r ∧ (∀ j, ¬ Merging s r j) ∧ s.db.status r ≠ some .ready := by
    subst ha
    exact hok.1 job body hproc
  constructor
  · intro hafter
    have hbefore : ¬ LivePass s r ∧ ¬ Open s r := by
      rcases hafter with hsome | ⟨j, hj⟩
      · cases moved_writes hm.staged hm.noEdits h with
        | none _ hl | clear _ _ _ _ _ _ _ hl | live _ hl => exact hrep.closed (.inl (hl ▸ hsome))
        | insert i _ job body _ _ hproc => exact hrep.closed (.inr ⟨i, job, body, hproc⟩)
      · rcases merging_moved hm.staged h hj with ⟨hold, -⟩ | ⟨x, job, body, ha, hproc⟩
        · exact hrep.closed (.inr ⟨j, hold⟩)
        · exact ⟨(hclear ha hproc).1, not_open_of_clear hm hproc⟩
    refine ⟨fun hlive => ?_, fun hopen => hbefore.2 (open_of_moved h hopen)⟩
    rcases livePass_moved h hlive with hlive | hst
    · exact hbefore.1 hlive
    · exact hbefore.2 (.inr hst)
  · intro i hi
    rcases merging_moved hm.staged h hi with ⟨hold, hnot⟩ | ⟨x, job, body, ha, hproc⟩
    · have halone := hrep.alone i hold
      constructor
      · cases moved_writes hm.staged hm.noEdits h with
        | none hu => exact hu.trans halone.1
        | clear _ _ _ _ ha hproc => exact absurd hold ((hclear ha hproc).2.1 i)
        | insert j x job body _ ha hproc =>
          cases halone.2 j ⟨job, body, hproc⟩
          exact absurd ha (hnot x)
        | live hlive => exact absurd hlive (hrep.closed (.inr ⟨i, hold⟩)).1
      · intro j hj
        rcases merging_moved hm.staged h hj with ⟨holdj, -⟩ | ⟨x, job, body, ha, hproc⟩
        · exact halone.2 j holdj
        · exact absurd hold ((hclear ha hproc).2.1 i)
    · subst ha
      refine ⟨(moved_clear hm.staged h hproc).1, fun j hj => ?_⟩
      rcases merging_moved hm.staged h hj with ⟨holdj, -⟩ | ⟨x', job', body', ha', -⟩
      · exact absurd holdj ((hclear rfl hproc).2.1 j)
      · exact (Label.step.inj ha').1.symm
  · intro rows hrows
    by_cases hins : ∃ i x job body, a = .step i x ∧
        s.procs i = .stage job (.insertMerged r :: body)
    · rcases hins with ⟨i, x, job, body, rfl, hproc⟩
      rcases moved_insert h hproc with ⟨new, hu, hl⟩
      rw [(hrep.alone i ⟨job, body, hproc⟩).1, List.nil_append] at hu
      exact .inl (hu.trans (Option.some.inj (hl.symm.trans hrows)))
    · cases moved_writes hm.staged hm.noEdits h with
      | none hu hl =>
        rcases hrep.settled rows (hl.symm.trans hrows) with heq | ⟨j, hj⟩
        · exact .inl (hu.trans heq)
        · rcases merging_kept hok h hj with hkept | ⟨x, job, body, ha, hproc⟩
          · exact .inr ⟨j, hkept⟩
          · exact absurd ⟨j, x, job, body, ha, hproc⟩ hins
      | clear i x job body ha hproc =>
        subst ha
        exact .inr ⟨i, (moved_clear hm.staged h hproc).2⟩
      | insert i x job body _ ha hproc => exact absurd ⟨i, x, job, body, ha, hproc⟩ hins
      | live hlive hl =>
        exact absurd hlive (hrep.closed (.inl (by rw [← hl, hrows]; rfl))).1
  · intro hready
    have hnow : (s.db.content.lastMerge r).isSome = true ∧ (∀ j, ¬ Merging s r j) ∧
        ∀ j x job body, a = .step j x →
          s.procs j ≠ .stage job (.clearUtterances r :: body) := by
      rcases ready_moved h hready with hold | ⟨i, x, rest, rfl, hproc⟩
      · have h₀ := hrep.ready hold
        exact ⟨h₀.1, h₀.2, fun j x job body ha hproc => (hclear ha hproc).2.2 hold⟩
      · refine ⟨?_, hok.2 rest hproc, ?_⟩
        · by_contra hnone
          have hun := hm.unmerged (by simpa using hnone)
          exact hun.todo i _ hproc _ List.mem_cons_self rfl
        · intro j x' job body ha hproc'
          cases (Label.step.inj ha).1
          cases hproc.symm.trans hproc'
    refine ⟨lastMerge_isSome_moved hm.staged hm.noEdits h hnow.1, fun j hj => ?_⟩
    rcases merging_moved hm.staged h hj with ⟨hold, -⟩ | ⟨x, job, body, ha, hproc⟩
    · exact hnow.2.1 j hold
    · exact hnow.2.2 j x job body ha hproc

theorem merged_start : Merged r Sys.start where
  snapshot := snapshot_start
  staged := staged_start
  noEdits _ _ h := nomatch h
  early _ :=
    { kinds := fun _ h => nomatch h
      held := fun _ _ h => nomatch h
      todo := fun _ _ h => nomatch h }
  unmerged _ :=
    { done := fun h => nomatch h
      rows := fun _ h => nomatch h
      finished := fun _ _ h => nomatch h
      todo := fun _ _ h => nomatch h }
  replaces := by
    have hno (i : ℕ) : ¬ Merging Sys.start r i := fun ⟨_, _, h⟩ => nomatch h
    refine ⟨?_, fun i hi => absurd hi (hno i), nofun, nofun⟩
    rintro (h | ⟨j, hj⟩)
    · cases h
    · exact absurd hj (hno j)

theorem merged_run {tr : List Label} (h : Run (step cfg) (MergesAlone r) Sys.start tr s) :
    Merged r s := by
  apply h.invariant merged_start
  intro s a s' hm hok hstep
  have hmoved := step_moved hstep
  exact ⟨snapshot_moved hm.snapshot hmoved, staged_moved hm.staged hmoved,
    noEdits_moved hm.noEdits hok.spares hmoved,
    early_moved hm.snapshot hm.noEdits hm.early hmoved,
    unmerged_moved hm.snapshot hm.staged hm.noEdits hm.unmerged hmoved,
    replaces_moved hm hok hmoved⟩

/-- In every run in which merges stay alone, a recording that is ready shows exactly the
utterances its last merge inserted. -/
theorem utterances_of_ready {tr : List Label}
    (h : Run (step cfg) (MergesAlone r) Sys.start tr s) (hready : s.db.status r = some .ready) :
    ∃ rows, s.db.content.lastMerge r = some rows ∧ s.db.content.utterancesOf r = rows := by
  have hrep := (merged_run h).replaces
  rcases hrep.ready hready with ⟨hsome, hno⟩
  rcases Option.isSome_iff_exists.mp hsome with ⟨rows, hrows⟩
  rcases hrep.settled rows hrows with heq | ⟨j, hj⟩
  · exact ⟨rows, hrows, heq⟩
  · exact absurd hj (hno j)

/-- Clients only upload and complete, and no stage fails or stops. -/
def Smooth (r : Uuid) (_ : Sys) : Label → Prop
  | .request _ q => q.spares r
  | .stageErr _ _ | .windowClosed _ _ | .stop _ => False
  | _ => True

/-- A live pass of recording 7 outlasts its whole pipeline. -/
def outlastRun : List Label :=
  [Label.request 0 (.create 7)] ++ steps 0 1 ++ [Label.request 1 (.putSegment 7 0 none none)] ++ steps 1 4 ++
  [Label.claim 2 1 [.transcribeSegment] 1] ++ steps 2 3 ++
  [Label.request 3 (.complete 7 none none)] ++ steps 3 4 ++
  [Label.claim 4 2 [.transcode] 2] ++ steps 4 8 ++ [Label.claim 5 2 [.diarize] 3] ++ steps 5 7 ++
  [Label.claim 6 2 [.transcribe] 4] ++ steps 6 5 ++ [Label.claim 7 2 [.merge] 5] ++ steps 7 10 ++
  [Label.claim 8 2 [.embed] 6] ++ steps 8 5 ++ [Label.claim 9 2 [.summarize] 7] ++ steps 9 6 ++
  -- the recording is ready; the live pass inserts what it has decoded
  [.step 2 { utterances := [⟨none, 0, 1000, "", []⟩], durationMs := 1000 }]

def smooth : Label → Bool
  | .request _ (.create _) | .request _ (.putSegment _ _ _ _) | .request _ (.complete _ _ _) => true
  | .tick _ | .claim _ _ _ _ | .step _ _ | .heartbeat _ => true
  | _ => false

theorem smooth_of_test (h : smooth a = true) : Smooth r s a := by
  cases a with
  | request i q =>
    cases q with
    | create | putSegment | complete => trivial
    | _ => cases h
  | stageErr | windowClosed | stop | reaper => cases h
  | _ => trivial

def outlastState : Sys :=
  (exec (guarded (step {}) fun _ => smooth) Sys.start outlastRun).get (by decide +kernel)

/-- A provisional utterance is added behind the final transcript. -/
theorem not_utterances_of_ready :
    ¬ ∀ (tr : List Label) (s : Sys) (r : Uuid), Run (step {}) (Smooth r) Sys.start tr s →
      s.db.status r = some .ready → ∃ rows, s.db.content.lastMerge r = some rows ∧
        s.db.content.utterancesOf r = rows := by
  intro h
  have hmerge : (outlastState.db.content.lastMerge 7).map List.length = some 0 := by decide +kernel
  have hlen : (outlastState.db.content.utterancesOf 7).length = 1 := by decide +kernel
  rcases h outlastRun outlastState 7 (run_of_guarded _ fun _ _ => smooth_of_test)
    (by decide +kernel) with ⟨rows, hrows, heq⟩
  rw [hrows, ← heq] at hmerge
  simp [hlen] at hmerge

/-! A live pass to its end, and a whole pipeline after it: up to the clear of its merge, from there to
the status write, and the write. -/

def Proc.body : Proc → List Stmt
  | .stage _ body => body
  | _ => []

/-- A test that stops short of a clear and of a status write. -/
def shortOf (s : Sys) : Label → Bool
  | .request _ (.create _) | .request _ (.putSegment _ _ _ _) | .request _ (.complete _ _ _) => true
  | .step i _ =>
    match s.procs i with
    | .stage _ (.clearUtterances _ :: _) | .todo (.markReady _ :: _) => false
    | _ => true
  | .tick _ | .claim _ _ _ _ | .heartbeat _ => true
  | _ => false

theorem mergesAlone_of_shortOf (h : shortOf s a = true) : MergesAlone r s a := by
  cases a with
  | request i q =>
    cases q with
    | create | putSegment | complete => trivial
    | _ => cases h
  | step i x =>
    constructor
    · intro job body hproc
      simp [shortOf, hproc] at h
    · intro rest hproc
      simp [shortOf, hproc] at h
  | stageErr | windowClosed | stop | reaper => cases h
  | _ => trivial

def toClear : List Label :=
  [Label.request 0 (.create 7)] ++ steps 0 1 ++ [Label.request 1 (.putSegment 7 0 none none)] ++ steps 1 4 ++
  [Label.claim 2 1 [.transcribeSegment] 1] ++ steps 2 3 ++
  [Label.step 2 { utterances := [⟨none, 0, 900, "hi", []⟩], durationMs := 900 }] ++ steps 2 6 ++
  [Label.request 3 (.complete 7 none none)] ++ steps 3 4 ++
  [Label.claim 4 1 [.transcode] 2] ++ steps 4 8 ++ [Label.claim 5 1 [.diarize] 3] ++ steps 5 7 ++
  [Label.claim 6 1 [.transcribe] 4] ++ steps 6 5 ++ [Label.claim 7 1 [.merge] 5] ++ steps 7 2

def fromClear : List Label :=
  [Label.step 7 { utterances := [⟨some 0, 0, 1000, "", []⟩] }] ++ steps 7 6 ++
  [Label.claim 8 1 [.embed] 6] ++ steps 8 5 ++ [Label.claim 9 1 [.summarize] 7] ++ steps 9 5

def atClear : Sys :=
  (exec (guarded (step {}) shortOf) Sys.start toClear).get (by decide +kernel)

def cleared : Sys := (step {} atClear (.step 7 {})).get (by decide +kernel)

def atReady : Sys :=
  (exec (guarded (step {}) shortOf) cleared fromClear).get (by decide +kernel)

def shownState : Sys := (step {} atReady (.step 9 {})).get (by decide +kernel)

theorem body_atClear (i : ℕ) : (atClear.procs i).body = [] ∨
    (atClear.procs i).body = [.clearUtterances 7, .insertMerged 7] := by
  match i with
  | 0 | 1 | 2 | 3 | 4 | 5 | 6 | 7 => decide +kernel
  | n + 8 => exact .inl rfl

theorem body_atReady (i : ℕ) : (atReady.procs i).body = [] := by
  match i with
  | 0 | 1 | 2 | 3 | 4 | 5 | 6 | 7 | 8 | 9 => decide +kernel
  | n + 10 => rfl

theorem mergesAlone_atClear : MergesAlone 7 atClear (.step 7 {}) := by
  have hbody {i : ℕ} {job : Job} {body : List Stmt} (hproc : atClear.procs i = .stage job body) :
      body = [] ∨ body = [.clearUtterances 7, .insertMerged 7] := by
    have h := body_atClear i
    rwa [hproc] at h
  refine ⟨fun job body hproc => ⟨?_, ?_, by decide +kernel⟩, fun rest hproc => ?_⟩
  · rintro ⟨i, job, body, hproc, st, hst, hpast⟩
    rcases hbody hproc with rfl | rfl
    · cases hst
    · simp only [List.mem_cons, List.not_mem_nil, or_false] at hst
      rcases hst with rfl | rfl <;> exact hpast
  · rintro j ⟨job, body, hproc⟩
    rcases hbody hproc with h | h <;> cases h
  · have hstage : (atClear.procs 7).body ≠ [] := by decide +kernel
    rw [hproc] at hstage
    exact absurd rfl hstage

theorem mergesAlone_atReady : MergesAlone 7 atReady (.step 9 {}) := by
  refine ⟨fun job body hproc => ?_, fun rest hproc j => ?_⟩
  · have h := body_atReady 9
    rw [hproc] at h
    cases h
  · rintro ⟨job, body, hproc⟩
    have h := body_atReady j
    rw [hproc] at h
    cases h

theorem run_shownState : Run (step {}) (MergesAlone 7) Sys.start
    (toClear ++ [.step 7 {}] ++ fromClear ++ [.step 9 {}]) shownState := by
  have htoClear : Run (step {}) (MergesAlone 7) Sys.start toClear atClear :=
    run_of_guarded _ fun _ _ => mergesAlone_of_shortOf
  have hcleared : Run (step {}) (MergesAlone 7) Sys.start (toClear ++ [.step 7 {}]) cleared :=
    htoClear.snoc _ mergesAlone_atClear (Option.some_get _).symm
  have hfrom : Run (step {}) (MergesAlone 7) cleared fromClear atReady :=
    run_of_guarded _ fun _ _ => mergesAlone_of_shortOf
  exact (hcleared.trans hfrom).snoc _ mergesAlone_atReady (Option.some_get _).symm

/-- What the live pass had inserted is gone. -/
theorem utterances_of_ready_shownState : (atClear.db.content.utterancesOf 7).length = 1 ∧
    ∃ rows, shownState.db.content.lastMerge 7 = some rows ∧
      shownState.db.content.utterancesOf 7 = rows :=
  ⟨by decide +kernel, utterances_of_ready run_shownState (by decide +kernel)⟩

end ScribeLocal.Server
