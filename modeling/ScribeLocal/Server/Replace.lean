import ScribeLocal.Server.Moves
import ScribeLocal.Server.Stages

/-! # Replacing what a stage made before

`merge` and `embed` delete the old rows and insert the new ones in two statements. A
stage can end after any of its statements: by an error, with its process, or dropped
when the processing window closes.
-/
namespace ScribeLocal.Server
open Table Transition

variable {cfg : Config} {r : Uuid} {s s' : Sys} {a : Label} {i : ℕ} {job : Job}
  {body : List Stmt}

/-- Process `i` alone takes steps, and its merge makes the utterances `new`. -/
def Alone (i : ℕ) (new : List NewUtterance) (_ : Sys) (a : Label) : Prop :=
  ∃ x : Heard, a = .step i x ∧ x.utterances = new

/-- Process `i` starts a stage of kind `k` in `s`, and in `s'` it has been taken out of it
with the statements of `body` left: by an error, by a stop, by the window or at its end. -/
structure CutShort (cfg : Config) (k : JobKind) (r : Uuid) (new : List NewUtterance) (i : ℕ)
    (s : Sys) (body : List Stmt) (s' : Sys) : Prop where
  start : ∃ job, s.procs i = .stage job (jobBody cfg job) ∧ job.recordingId = some r ∧ job.kind = k
  cut : ∃ tr s₁ job a, Run (step cfg) (Alone i new) s tr s₁ ∧ s₁.procs i = .stage job body ∧
    step cfg s₁ a = some s' ∧ ∀ job' body', s'.procs i ≠ .stage job' body'

def storedChunks (c : Content) (r : Uuid) : List Chunk :=
  c.chunks.filter fun k => k.recordingId == r

/-- The rows that a bulk insert of chunks makes. -/
def chunkRows (r : Uuid) (new : List NewChunk) : List Chunk :=
  new.map fun k => { k with recordingId := r }

/-- A step that takes a process out of its stage writes nothing. -/
theorem content_of_leave (h : Moved cfg s a s') (hproc : s.procs i = .stage job body)
    (hleave : ∀ job' body', s'.procs i ≠ .stage job' body') : s'.db.content = s.db.content := by
  have hmove : a.proc = some i := by
    by_contra hno
    exact hleave job body ((moved_procs_of_ne h hno).trans hproc)
  cases h with
  | cmd x hcmd =>
    cases hmove
    cases hproc.symm.trans hcmd
  | stmt x hstmt =>
    cases hmove
    exact absurd (Sys.setProc_self ..) (hleave _ _)
  | _ => rfl

/-! ## Merge -/

/-- How far a merge has come: before its delete, between delete and insert, or done. -/
inductive MergePhase (r : Uuid) (old new : List Utterance) (n : ℕ) (c : Content) :
    List Stmt → Prop
  | before {body : List Stmt} (hclear : .clearUtterances r ∈ body) (hbody : body <:+
      [.getTranscript r, .getDiarization r, .clearUtterances r, .insertMerged r])
      (hrows : c.utterancesOf r = old) (hid : c.nextId = n) : MergePhase r old new n c body
  | between (hrows : c.utterancesOf r = []) (hid : c.nextId = n) :
      MergePhase r old new n c [.insertMerged r]
  | after (hrows : c.utterancesOf r = new) : MergePhase r old new n c []

theorem mergePhase_exec {old : List Utterance} {new : List NewUtterance} {n : ℕ} {c c' : Content}
    {now : Time} {status : Uuid → Option RecordingStatus} {x : Heard} {st : Stmt}
    {sts : List Stmt} (h : MergePhase r old (Content.numbered r n new) n c (st :: body))
    (hexec : st.exec now status x c = some (c', sts)) (hx : x.utterances = new) :
    MergePhase r old (Content.numbered r n new) n c' (sts ++ body) := by
  generalize hlist : st :: body = l at h
  cases h with
  | before hclear hbody hrows hid =>
    subst hlist
    simp only [List.suffix_cons_iff, List.cons.injEq, List.suffix_nil, reduceCtorEq,
      or_false] at hbody
    rcases hbody with ⟨rfl, rfl⟩ | ⟨rfl, rfl⟩ | ⟨rfl, rfl⟩ | ⟨rfl, rfl⟩
    · simp only [Stmt.exec] at hexec
      split at hexec <;> cases hexec
      exact .before (by simp) (by simp) hrows hid
    · simp only [Stmt.exec] at hexec
      split at hexec <;> cases hexec
      exact .before (by simp) (by simp [List.suffix_cons_iff]) hrows hid
    · cases hexec
      exact .between utterancesOf_clear hid
    · simp at hclear
  | between hrows hid =>
    cases hlist
    cases hexec
    subst hx hid
    apply MergePhase.after
    have hinsert : (c.insertUtterances r x.utterances).utterancesOf r =
        c.utterancesOf r ++ Content.numbered r c.nextId x.utterances := utterancesOf_insert_self
    rw [hrows, List.nil_append] at hinsert
    exact hinsert
  | after => cases hlist

/-- What holds of a stage at its start and survives each of its statements holds while it runs. -/
theorem stage_alone {P : Content → List Stmt → Prop} {new : List NewUtterance} {tr : List Label}
    {s₁ : Sys} (h : Run (step cfg) (Alone i new) s tr s₁) (hproc : s.procs i = .stage job body)
    (hinit : P s.db.content body)
    (hstep : ∀ now status x c c' st sts body, P c (st :: body) →
      Stmt.exec now status x c st = some (c', sts) → x.utterances = new → P c' (sts ++ body))
    {job₁ : Job} {body₁ : List Stmt} (hproc₁ : s₁.procs i = .stage job₁ body₁) :
    P s₁.db.content body₁ := by
  have hall : ∀ job body, s₁.procs i = .stage job body → P s₁.db.content body := by
    apply h.invariant (I := fun s => ∀ job body, s.procs i = .stage job body → P s.db.content body)
    · intro job' body' hproc'
      cases hproc.symm.trans hproc'
      exact hinit
    · rintro s a s' hold ⟨x, rfl, hx⟩ hs job' body' hproc'
      rcases moved_stage (step_moved hs) hproc' with ⟨-, hno⟩ | ⟨-, _, _, _, _, ha, -⟩ |
        ⟨x', st, rest, c, sts, ha, hst, hexec, rfl, hdb⟩
      · exact absurd rfl (hno x)
      · cases ha
      · cases ha
        rw [hdb]
        exact hstep _ _ _ _ _ _ _ _ (hold _ _ hst) hexec hx
  exact hall _ _ hproc₁

theorem numbered_eq_nil {n : ℕ} {new : List NewUtterance} :
    Content.numbered r n new = [] ↔ new = [] := by
  simp [Content.numbered]

/-- After a merge was cut short, the utterances are all old or all new unless the cut fell
between delete and insert, with something to lose on both sides. -/
theorem merge_replaces {new : List NewUtterance} (h : CutShort cfg .merge r new i s body s') :
    (s'.db.content.utterancesOf r = s.db.content.utterancesOf r ∨
      s'.db.content.utterancesOf r = Content.numbered r s.db.content.nextId new) ↔
    (body ≠ [.insertMerged r] ∨ s.db.content.utterancesOf r = [] ∨ new = []) := by
  rcases h.start with ⟨job, hproc, hr, hk⟩
  rcases h.cut with ⟨tr, s₁, job₁, a, hrun, hproc₁, hleave, hout⟩
  rw [content_of_leave (step_moved hleave) hproc₁ hout]
  have hbody : jobBody cfg job =
      [.getTranscript r, .getDiarization r, .clearUtterances r, .insertMerged r] := by
    rw [jobBody, hr, hk]
    rfl
  have hphase := stage_alone (P := fun c body => MergePhase r (s.db.content.utterancesOf r)
    (Content.numbered r s.db.content.nextId new) s.db.content.nextId c body) hrun hproc
    (.before (by simp [hbody]) (by simp [hbody]) rfl rfl)
    (fun _ _ _ _ _ _ _ _ hphase hexec hx => mergePhase_exec hphase hexec hx) hproc₁
  cases hphase with
  | before hclear _ hrows =>
    have hne : body ≠ [.insertMerged r] := by
      rintro rfl
      simp at hclear
    simp [hrows, hne]
  | between hrows =>
    rw [hrows, eq_comm, eq_comm (b := Content.numbered _ _ _), numbered_eq_nil]
    simp
  | after hrows => simp [hrows]

/-! ## Embed -/

/-- How far an embed stage has come: before its delete, between delete and insert, or done. -/
inductive EmbedPhase (r : Uuid) (old : List Chunk) (us : List Utterance) (c : Content) :
    List Stmt → Prop
  | read (hrows : storedChunks c r = old) (hus : c.listUtterances r = us) :
      EmbedPhase r old us c [.embedRead r]
  | clear (hrows : storedChunks c r = old) (hnew : Embed.buildChunks us = []) :
      EmbedPhase r old us c [.deleteChunks r]
  | replace (hrows : storedChunks c r = old) (hnew : Embed.buildChunks us ≠ []) :
      EmbedPhase r old us c [.deleteChunks r, .insertChunks r (Embed.buildChunks us)]
  | between (hrows : storedChunks c r = []) (hnew : Embed.buildChunks us ≠ []) :
      EmbedPhase r old us c [.insertChunks r (Embed.buildChunks us)]
  | after (hrows : storedChunks c r = chunkRows r (Embed.buildChunks us)) :
      EmbedPhase r old us c []

theorem storedChunks_clear {c : Content} : storedChunks { c with
    chunks := deleteWhere (fun k => k.recordingId == r) c.chunks } r = [] := by
  simp [storedChunks, deleteWhere]

theorem storedChunks_insert {c : Content} {new : List NewChunk} :
    storedChunks { c with chunks := c.chunks ++ chunkRows r new } r =
      storedChunks c r ++ chunkRows r new := by
  have hall : (chunkRows r new).filter (fun k => k.recordingId == r) = chunkRows r new := by
    apply List.filter_eq_self.mpr
    intro k hk
    rcases List.mem_map.mp hk with ⟨_, -, rfl⟩
    simp
  rw [storedChunks, List.filter_append, hall]
  rfl

theorem embedPhase_exec {old : List Chunk} {us : List Utterance} {c c' : Content} {now : Time}
    {status : Uuid → Option RecordingStatus} {x : Heard} {st : Stmt} {sts : List Stmt}
    (h : EmbedPhase r old us c (st :: body)) (hexec : st.exec now status x c = some (c', sts)) :
    EmbedPhase r old us c' (sts ++ body) := by
  generalize hlist : st :: body = l at h
  cases h with
  | read hrows hus =>
    cases hlist
    simp only [Stmt.exec, hus] at hexec
    split at hexec
    · rename_i hnew
      cases hexec
      exact .clear hrows hnew
    · rename_i hnew
      cases hexec
      rw [← hnew]
      exact .replace hrows (by simp [hnew])
  | clear hrows hnew =>
    cases hlist
    cases hexec
    apply EmbedPhase.after
    rw [storedChunks_clear, hnew]
    rfl
  | replace hrows hnew =>
    cases hlist
    cases hexec
    exact .between storedChunks_clear hnew
  | between hrows hnew =>
    cases hlist
    cases hexec
    apply EmbedPhase.after
    have hinsert : storedChunks { c with
        chunks := c.chunks ++ chunkRows r (Embed.buildChunks us) } r =
        storedChunks c r ++ chunkRows r (Embed.buildChunks us) := storedChunks_insert
    rw [hrows, List.nil_append] at hinsert
    exact hinsert
  | after => cases hlist

/-- The same of an embed stage and the chunks. -/
theorem embed_replaces {new : List NewUtterance} (h : CutShort cfg .embed r new i s body s') :
    (storedChunks s'.db.content r = storedChunks s.db.content r ∨
      storedChunks s'.db.content r =
        chunkRows r (Embed.buildChunks (s.db.content.listUtterances r))) ↔
    (body ≠ [.insertChunks r (Embed.buildChunks (s.db.content.listUtterances r))] ∨
      storedChunks s.db.content r = []) := by
  rcases h.start with ⟨job, hproc, hr, hk⟩
  rcases h.cut with ⟨tr, s₁, job₁, a, hrun, hproc₁, hleave, hout⟩
  rw [content_of_leave (step_moved hleave) hproc₁ hout]
  have hbody : jobBody cfg job = [.embedRead r] := by
    rw [jobBody, hr, hk]
    rfl
  have hphase := stage_alone (P := fun c body => EmbedPhase r (storedChunks s.db.content r)
    (s.db.content.listUtterances r) c body) hrun hproc (by rw [hbody]; exact .read rfl rfl)
    (fun _ _ _ _ _ _ _ _ hphase hexec _ => embedPhase_exec hphase hexec) hproc₁
  cases hphase with
  | read hrows | clear hrows | replace hrows | after hrows => simp [hrows]
  | between hrows hnew =>
    have hne : chunkRows r (Embed.buildChunks (s.db.content.listUtterances r)) ≠ [] := by
      simpa [chunkRows] using hnew
    rw [hrows]
    constructor
    · rintro (hold | hnew')
      · exact .inr hold.symm
      · exact absurd hnew'.symm hne
    · rintro (hbody | hold)
      · exact absurd rfl hbody
      · exact .inl hold.symm

/-- A merge or embed stage that is cut short anywhere leaves all of the old rows or all of
the new ones, if and only if it is not cut between its delete and its insert, or has no
old rows to lose, or no new ones to insert. -/
theorem replaces_iff {k : JobKind} {new : List NewUtterance}
    (h : CutShort cfg k r new i s body s') :
    (k = .merge → ((s'.db.content.utterancesOf r = s.db.content.utterancesOf r ∨
        s'.db.content.utterancesOf r = Content.numbered r s.db.content.nextId new) ↔
      (body ≠ [.insertMerged r] ∨ s.db.content.utterancesOf r = [] ∨ new = []))) ∧
    (k = .embed → ((storedChunks s'.db.content r = storedChunks s.db.content r ∨
        storedChunks s'.db.content r =
          chunkRows r (Embed.buildChunks (s.db.content.listUtterances r))) ↔
      (body ≠ [.insertChunks r (Embed.buildChunks (s.db.content.listUtterances r))] ∨
        storedChunks s.db.content r = []))) := by
  constructor
  · rintro rfl
    exact merge_replaces h
  · rintro rfl
    exact embed_replaces h

/-- A recording with a provisional utterance has reached its merge. -/
def provisionalRun : List Label :=
  [Label.request 0 (.create 7)] ++ steps 0 1 ++ [Label.request 1 (.putSegment 7 0 none none)] ++ steps 1 4 ++
  [Label.claim 2 1 [.transcribeSegment] 1] ++ steps 2 3 ++
  [Label.step 2 { utterances := [⟨none, 0, 900, "hi", []⟩], durationMs := 900 }] ++ steps 2 6 ++
  [Label.request 3 (.complete 7 none none)] ++ steps 3 4 ++
  [Label.claim 4 1 [.transcode] 2] ++ steps 4 8 ++
  [Label.claim 5 1 [.diarize] 3, .claim 6 2 [.transcribe] 4] ++ steps 5 7 ++ steps 6 5 ++
  [Label.claim 7 1 [.merge] 5]

def provisionalState : Sys := (exec (step {}) Sys.start provisionalRun).get (by decide +kernel)

/-- What that merge makes. -/
def mergedTurns : List NewUtterance := [⟨some 0, 0, 900, "Hi.", []⟩]

def mergeJob : Job where
  id := 5
  recordingId := some 7
  kind := .merge
  state := .running
  priority := 0
  attempts := 0
  runAfter := 0
  lockedBy := some 1
  lockedAt := some 0
  payload := {}
  error := none
  createdAt := 0
  updatedAt := 0

def mergeSteps (n : ℕ) : List Label := List.replicate n (.step 7 { utterances := mergedTurns })

/-- The merge after `n` of its statements. -/
def mergeState (n : ℕ) (h : (exec (step {}) provisionalState (mergeSteps n)).isSome = true) : Sys :=
  (exec (step {}) provisionalState (mergeSteps n)).get h

/-- The merge is stopped after `n` of its statements. -/
theorem cutShort_mergeState {n : ℕ}
    (h : (exec (step {}) provisionalState (mergeSteps n)).isSome = true)
    (hproc : (mergeState n h).procs 7 = .stage mergeJob body) :
    CutShort {} .merge 7 mergedTurns 7 provisionalState body
      ((mergeState n h).setProc 7 ((mergeState n h).procs 7).stopped) where
  start := ⟨mergeJob, by decide +kernel, rfl, rfl⟩
  cut := by
    refine ⟨mergeSteps n, mergeState n h, mergeJob, .stop 7,
      run_of_allowed (Option.some_get h).symm ?_, hproc, rfl, ?_⟩
    · intro a ha _
      exact ⟨_, List.eq_of_mem_replicate ha, rfl⟩
    · intro job' body' hstage
      rw [Sys.setProc_self, hproc] at hstage
      cases hstage

/-- The merge stopped between its delete and its insert. -/
def cutState : Sys :=
  (mergeState 3 (by decide +kernel)).setProc 7 ((mergeState 3 (by decide +kernel)).procs 7).stopped

theorem cutShort_cutState :
    CutShort {} .merge 7 mergedTurns 7 provisionalState [.insertMerged 7] cutState :=
  cutShort_mergeState (n := 3) (by decide +kernel) (by decide +kernel)

theorem not_replaces :
    ¬ ∀ (k : JobKind) (r : Uuid) (new : List NewUtterance) (i : ℕ) (s s' : Sys)
      (body : List Stmt), CutShort {} k r new i s body s' →
      (k = .merge → s'.db.content.utterancesOf r = s.db.content.utterancesOf r ∨
        s'.db.content.utterancesOf r = Content.numbered r s.db.content.nextId new) ∧
      (k = .embed → storedChunks s'.db.content r = storedChunks s.db.content r ∨
        storedChunks s'.db.content r =
          chunkRows r (Embed.buildChunks (s.db.content.listUtterances r))) := by
  intro h
  have hall := (h .merge 7 mergedTurns 7 provisionalState _ [.insertMerged 7]
    cutShort_cutState).1 rfl
  revert hall
  decide +kernel

theorem replaces_iff_cutState :
    (cutState.db.content.utterancesOf 7 = provisionalState.db.content.utterancesOf 7 ∨
      cutState.db.content.utterancesOf 7 =
        Content.numbered 7 provisionalState.db.content.nextId mergedTurns) ↔
    ([Stmt.insertMerged 7] ≠ [Stmt.insertMerged 7] ∨
      provisionalState.db.content.utterancesOf 7 = [] ∨ mergedTurns = []) :=
  (replaces_iff cutShort_cutState).1 rfl

end ScribeLocal.Server
