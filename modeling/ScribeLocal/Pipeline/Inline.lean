import ScribeLocal.Server.Determined

/-! # Processing a recording inline

One task loads the engines and runs the stages one after the other, with no queue. Real models that
are there and do not load end it before it has written anything.
-/
namespace ScribeLocal.Pipeline
open Server Transition

/-- `run_stage`: the statements of one stage, each told the next of `heard`; the stage fails
with the first statement that does, or with its engine when there is nothing left to hear. -/
def runStage (now : Time) (status : Uuid → Option RecordingStatus) :
    List Heard → List Stmt → Content → Content × Bool
  | _, [], c => (c, true)
  | [], _ :: _, c => (c, false)
  | x :: heard, st :: body, c =>
    match st.exec now status x c with
    | none => (c, false)
    | some (c', sts) => runStage now status heard (sts ++ body) c'

/-- The DAG, flattened to a serial order. -/
def order : List JobKind := [.transcode, .diarize, .transcribe, .merge, .embed, .summarize]

def runOrder (cfg : Config) (heard : JobKind → List Heard) (r : Uuid) :
    List JobKind → Db → Db × Bool
  | [], db => (db, true)
  | k :: ks, db =>
    match runStage db.now db.status (heard k) (stageBody r (summarizeTemplate cfg {}) k)
      db.content with
    | (c, false) => ({ db with content := c }, false)
    | (c, true) => runOrder cfg heard r ks { db with content := c }

/-- `process_recording_inline`, and whether it returned `Ok`; `loaded` is whether `Engines::load`
did. -/
def processRecordingInline (cfg : Config) (loaded : Bool) (heard : JobKind → List Heard) (r : Uuid)
    (db : Db) : Db × Bool :=
  if !loaded then (db, false)
  else if (db.status r).isNone then (db, false)
  else match runOrder cfg heard r order (db.setStatus r .processing) with
    | (db', false) => (db'.setStatus r .failed, false)
    | (db', true) => (db'.setStatus r .ready, true)

/-- The statements of a stage are told what the engines make of the recording. -/
def Told (e : Engines) (now : Time) (status : Uuid → Option RecordingStatus) :
    List Heard → List Stmt → Content → Prop
  | x :: heard, st :: body, c => e.Answers c x st ∧ ∀ c' sts,
      st.exec now status x c = some (c', sts) → Told e now status heard (sts ++ body) c'
  | _, _, _ => True

/-- And those of all stages. -/
def ToldAll (e : Engines) (cfg : Config) (heard : JobKind → List Heard) (r : Uuid) :
    List JobKind → Db → Prop
  | [], _ => True
  | k :: ks, db =>
    Told e db.now db.status (heard k) (stageBody r (summarizeTemplate cfg {}) k) db.content ∧
      ∀ c, runStage db.now db.status (heard k) (stageBody r (summarizeTemplate cfg {}) k)
        db.content = (c, true) → ToldAll e cfg heard r ks { db with content := c }

variable {cfg : Config} {e : Engines} {r r' : Uuid} {template : String} {k : JobKind}
  {now : Time} {status : Uuid → Option RecordingStatus} {heard : List Heard} {body : List Stmt}
  {c c' : Content} {ok : Bool} {db db' : Db} {answers : JobKind → List Heard}

/-- Statements of one stage of `r`. -/
def Belongs (r : Uuid) (k : JobKind) (body : List Stmt) : Prop :=
  ∀ st ∈ body, st.recording = r ∧ st.stage = some k

theorem Belongs.exec {st : Stmt} {sts : List Stmt} {x : Heard}
    (h : Belongs r k (st :: body)) (hexec : st.exec now status x c = some (c', sts)) :
    Belongs r k (sts ++ body) := by
  intro st' hst'
  have hhead := h st List.mem_cons_self
  rcases List.mem_append.mp hst' with hst' | hst'
  · have hfollow := Stmt.exec_follows hexec hst'
    exact ⟨hfollow.1.trans hhead.1, hfollow.2.1.trans hhead.2⟩
  · exact h st' (List.mem_cons_of_mem _ hst')

theorem exec_stage_same {st : Stmt} {sts : List Stmt} {x : Heard}
    (hst : st.recording = r ∧ st.stage = some k) (hk : k.isPipeline = true)
    (hexec : st.exec now status x c = some (c', sts)) {k' : JobKind} (hother : r' ≠ r ∨ k' ≠ k) :
    Same r' c c' k' := by
  apply exec_same hexec
  · rintro rfl heq
    rcases hother with hne | hne
    · exact hne hst.1
    · exact hne (Option.some.inj (heq.symm.trans hst.2))
  · cases st <;> first | exact id | (cases hst.2; done) | (cases hst.2; cases hk)

/-- A stage writes the tables it fills for its own recording, and no others. -/
theorem runStage_same (hbody : Belongs r k body) (hk : k.isPipeline = true)
    (h : runStage now status heard body c = (c', ok)) :
    (∀ r' k', r' ≠ r ∨ k' ≠ k → Same r' c c' k') ∧
      c'.participantsExpected = c.participantsExpected := by
  induction heard generalizing body c with
  | nil =>
    cases body with
    | nil =>
      cases h
      exact ⟨fun r' k' _ => Same.refl r' _ k', rfl⟩
    | cons st body =>
      cases h
      exact ⟨fun r' k' _ => Same.refl r' _ k', rfl⟩
  | cons x heard ih =>
    cases body with
    | nil =>
      cases h
      exact ⟨fun r' k' _ => Same.refl r' _ k', rfl⟩
    | cons st body =>
      simp only [runStage] at h
      split at h
      · cases h
        exact ⟨fun r' k' _ => Same.refl r' _ k', rfl⟩
      · rename_i c₁ sts hexec
        have hst := hbody st List.mem_cons_self
        have hrest := ih (hbody.exec hexec) h
        refine ⟨fun r' k' hother => ?_, hrest.2.trans (exec_participants hexec)⟩
        exact same_trans (exec_stage_same hst hk hexec hother) (hrest.1 r' k' hother)

/-- A stage that completes leaves in its tables what the engines make of the recording. -/
theorem runStage_made (hmid : Mid e template r c k body)
    (hpred : ∀ p ∈ k.predecessors, Made e template r c p) (hbody : Belongs r k body)
    (hk : k.isPipeline = true) (htold : Told e now status heard body c)
    (h : runStage now status heard body c = (c', true)) : Made e template r c' k := by
  induction heard generalizing body c with
  | nil =>
    cases body with
    | nil =>
      cases h
      exact hmid.made
    | cons st body => cases h
  | cons x heard ih =>
    cases body with
    | nil =>
      cases h
      exact hmid.made
    | cons st body =>
      simp only [runStage] at h
      split at h
      · cases h
      · rename_i c₁ sts hexec
        -- the statement leaves the tables of the stages before this one alone
        have hpred' : ∀ p ∈ k.predecessors, Made e template r c₁ p := by
          intro p hp
          have hne : p ≠ k := by
            rintro rfl
            exact absurd (JobKind.depth_lt_of_mem_predecessors hp) (lt_irrefl _)
          have hsame : Same r c c₁ p :=
            exec_stage_same (hbody st List.mem_cons_self) hk hexec (.inr hne)
          exact (hpred p hp).congr hsame (congrFun (exec_participants hexec) r)
        exact ih (mid_exec hmid hpred htold.1 hexec) hpred' (hbody.exec hexec)
          (htold.2 c₁ sts hexec) h

/-- Every stage comes once, after the stages it needs. -/
def Topological : List JobKind → List JobKind → Prop
  | _, [] => True
  | before, k :: ks => k.isPipeline = true ∧ k ∉ before ∧ (∀ p ∈ k.predecessors, p ∈ before) ∧
      Topological (k :: before) ks

theorem topological_order : Topological [] order := by
  simp [order, Topological, JobKind.isPipeline, JobKind.predecessors]

theorem belongs_stageBody : Belongs r k (stageBody r template k) := fun _ => stageBody_stage

/-- What the driver touches: the content of one recording. -/
structure Touches (r : Uuid) (db db' : Db) : Prop where
  frame : db' = { db with content := db'.content }
  expected : db'.content.participantsExpected = db.content.participantsExpected
  others : ∀ r' ≠ r, ∀ k, Same r' db.content db'.content k

theorem runOrder_touches {ks before : List JobKind} (htop : Topological before ks)
    (h : runOrder cfg answers r ks db = (db', ok)) : Touches r db db' := by
  induction ks generalizing before db with
  | nil =>
    cases h
    exact ⟨rfl, rfl, fun r' _ k => Same.refl r' _ k⟩
  | cons k ks ih =>
    obtain ⟨hk, -, -, htop⟩ := htop
    simp only [runOrder] at h
    split at h
    · rename_i c hstage
      cases h
      have hsame := runStage_same belongs_stageBody hk hstage
      exact ⟨rfl, hsame.2, fun r' hne k' => hsame.1 r' k' (.inl hne)⟩
    · rename_i c hstage
      have hsame := runStage_same belongs_stageBody hk hstage
      have hrest := ih htop h
      exact ⟨hrest.frame, hrest.expected.trans hsame.2,
        fun r' hne k' => same_trans (hsame.1 r' k' (.inl hne)) (hrest.others r' hne k')⟩

/-- The summaries of `r` are under the configured template. -/
def OneTemplate (template : String) (r : Uuid) (c : Content) : Prop :=
  ∀ y ∈ c.summaries, y.recordingId = r → y.template = template

theorem OneTemplate.of_filter (h : OneTemplate template r c)
    (hsame : (c'.summaries.filter fun y => y.recordingId == r) =
      c.summaries.filter fun y => y.recordingId == r) : OneTemplate template r c' := by
  intro y hy hr
  have hin : y ∈ c'.summaries.filter fun y => y.recordingId == r :=
    List.mem_filter.mpr ⟨hy, beq_iff_eq.mpr hr⟩
  rw [hsame] at hin
  exact h y (List.mem_filter.mp hin).1 hr

/-- Stages that complete one after the other leave what the engines make of the recording. -/
theorem runOrder_made {ks before : List JobKind} (htop : Topological before ks)
    (hbefore : ∀ k ∈ before, Made e cfg.summaryTemplate r db.content k)
    (hone : JobKind.summarize ∉ before → OneTemplate cfg.summaryTemplate r db.content)
    (htold : ToldAll e cfg answers r ks db)
    (h : runOrder cfg answers r ks db = (db', true)) :
    ∀ k, k ∈ before ∨ k ∈ ks → Made e cfg.summaryTemplate r db'.content k := by
  induction ks generalizing before db with
  | nil =>
    cases h
    exact fun k hk => hbefore k (hk.resolve_right List.not_mem_nil)
  | cons k ks ih =>
    obtain ⟨hk, hnew, hpred, htop⟩ := htop
    simp only [runOrder] at h
    split at h
    · cases h
    · rename_i c hstage
      have hsame := runStage_same belongs_stageBody hk hstage
      have hmid : Mid e cfg.summaryTemplate r db.content k
          (stageBody r (summarizeTemplate cfg {}) k) :=
        mid_stageBody hk fun heq => hone (heq ▸ hnew)
      have hmade : Made e cfg.summaryTemplate r c k :=
        runStage_made hmid (fun p hp => hbefore p (hpred p hp)) belongs_stageBody hk htold.1 hstage
      have hbefore' : ∀ p ∈ k :: before, Made e cfg.summaryTemplate r c p := by
        intro p hp
        rcases List.mem_cons.mp hp with rfl | hp
        · exact hmade
        · have hne : p ≠ k := fun heq => hnew (heq ▸ hp)
          exact (hbefore p hp).congr (hsame.1 r p (.inr hne)) (congrFun hsame.2 r)
      intro p hp
      apply ih htop hbefore' _ (htold.2 c hstage) h
      · rcases hp with hp | hp
        · exact .inl (List.mem_cons_of_mem _ hp)
        · rcases List.mem_cons.mp hp with rfl | hp
          · exact .inl List.mem_cons_self
          · exact .inr hp
      · intro hout
        have hne : JobKind.summarize ≠ k := fun heq => hout (heq ▸ List.mem_cons_self)
        exact (hone fun hin => hout (List.mem_cons_of_mem _ hin)).of_filter
          (hsame.1 r .summarize (.inr hne))

/-- The driver writes nothing of other recordings, and sets its own to `ready` or `failed`. -/
theorem inline_ends (hknown : (db.status r).isSome = true)
    (h : processRecordingInline cfg true answers r db = (db', ok)) :
    db'.status r = some (if ok then .ready else .failed) ∧
      ∀ r' ≠ r, outcomeOf db'.content r' = outcomeOf db.content r' ∧
        db'.status r' = db.status r' := by
  have hnone : (db.status r).isNone = false := by
    rw [Option.isNone_eq_false_iff]
    exact hknown
  simp only [processRecordingInline, Bool.not_true, hnone, Bool.false_eq_true, if_false] at h
  have hrest {ran : Db} {st : RecordingStatus} (hran : Touches r (db.setStatus r .processing) ran) :
      ∀ r' ≠ r, outcomeOf (ran.setStatus r st).content r' = outcomeOf db.content r' ∧
        (ran.setStatus r st).status r' = db.status r' := by
    intro r' hne
    refine ⟨outcomeOf_congr fun k => hran.others r' hne k, ?_⟩
    rw [Db.setStatus_of_ne hne.symm, hran.frame]
    exact Db.setStatus_of_ne hne.symm
  split at h
  · rename_i ran horder
    cases h
    exact ⟨Db.setStatus_self, hrest (runOrder_touches topological_order horder)⟩
  · rename_i ran horder
    cases h
    exact ⟨Db.setStatus_self, hrest (runOrder_touches topological_order horder)⟩

/-- A run that returns `Ok` leaves what the engines make of the recording. -/
theorem inline_outcome (hone : OneTemplate cfg.summaryTemplate r db.content)
    (htold : ToldAll e cfg answers r order (db.setStatus r .processing))
    (h : processRecordingInline cfg true answers r db = (db', true)) :
    outcomeOf db'.content r = e.outcome cfg.summaryTemplate (db.content.participantsExpected r) := by
  simp only [processRecordingInline, Bool.not_true, Bool.false_eq_true, if_false] at h
  split at h
  · cases h
  · split at h
    · cases h
    · rename_i ran horder
      cases h
      have htouches := runOrder_touches topological_order horder
      have hone' : OneTemplate cfg.summaryTemplate r (db.setStatus r .processing).content := hone
      have hmade := runOrder_made topological_order (fun _ hk => nomatch hk) (fun _ => hone') htold
        horder
      have hexpected : ran.content.participantsExpected r = db.content.participantsExpected r :=
        congrFun htouches.expected r
      rw [← hexpected]
      apply outcome_of_made
      exact fun k hk => hmade k (.inr (by cases k <;> first | decide | cases hk))

theorem answers_greeting (c : Content) (st : Stmt) : greetingEngines.Answers c greeting st := by
  cases st with
  | measureDuration | diarized | putTranscript | upsertSummary => exact rfl
  | insertMerged => exact fun _ _ _ _ => rfl
  | _ => trivial

theorem told_greeting (n : ℕ) (body : List Stmt) (c : Content) :
    Told greetingEngines now status (List.replicate n greeting) body c := by
  induction n generalizing body c with
  | zero => cases body <;> trivial
  | succ n ih =>
    cases body with
    | nil => trivial
    | cons st body => exact ⟨answers_greeting c st, fun c' sts _ => ih (sts ++ body) c'⟩

theorem toldAll_greeting (n : ℕ) (ks : List JobKind) (db : Db) :
    ToldAll greetingEngines cfg (fun _ => List.replicate n greeting) r ks db := by
  induction ks generalizing db with
  | nil => trivial
  | cons k ks ih => exact ⟨told_greeting n _ _, fun c _ => ih _⟩

/-- A recording whose audio has just been copied in. -/
def ingested : Db := Db.empty.setStatus 7 .uploading

end ScribeLocal.Pipeline
