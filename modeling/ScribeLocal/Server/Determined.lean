import ScribeLocal.Server.Midway
import ScribeLocal.Server.Once

/-! # What the pipeline makes does not depend on the interleaving

Workers claim, defer and complete the jobs of a recording in any order the queue allows. The
artifacts they leave are those the engines determine.
-/
namespace ScribeLocal.Server
open Table Jobs Transition

variable {cfg : Config} {e : Engines} {r r' : Uuid} {s s' : Sys} {a : Label} {x : Heard}
  {db : Db} {c c' : Cmd} {k : JobKind} {i j : ℕ} {job job' : Job} {body : List Stmt}
  {tr : List Label}

/-- The first stage of `r` has been enqueued. -/
def Started (r : Uuid) (s : Sys) : Prop :=
  ∃ row ∈ s.db.jobs.rows, row.recordingId = some r ∧ row.kind = .transcode

/-- The command writes artifacts of `r`, or what its stages read, from outside the stages. -/
def Cmd.intrudes (r : Uuid) : Cmd → Prop
  | .content st => Server.intrudes r st
  | .setParticipants r' _ => r' = r
  | _ => False

/-- The stages of `r` are told what the engines make of it, and nobody else writes to its
artifacts once the pipeline has started. -/
def Driven (cfg : Config) (e : Engines) (r : Uuid) (s : Sys) (a : Label) : Prop :=
  Punctual cfg r s a ∧ ∀ i x, a = .step i x →
    (∀ job st body, s.procs i = .stage job (st :: body) → st.recording = r →
      e.Answers s.db.content x st ∧ (Server.intrudes r st → ¬ Started r s)) ∧
    ∀ c rest, s.procs i = .todo (c :: rest) → c.intrudes r → ¬ Started r s

/-- What the stages of `r` have left. -/
structure Producing (cfg : Config) (e : Engines) (r : Uuid) (s : Sys) : Prop where
  mid : ∀ i job body, s.procs i = .stage job body → job.recordingId = some r →
    job.kind.isPipeline = true → Mid e cfg.summaryTemplate r s.db.content job.kind body
  completing : ∀ i job rest, s.procs i = .todo (.completeJob job :: rest) →
    job.recordingId = some r → Made e cfg.summaryTemplate r s.db.content job.kind
  done : ∀ k, Done s r k → Made e cfg.summaryTemplate r s.db.content k
  template : ∀ y ∈ s.db.content.summaries, y.recordingId = r → y.template = cfg.summaryTemplate
  plain : ∀ row ∈ s.db.jobs.rows, row.recordingId = some r → row.payload = {}
  entering : ∀ i cs, s.procs i = .todo cs → ∀ c ∈ cs, ∀ k payload strict,
    c = .insertJob r k payload strict → payload = {}

/-! ## Payloads -/

theorem payload_updateWhere {t : List Job} {p : Job → Bool} {f : Job → Job}
    (hf : ∀ j, (f j).recordingId = j.recordingId ∧ (f j).payload = j.payload) {row : Job}
    (hrow : row ∈ updateWhere p f t) :
    ∃ old ∈ t, row.recordingId = old.recordingId ∧ row.payload = old.payload := by
  obtain ⟨old, hold, rfl⟩ := mem_updateWhere.mp hrow
  refine ⟨old, hold, ?_⟩
  unfold updateRow
  split
  · exact hf old
  · exact ⟨rfl, rfl⟩

/-- A row has the payload it was inserted with. -/
theorem exec_payload {row : Job} (hrow : row ∈ (c.exec cfg x db).1.jobs.rows) :
    (∃ old ∈ db.jobs.rows, row.recordingId = old.recordingId ∧ row.payload = old.payload) ∨
      ∃ r k payload strict, c = .insertJob r k payload strict ∧ row.recordingId = some r ∧
        row.payload = payload := by
  cases c with
  | insertJob r' k payload strict =>
    simp only [Cmd.exec] at hrow
    split at hrow
    · exact .inl ⟨row, hrow, rfl, rfl⟩
    · have hin : row ∈ (db.jobs.insert db.now r' k payload 0).2.rows := by
        rcases hins : db.jobs.insert db.now r' k payload 0 with ⟨_ | _, t⟩ <;> rw [hins] at hrow <;>
          exact hrow
      unfold Jobs.insert at hin
      split at hin
      · exact .inl ⟨row, hin, rfl, rfl⟩
      · rcases List.mem_append.mp hin with hin | hin
        · exact .inl ⟨row, hin, rfl, rfl⟩
        · rw [List.mem_singleton.mp hin]
          exact .inr ⟨r', k, payload, strict, rfl, rfl, rfl⟩
  | completeJob job =>
    exact .inl (payload_updateWhere (f := completed db.now) (fun _ => ⟨rfl, rfl⟩) hrow)
  | reapStuck =>
    exact .inl (payload_updateWhere (f := reaped db.now cfg.maxAttempts) (fun _ => ⟨rfl, rfl⟩) hrow)
  | failUpdate job error n =>
    simp only [Cmd.exec] at hrow
    split at hrow
    · exact .inl ⟨row, hrow, rfl, rfl⟩
    all_goals
      rename_i hwrite
      have hin := (failWrite_eq_some hwrite).2.2 ▸ hrow
      refine .inl (payload_updateWhere (fun j => ?_) hin)
      unfold failed
      split <;> exact ⟨rfl, rfl⟩
  | deferJob job delay =>
    simp only [Cmd.exec] at hrow
    split at hrow
    · exact .inl ⟨row, hrow, rfl, rfl⟩
    · rename_i hdefer
      have hin := (tryUpdate_rows hdefer).1 ▸ hrow
      exact .inl (payload_updateWhere (f := deferred db.now windowClosed delay)
        (fun _ => ⟨rfl, rfl⟩) hin)
  | resetForReprocess r' =>
    simp only [Cmd.exec] at hrow
    split at hrow
    · exact .inl ⟨row, (mem_deleteWhere.mp hrow).1, rfl, rfl⟩
    · exact .inl ⟨row, hrow, rfl, rfl⟩
  | resetForRediarize r' =>
    simp only [Cmd.exec] at hrow
    split at hrow
    · exact .inl ⟨row, hrow, rfl, rfl⟩
    · split at hrow
      · exact .inl ⟨row, (mem_deleteWhere.mp hrow).1, rfl, rfl⟩
      · exact .inl ⟨row, hrow, rfl, rfl⟩
  | _ =>
    simp only [Cmd.exec, fetched] at hrow
    repeat' split at hrow
    all_goals exact .inl ⟨row, hrow, rfl, rfl⟩

theorem moved_payload (h : Moved cfg s a s') {row : Job} (hrow : row ∈ s'.db.jobs.rows) :
    (∃ old ∈ s.db.jobs.rows, row.recordingId = old.recordingId ∧ row.payload = old.payload) ∨
      ∃ i r k payload strict rest, s.procs i = .todo (.insertJob r k payload strict :: rest) ∧
        row.recordingId = some r ∧ row.payload = payload := by
  cases h with
  | @cmd i c rest x hproc =>
    rcases exec_payload hrow with hold | ⟨r, k, payload, strict, rfl, hr, hpayload⟩
    · exact .inl hold
    · exact .inr ⟨i, r, k, payload, strict, rest, hproc, hr, hpayload⟩
  | @claim i w kinds id j t hidle hclaim =>
    unfold claimOne at hclaim
    split at hclaim
    · cases hclaim
    · split at hclaim
      · cases hclaim
        exact .inl (payload_updateWhere (f := claimed s.db.now w) (fun _ => ⟨rfl, rfl⟩) hrow)
      · cases hclaim
  | @heartbeat i job body w =>
    exact .inl (payload_updateWhere (f := renewed s.db.now) (fun _ => ⟨rfl, rfl⟩) hrow)
  | _ => exact .inl ⟨row, hrow, rfl, rfl⟩

/-! ## Who else is at work -/

/-- A stage is enqueued once the first one has been. -/
theorem started_of_row (hsingle : Single r s) {row : Job} (hrow : row ∈ s.db.jobs.rows)
    (hr : row.recordingId = some r) (hk : row.kind.isPipeline = true) : Started r s := by
  induction hdepth : row.kind.depth using Nat.strong_induction_on generalizing row with
  | _ n ih =>
    subst hdepth
    cases hpred : row.kind.predecessors with
    | nil =>
      have htranscode : row.kind = .transcode := by
        revert hpred hk
        cases row.kind <;> simp [JobKind.predecessors, JobKind.isPipeline]
      exact ⟨row, hrow, hr, htranscode⟩
    | cons p ps =>
      have hp : p ∈ row.kind.predecessors := by rw [hpred]; exact List.mem_cons_self
      obtain ⟨old, hold, hof, -⟩ := has_iff.mp (hsingle.gated row hrow hr p hp)
      have hlt := JobKind.depth_lt_of_mem_predecessors hp
      exact ih old.kind.depth (hof.2 ▸ hlt) hold hof.1
        (hof.2 ▸ (JobKind.isPipeline_of_mem_predecessors hp).1) rfl

theorem started_of_done (hsingle : Single r s) (hk : k.isPipeline = true) (hdone : Done s r k) :
    Started r s := by
  obtain ⟨row, hrow, hof, -⟩ := has_iff.mp hdone
  exact started_of_row hsingle hrow hof.1 (hof.2 ▸ hk)

theorem started_of_holds (hs : Snapshot s) (hsingle : Single r s) (hhold : Holds s i job)
    (hr : job.recordingId = some r) (hk : job.kind.isPipeline = true) : Started r s := by
  obtain ⟨row, hrow⟩ := hsingle.present i job hhold hr
  have hcols := hs.columns i job row hhold hrow
  exact started_of_row hsingle (row_eq_some.mp hrow).1 (hcols.2.trans hr) (hcols.1 ▸ hk)

/-- A job is claimed when the stages before it are done. -/
theorem gated_of_holds (hs : Snapshot s) (hsingle : Single r s) (hhold : Holds s i job)
    (hr : job.recordingId = some r) {p : JobKind} (hp : p ∈ job.kind.predecessors) :
    Done s r p := by
  obtain ⟨row, hrow⟩ := hsingle.present i job hhold hr
  have hcols := hs.columns i job row hhold hrow
  exact hsingle.gated row (row_eq_some.mp hrow).1 (hcols.2.trans hr) p (hcols.1 ▸ hp)

theorem holder_of_kind (hs : Snapshot s) (hl : Leased s) (hsingle : Single r s)
    (hi : Holds s i job) (hj : Holds s j job') (hr : job.recordingId = some r)
    (hr' : job'.recordingId = some r) (hk : job.kind = job'.kind) : i = j := by
  obtain ⟨row, hrow⟩ := hsingle.present i job hi hr
  obtain ⟨row', hrow'⟩ := hsingle.present j job' hj hr'
  exact holder_unique hs hl hi hj hr hr' hk hrow hrow'

/-- A reset of another recording leaves the tables of a stage alone. -/
theorem reset_same (hne : r ≠ r') (content : Content) (k : JobKind) :
    Same r content (content.resetForRediarize r') k := by
  cases k with
  | diarize =>
    refine ⟨Function.update_of_ne hne .., fun idx => ?_⟩
    unfold Content.resetForRediarize
    rw [mem_deleteWhere]
    exact ⟨fun hp => hp.1, fun hp => ⟨hp, by simpa using hne⟩⟩
  | merge => exact filter_deleteWhere_of_ne hne fun u hu => eq_of_beq hu
  | embed => exact filter_deleteWhere_of_ne hne fun u hu => eq_of_beq hu
  | summarize => exact filter_deleteWhere_of_ne hne fun u hu => eq_of_beq hu
  | transcribeSegment => trivial
  | transcode | transcribe => exact rfl

/-- Once the pipeline has started, the tables of a stage change only by its own statements. -/
theorem moved_same (hst : Staged s) (hsingle : Single r s) (hok : Driven cfg e r s a)
    (h : Moved cfg s a s') (hstarted : Started r s) (hk : k.isPipeline = true)
    (hother : ∀ i x job st body, a = .step i x → s.procs i = .stage job (st :: body) →
      job.recordingId = some r → job.kind ≠ k) :
    Same r s.db.content s'.db.content k ∧
      s'.db.content.participantsExpected r = s.db.content.participantsExpected r := by
  cases h with
  | @cmd i c rest x hproc =>
    have hintrudes : ¬ c.intrudes r :=
      fun hin => ((hok.2 i x rfl).2 c rest hproc hin) hstarted
    have hreset := noReset hsingle.noEdits hproc
    have hwrites : c.Writes x s.db (c.exec cfg x s.db).1.content := exec_writes cfg x s.db c
    show Same r s.db.content (c.exec cfg x s.db).1.content k ∧
      (c.exec cfg x s.db).1.content.participantsExpected r = _
    generalize (c.exec cfg x s.db).1.content = content' at hwrites ⊢
    cases hwrites with
    | nothing => exact ⟨Same.refl r _ k, rfl⟩
    | @content st _ _ hexec =>
      have hhandler := hst.handler i _ hproc st List.mem_cons_self
      refine ⟨exec_same hexec ?_ hintrudes, congrFun (exec_participants hexec) r⟩
      simp [hhandler]
    | @participants r' expected =>
      have hne : r ≠ r' := fun heq => hintrudes heq.symm
      refine ⟨?_, Function.update_of_ne hne ..⟩
      cases k <;> first | exact rfl | exact ⟨rfl, fun _ => Iff.rfl⟩ | exact trivial
    | @reprocess r' =>
      have hne : r ≠ r' := fun heq => hreset heq.symm
      refine ⟨?_, rfl⟩
      have hrediarize := reset_same hne s.db.content k
      cases k <;> first | exact hrediarize | exact Function.update_of_ne hne ..
    | @rediarize r' => exact ⟨reset_same (fun heq => hreset heq.symm) s.db.content k, rfl⟩
  | @stmt i job st body c sts x hproc hexec =>
    have hstmt := hst.body i job _ hproc st List.mem_cons_self
    have hintrudes : ¬ Server.intrudes r st := by
      intro hin
      have hrec : st.recording = r := by cases st <;> first | exact hin | exact hin.elim
      exact ((hok.2 i x rfl).1 job st body hproc hrec).2 hin hstarted
    refine ⟨exec_same hexec (fun hrec => ?_) hintrudes, congrFun (exec_participants hexec) r⟩
    rw [hstmt.2]
    intro heq
    exact hother i x job st body rfl hproc (hrec ▸ hstmt.1) (Option.some.inj heq)
  | _ => exact ⟨Same.refl r _ k, rfl⟩

/-! ## The invariant -/

theorem holds_of_stage (hproc : s.procs i = .stage job body) : Holds s i job := by
  rw [Holds, hproc]
  rfl

theorem holds_of_completing {cs : List Cmd} (hproc : s.procs i = .todo (.completeJob job :: cs)) :
    Holds s i job := by
  rw [Holds, hproc]
  rfl

theorem entering_again_moved (hsingle : Single r s) (hp : Producing cfg e r s) (h : Moved cfg s a s') :
    ∀ i cs, s'.procs i = .todo cs → ∀ c ∈ cs, ∀ k payload strict,
      c = .insertJob r k payload strict → payload = {} := by
  apply moved_todo (P := fun c => ∀ k payload strict, c = .insertJob r k payload strict →
    payload = {}) h hp.entering
  · rintro i x c rest c' - hproc hfollow k payload strict rfl
    have hedit := hsingle.noEdits i _ hproc c List.mem_cons_self
    cases hfollow with
    | summarize => exact absurd rfl hedit
    | _ => rfl
  · intro i q _ k payload strict heq
    cases q <;> cases heq
  · intro _ _ _ heq
    cases heq
  · intro _ _ _ _ _ _ heq
    cases heq
  · intro _ _ _ _ _ _ _ _ _ heq
    cases heq
  · intro _ _ _ _ _ _ _ _ heq
    cases heq

theorem plain_moved (hp : Producing cfg e r s) (h : Moved cfg s a s') {row : Job}
    (hrow : row ∈ s'.db.jobs.rows) (hr : row.recordingId = some r) : row.payload = {} := by
  rcases moved_payload h hrow with ⟨old, hold, hrec, hpayload⟩ |
    ⟨i, r', k, payload, strict, rest, hproc, hrec, hpayload⟩
  · rw [hpayload]
    exact hp.plain old hold (hrec.symm.trans hr)
  · obtain rfl : r' = r := Option.some.inj (hrec.symm.trans hr)
    rw [hpayload]
    exact hp.entering i _ hproc _ List.mem_cons_self k payload strict rfl

theorem template_moved (hst : Staged s) (hp : Producing cfg e r s) (h : Moved cfg s a s')
    {y : Summary} (hy : y ∈ s'.db.content.summaries) (hr : y.recordingId = r) :
    y.template = cfg.summaryTemplate := by
  cases h with
  | @cmd i c rest x hproc =>
    have hwrites : c.Writes x s.db (c.exec cfg x s.db).1.content := exec_writes cfg x s.db c
    change y ∈ (c.exec cfg x s.db).1.content.summaries at hy
    generalize (c.exec cfg x s.db).1.content = content' at hwrites hy
    cases hwrites with
    | nothing | participants => exact hp.template y hy hr
    | @content st _ _ hexec =>
      have hhandler := hst.handler i _ hproc st List.mem_cons_self
      rcases exec_summaries hexec hy with ⟨hold, -⟩ | rfl
      · exact hp.template y hold hr
      · cases hhandler
    | reprocess | rediarize => exact hp.template y (mem_deleteWhere.mp hy).1 hr
  | @stmt i job st body c sts x hproc hexec =>
    rcases exec_summaries hexec hy with ⟨hold, -⟩ | rfl
    · exact hp.template y hold hr
    · have hstmt := hst.body i job _ hproc _ List.mem_cons_self
      have hkind : job.kind = .summarize := (Option.some.inj hstmt.2).symm
      have hmid := hp.mid i job _ hproc (hstmt.1.trans (congrArg some hr)) (by rw [hkind]; rfl)
      rw [hkind] at hmid
      exact hmid.template_eq
  | _ => exact hp.template y hy hr

theorem done_made_moved (hs : Snapshot s) (hl : Leased s) (hst : Staged s) (hsingle : Single r s)
    (hp : Producing cfg e r s) (hok : Driven cfg e r s a) (h : Moved cfg s a s')
    (hdone : Done s' r k) : Made e cfg.summaryTemplate r s'.db.content k := by
  by_cases hk : k.isPipeline = true
  · rcases moved_done hs h hdone with hold | ⟨i, x, job, rest, rfl, hproc, hr, rfl⟩
    · have hsame := moved_same hst hsingle hok h (started_of_done hsingle hk hold) hk
        fun i x job st body _ hproc hr heq =>
          hsingle.not_done hs hl (holds_of_stage hproc) hr (heq ▸ hk) (heq ▸ hold)
      exact (hp.done k hold).congr hsame.1 hsame.2
    · have hhold := holds_of_completing hproc
      have hsame := moved_same hst hsingle hok h (started_of_holds hs hsingle hhold hr hk) hk
        fun j x' job' st body ha hproc' => by
          cases (Label.step.inj ha).1
          cases hproc.symm.trans hproc'
      exact (hp.completing i job rest hproc hr).congr hsame.1 hsame.2
  · cases k <;> first | exact trivial | exact absurd rfl hk

theorem completing_made_moved (hs : Snapshot s) (hl : Leased s) (hst : Staged s) (hsingle : Single r s)
    (hp : Producing cfg e r s) (hok : Driven cfg e r s a) (h : Moved cfg s a s') {cs : List Cmd}
    (hproc : s'.procs i = .todo (.completeJob job :: cs)) (hr : job.recordingId = some r) :
    Made e cfg.summaryTemplate r s'.db.content job.kind := by
  by_cases hk : job.kind.isPipeline = true
  · rcases moved_complete hs h hproc with hold | ⟨x, rfl, hold⟩
    · have hhold := holds_of_completing hold
      have hsame := moved_same hst hsingle hok h (started_of_holds hs hsingle hhold hr hk) hk
        fun j x' job' st body _ hproc' hr' heq => by
          have hij := holder_of_kind hs hl hsingle hhold (holds_of_stage hproc') hr hr' heq.symm
          rw [hij] at hold
          cases hold.symm.trans hproc'
      exact (hp.completing i job cs hold hr).congr hsame.1 hsame.2
    · have hhold := holds_of_stage hold
      have hsame := moved_same hst hsingle hok h (started_of_holds hs hsingle hhold hr hk) hk
        fun j x' job' st body ha hproc' => by
          cases (Label.step.inj ha).1
          cases hold.symm.trans hproc'
      exact (hp.mid i job [] hold hr hk).made.congr hsame.1 hsame.2
  · cases hkind : job.kind <;> first | exact trivial | (rw [hkind] at hk; exact absurd rfl hk)

/-- A stage of `r` goes on from what its statements have established, or starts. -/
theorem mid_moved (hs : Snapshot s) (hl : Leased s) (hst : Staged s) (hsingle : Single r s)
    (hp : Producing cfg e r s) (hok : Driven cfg e r s a) (h : Moved cfg s a s')
    (hproc : s'.procs i = .stage job body) (hr : job.recordingId = some r)
    (hk : job.kind.isPipeline = true) :
    Mid e cfg.summaryTemplate r s'.db.content job.kind body := by
  rcases moved_stage h hproc with ⟨hold, hne⟩ | ⟨rfl, w, kinds, id, t, rfl, hclaim⟩ |
    ⟨x, st, rest, c, sts, rfl, hold, hexec, rfl, hdb⟩
  · have hhold := holds_of_stage hold
    have hsame := moved_same hst hsingle hok h (started_of_holds hs hsingle hhold hr hk) hk
      fun j x' job' st' body' ha hproc' hr' heq => by
        have hij := holder_of_kind hs hl hsingle hhold (holds_of_stage hproc') hr hr' heq.symm
        exact hne x' (hij ▸ ha)
    exact (hp.mid i job body hold hr hk).congr hsame.1 hsame.2
  · obtain ⟨j, hrow, -, hj, -⟩ := claimOne_eq_some hclaim
    change job = claimed s.db.now w j at hj
    have hrec : j.recordingId = some r := by
      rw [hj] at hr
      exact hr
    have hpayload : job.payload = {} := by
      rw [hj]
      exact hp.plain j (row_eq_some.mp hrow).1 hrec
    have hbody : jobBody cfg job = stageBody r cfg.summaryTemplate job.kind := by
      simp only [jobBody, hr, hpayload, summarizeTemplate]
      rfl
    rw [hbody]
    exact mid_stageBody hk fun _ y hy hyr => template_moved hst hp h hy hyr
  · have hhold := holds_of_stage hold
    have hstmt := hst.body i job _ hold st List.mem_cons_self
    have hrec : st.recording = r := Option.some.inj (hstmt.1.symm.trans hr)
    have hanswers := ((hok.2 i x rfl).1 job st rest hold hrec).1
    rw [hdb]
    exact mid_exec (hp.mid i job _ hold hr hk)
      (fun p hpred => hp.done p (gated_of_holds hs hsingle hhold hr hpred)) hanswers hexec

theorem producing_moved (hs : Snapshot s) (hl : Leased s) (hst : Staged s) (hsingle : Single r s)
    (hp : Producing cfg e r s) (hok : Driven cfg e r s a) (h : Moved cfg s a s') :
    Producing cfg e r s' where
  mid _ _ _ := mid_moved hs hl hst hsingle hp hok h
  completing _ _ _ := completing_made_moved hs hl hst hsingle hp hok h
  done _ := done_made_moved hs hl hst hsingle hp hok h
  template _ := template_moved hst hp h
  plain _ := plain_moved hp h
  entering := entering_again_moved hsingle hp h

theorem producing_start : Producing cfg e r Sys.start where
  mid _ _ _ h := nomatch h
  completing _ _ _ h := nomatch h
  done _ h := nomatch h
  template _ h := nomatch h
  plain _ h := nomatch h
  entering _ _ h := nomatch h

/-! ## Ready recordings -/

/-- A recording is found ready once both of its last stages are done. -/
structure Readied (r : Uuid) (s : Sys) : Prop where
  marking : ∀ i cs, s.procs i = .todo cs → ∀ c ∈ cs, c = .markReady r →
    Done s r .embed ∧ Done s r .summarize
  ready : s.db.status r = some .ready → Done s r .embed ∧ Done s r .summarize

theorem readied_moved (hl : Leased s) (hno : NoEdits r s) (hready : Readied r s)
    (h : Moved cfg s a s') : Readied r s' := by
  have hkeep (hboth : Done s r .embed ∧ Done s r .summarize) :
      Done s' r .embed ∧ Done s' r .summarize :=
    ⟨done_moved hl hno h hboth.1, done_moved hl hno h hboth.2⟩
  constructor
  · apply moved_todo (P := fun c => c = .markReady r → Done s' r .embed ∧ Done s' r .summarize) h
    · exact fun i cs hproc c hc heq => hkeep (hready.marking i cs hproc c hc heq)
    · rintro i x c rest c' - hproc hfollow rfl
      cases hfollow with
      | ready hdone =>
        rw [embedAndSummarizeDone, Bool.and_eq_true] at hdone
        exact hkeep hdone
    · intro i q _ heq
      cases q <;> cases heq
    · intro heq
      cases heq
    · intro _ _ _ heq
      cases heq
    · intro _ _ _ _ _ _ heq
      cases heq
    · intro _ _ _ _ _ heq
      cases heq
  · intro hstatus
    apply hkeep
    cases h with
    | @cmd i c rest x hproc =>
      change (c.exec cfg x s.db).1.status r = some .ready at hstatus
      rcases exec_status cfg x s.db c r with hsame | ⟨-, -, hnew⟩ | ⟨-, hnew⟩ | ⟨rfl, -⟩ |
        ⟨-, hnew⟩
      · exact hready.ready (hsame.symm.trans hstatus)
      · cases hnew.symm.trans hstatus
      · cases hnew.symm.trans hstatus
      · exact hready.marking i _ hproc _ List.mem_cons_self rfl
      · cases hnew.symm.trans hstatus
    | _ => exact hready.ready hstatus

/-- A stage that is done has been preceded by the stages it needs. -/
theorem done_of_successor (hsingle : Single r s) {p : JobKind} (hp : p ∈ k.predecessors)
    (hdone : Done s r k) : Done s r p := by
  obtain ⟨row, hrow, hof, -⟩ := has_iff.mp hdone
  exact hsingle.gated row hrow hof.1 p (hof.2 ▸ hp)

theorem all_done (hsingle : Single r s) (hembed : Done s r .embed) (hsummarize : Done s r .summarize)
    (hk : k.isPipeline = true) : Done s r k := by
  have hmerge : Done s r .merge := done_of_successor hsingle (by decide) hembed
  have hdiarize : Done s r .diarize := done_of_successor hsingle (by decide) hmerge
  cases k with
  | transcode => exact done_of_successor hsingle (by decide) hdiarize
  | diarize => exact hdiarize
  | transcribe => exact done_of_successor hsingle (by decide) hmerge
  | merge => exact hmerge
  | embed => exact hembed
  | summarize => exact hsummarize
  | transcribeSegment => cases hk

structure Determined (cfg : Config) (e : Engines) (r : Uuid) (s : Sys) : Prop where
  snapshot : Snapshot s
  leased : Leased s
  staged : Staged s
  single : Single r s
  producing : Producing cfg e r s
  readied : Readied r s

theorem determined_run (h : Run (step cfg) (Driven cfg e r) Sys.start tr s) :
    Determined cfg e r s := by
  apply h.invariant
  · exact ⟨snapshot_start, leased_start, staged_start, single_start, producing_start,
      fun _ _ h => (nomatch h), fun h => nomatch h⟩
  · intro s a s' hd hok hstep
    have hmoved := step_moved hstep
    exact ⟨snapshot_moved hd.snapshot hmoved,
      leased_moved hd.snapshot hd.leased hok.1.reapsDead hmoved, staged_moved hd.staged hmoved,
      single_moved hd.snapshot hd.leased hd.single hok.1 hmoved,
      producing_moved hd.snapshot hd.leased hd.staged hd.single hd.producing hok hmoved,
      readied_moved hd.leased hd.single.noEdits hd.readied hmoved⟩

theorem Determined.outcome (hd : Determined cfg e r s) (hready : s.db.status r = some .ready) :
    outcomeOf s.db.content r =
      e.outcome cfg.summaryTemplate (s.db.content.participantsExpected r) := by
  have hboth := hd.readied.ready hready
  apply outcome_of_made
  exact fun k hk => hd.producing.done k (all_done hd.single hboth.1 hboth.2 hk)

/-- What every statement of the run below is told. -/
def greeting : Heard where
  durationMs := 1000
  turns := [⟨0, 0, 450⟩, ⟨1, 450, 1000⟩]
  words := [⟨"Hello", 0, 400, none⟩, ⟨"there.", 500, 900, none⟩]
  utterances := [⟨some 1, 500, 900, "there.", []⟩, ⟨some 0, 0, 400, "Hello", []⟩]
  summary := some "A greeting."

def greetingEngines : Engines where
  durationMs := greeting.durationMs
  turns := fun _ => greeting.turns
  words := greeting.words
  merged := fun _ _ => greeting.utterances
  summary := fun _ _ => greeting.summary

def told (i n : ℕ) : List Label := List.replicate n (.step i greeting)

/-- Diarize and transcribe at the same time, embed and summarize too; the first attempt at the
merge is deferred after it has written. -/
def greetingRun : List Label :=
  .request 0 (.create 7) :: told 0 1 ++ .request 2 (.complete 7 (some 5) none) :: told 2 5 ++
  [.claim 3 1 [.transcode] 1] ++ told 3 8 ++
  [.claim 4 1 [.diarize] 2, .claim 5 2 [.transcribe] 3] ++ told 4 2 ++ told 5 4 ++ told 4 8 ++
  [.claim 6 1 [.merge] 4] ++ told 6 4 ++ [.windowClosed 6 100] ++ told 6 1 ++
  [.tick 200, .claim 7 2 [.merge] 4] ++ told 7 10 ++
  [.claim 8 1 [.embed] 5, .claim 9 2 [.summarize] 6] ++ told 8 4 ++ told 9 4 ++ told 8 2 ++
  told 9 1 ++ told 8 1 ++ told 9 1

instance {st : Stmt} : Decidable (Server.intrudes r st) := by
  cases st <;> unfold Server.intrudes <;> infer_instance

instance : Decidable (c.intrudes r) := by
  cases c <;> unfold Cmd.intrudes <;> infer_instance

instance : Decidable (Started r s) := by
  unfold Started
  infer_instance

/-- The test of a step that keeps to `greeting` and is not late. -/
def greeted (r : Uuid) (s : Sys) : Label → Bool
  | .step i x => decide (x.durationMs = greeting.durationMs ∧ x.turns = greeting.turns ∧
      x.words = greeting.words ∧ x.utterances = greeting.utterances ∧
      x.summary = greeting.summary) &&
    match s.procs i with
    | .stage _ (st :: _) => decide (Server.intrudes r st → ¬ Started r s)
    | .todo (c :: _) => decide (c.intrudes r → ¬ Started r s)
    | _ => true
  | _ => true

theorem driven_of_greeted {n : ℕ} (hs : s.Within n)
    (h : ((calm s a && timely n r s a) && greeted r s a) = true) :
    Driven {} greetingEngines r s a := by
  rw [Bool.and_eq_true] at h
  refine ⟨punctual_of_timely hs h.1, ?_⟩
  rintro i x rfl
  simp only [greeted, Bool.and_eq_true, decide_eq_true_eq] at h
  obtain ⟨-, ⟨hduration, hturns, hwords, hmerged, hsummary⟩, hlate⟩ := h
  constructor
  · intro job st body hproc _
    rw [hproc] at hlate
    refine ⟨?_, of_decide_eq_true hlate⟩
    cases st with
    | measureDuration => exact hduration
    | diarized => exact hturns
    | putTranscript => exact hwords
    | insertMerged => exact fun _ _ _ _ => hmerged
    | upsertSummary => exact hsummary
    | _ => trivial
  · intro c rest hproc
    rw [hproc] at hlate
    exact of_decide_eq_true hlate

def greetingState : Sys :=
  (exec (guarded (step {}) (amid 10 fun s a => (calm s a && timely 10 7 s a) && greeted 7 s a))
    Sys.start greetingRun).get (by decide +kernel)

end ScribeLocal.Server
