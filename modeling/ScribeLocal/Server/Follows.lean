import ScribeLocal.Server.System

/-! # Which command can follow which

`Follows` lists every way one command of a process brings another one, with what the
database says at that moment. What a list of commands can contain is read off it.
-/
namespace ScribeLocal.Server
open Table Jobs

/-- Executing `c` can put `c'` on the list of its process. -/
inductive Follows (cfg : Config) (db : Db) : Cmd → Cmd → Prop
  | content {st st' : Stmt} (hrec : st'.recording = st.recording) (hst : st'.stage = st.stage)
      (hsome : st'.stage.isSome = true) : Follows cfg db (.content st) (.content st')
  | segment {r : Uuid} {seq : ℤ} {a b : Option ℤ} :
      Follows cfg db (.putSegmentRead r seq a b) (.content (.insertSegment r seq a b))
  | live {r : Uuid} {seq : ℤ} {a b : Option ℤ} (hst : db.status r = some .uploading) :
      Follows cfg db (.putSegmentRead r seq a b) (.insertJob r .transcribeSegment {} false)
  | reply {c : Cmd} {code : ℕ} : Follows cfg db c (.reply code)
  | duration {r : Uuid} {d : Option ℤ} {m : Option (List ℤ)} {ms : ℤ} :
      Follows cfg db (.completeRead r d m) (.content (.setDuration r ms))
  | marks {r : Uuid} {d : Option ℤ} {m : Option (List ℤ)} {ms : List ℤ} :
      Follows cfg db (.completeRead r d m) (.content (.setMarks r ms))
  | accept {r : Uuid} {d : Option ℤ} {m : Option (List ℤ)} (hst : db.status r = some .uploading) :
      Follows cfg db (.completeRead r d m) (.markProcessing r)
  | process {r : Uuid} (hsome : (db.status r).isSome = true) :
      Follows cfg db (.markProcessing r) (enqueue r .transcode {})
  | reprocess {r : Uuid} (hsome : (db.status r).isSome = true) :
      Follows cfg db (.reprocessRead r) (.resetForReprocess r)
  | restart {r : Uuid} : Follows cfg db (.resetForReprocess r) (enqueue r .transcode {})
  | rediarize {r : Uuid} : Follows cfg db (.rediarizeRead r) (.resetForRediarize r)
  | redo {r : Uuid} (htr : (db.content.transcript r).isSome = true) :
      Follows cfg db (.resetForRediarize r) (enqueue r .diarize {})
  | summarize {r : Uuid} {template : String} (hsome : (db.status r).isSome = true) :
      Follows cfg db (.summarizeRead r template)
        (enqueue r .summarize { template := some template })
  | speaker {r : Uuid} {idx : ℤ} :
      Follows cfg db (.deleteSpeakerRead r idx) (.content (.deleteSpeaker r idx))
  | reembed {r : Uuid} {idx : ℤ} : Follows cfg db (.deleteSpeakerRead r idx) (enqueue r .embed {})
  | resummarize {r : Uuid} {idx : ℤ} :
      Follows cfg db (.deleteSpeakerRead r idx) (enqueue r .summarize {})
  | select {r : Uuid} {k : JobKind} {payload : Payload} {strict : Bool} :
      Follows cfg db (.insertJob r k payload strict) (.selectJob r k strict)
  | succ {job : Job} {r : Uuid} {y : JobKind} (hr : job.recordingId = some r)
      (hy : y ∈ job.kind.successors) : Follows cfg db (.completeJob job) (.succ r y)
  | count {job : Job} {r : Uuid} (hr : job.recordingId = some r)
      (hk : job.kind = .embed ∨ job.kind = .summarize) :
      Follows cfg db (.completeJob job) (.maybeMarkReady r)
  | drain {job : Job} {r : Uuid} (hr : job.recordingId = some r)
      (hk : job.kind = .transcribeSegment) : Follows cfg db (.completeJob job) (.liveRequeue r)
  | gate {r : Uuid} {k : JobKind} (hdone : db.jobs.predecessorsDone r k = true) :
      Follows cfg db (.succ r k) (enqueue r k {})
  | ready {r : Uuid} (hdone : db.jobs.embedAndSummarizeDone r = true) :
      Follows cfg db (.maybeMarkReady r) (.markReady r)
  | recount {r : Uuid} (hst : db.status r = some .uploading) :
      Follows cfg db (.liveRequeue r) (.liveRequeueCount r)
  | requeue {r : Uuid} : Follows cfg db (.liveRequeueCount r) (enqueue r .transcribeSegment {})
  | fail {job j : Job} {error : String} (hrow : db.jobs.row job.id = some j) :
      Follows cfg db (.failSelect job error) (.failUpdate job error (j.attempts + 1))
  | park {job : Job} {r : Uuid} {error : String} {n : ℕ} (hr : job.recordingId = some r)
      (hn : cfg.maxAttempts ≤ n) : Follows cfg db (.failUpdate job error n) (.parkRecording r)
  | reap {row : Job} {r : Uuid} (hrow : row ∈ db.jobs.rows) (hr : row.recordingId = some r)
      (hstuck : stuck db.now cfg.lease row = true)
      (hex : exhausted cfg.maxAttempts row = true) :
      Follows cfg db .reapStuck (.parkRecording r)

variable {cfg : Config} {x : Heard} {db : Db} {c c' : Cmd} {cs : List Cmd}

/-- The inversion of `Cmd.exec` as far as what comes next goes. -/
theorem exec_follows (h : (c.exec cfg x db).2 = .next cs) (hc' : c' ∈ cs) :
    Follows cfg db c c' := by
  cases c with
  | content st =>
    simp only [Cmd.exec] at h
    split at h
    · cases h
    · rename_i hexec
      cases h
      rcases List.mem_map.mp hc' with ⟨st', hst', rfl⟩
      have hfollow := Stmt.exec_follows hexec hst'
      exact .content hfollow.1 hfollow.2.1 hfollow.2.2
  | createRecording | setParticipants =>
    simp only [Cmd.exec] at h
    split at h <;> cases h
  | putSegmentRead r seq a b =>
    simp only [Cmd.exec, fetched] at h
    split at h
    · cases h
    · rename_i st hst
      cases h
      rcases List.mem_cons.mp hc' with rfl | hc'
      · exact .segment
      · split at hc'
        · rename_i huploading
          simp only [List.mem_cons, List.not_mem_nil, or_false] at hc'
          rcases hc' with rfl | rfl
          · exact .live (huploading ▸ hst)
          · exact .reply
        · rw [List.mem_singleton.mp hc']
          exact .reply
  | completeRead r d m =>
    simp only [Cmd.exec, fetched] at h
    split at h
    · cases h
    · rename_i st hst
      split at h
      · cases h
      · rename_i huploading
        cases h
        simp only [List.mem_append, List.mem_map, List.mem_singleton] at hc'
        rcases hc' with (⟨_, -, rfl⟩ | ⟨_, -, rfl⟩) | rfl
        · exact .duration
        · exact .marks
        · exact .accept (by simpa [not_not.mp huploading] using hst)
  | markProcessing r =>
    simp only [Cmd.exec] at h
    split at h
    · rename_i hsome
      cases h
      simp only [List.mem_cons, List.not_mem_nil, or_false] at hc'
      rcases hc' with rfl | rfl
      · exact .process hsome
      · exact .reply
    · cases h
  | reprocessRead r =>
    simp only [Cmd.exec, fetched] at h
    split at h
    · cases h
    · rename_i st hst
      cases h
      rw [List.mem_singleton.mp hc']
      exact .reprocess (by simp [hst])
  | resetForReprocess r =>
    simp only [Cmd.exec] at h
    split at h
    · cases h
      simp only [List.mem_cons, List.not_mem_nil, or_false] at hc'
      rcases hc' with rfl | rfl
      · exact .restart
      · exact .reply
    · cases h
  | rediarizeRead r =>
    simp only [Cmd.exec, fetched] at h
    split at h
    · cases h
    · cases h
      rw [List.mem_singleton.mp hc']
      exact .rediarize
  | resetForRediarize r =>
    simp only [Cmd.exec] at h
    split at h
    · cases h
    · rename_i htr
      split at h
      · cases h
        simp only [List.mem_cons, List.not_mem_nil, or_false] at hc'
        rcases hc' with rfl | rfl
        · exact .redo (by simpa [Option.isSome_iff_ne_none] using htr)
        · exact .reply
      · cases h
  | summarizeRead r template =>
    simp only [Cmd.exec, fetched] at h
    split at h
    · cases h
    · rename_i st hst
      cases h
      simp only [List.mem_cons, List.not_mem_nil, or_false] at hc'
      rcases hc' with rfl | rfl
      · exact .summarize (by simp [hst])
      · exact .reply
  | deleteSpeakerRead r idx =>
    simp only [Cmd.exec, fetched] at h
    split at h
    · cases h
    · cases h
      simp only [List.mem_cons, List.not_mem_nil, or_false] at hc'
      rcases hc' with rfl | rfl | rfl | rfl
      · exact .speaker
      · exact .reembed
      · exact .resummarize
      · exact .reply
  | insertJob r k payload strict =>
    simp only [Cmd.exec] at h
    split at h
    · split at h
      · cases h
      · cases h
        cases hc'
    · split at h
      · cases h
        cases hc'
      · cases h
        rw [List.mem_singleton.mp hc']
        exact .select
  | selectJob r k strict =>
    simp only [Cmd.exec] at h
    split at h
    · cases h
      cases hc'
    · cases h
  | reply code => cases h
  | completeJob job =>
    cases h
    unfold postSteps at hc'
    cases hr : job.recordingId with
    | none => simp [hr] at hc'
    | some r =>
      rw [hr] at hc'
      simp only [List.mem_append, List.mem_map] at hc'
      rcases hc' with (⟨y, hy, rfl⟩ | hc') | hc'
      · exact .succ hr hy
      · split at hc'
        · rename_i hk
          rw [List.mem_singleton.mp hc']
          exact .count hr hk
        · cases hc'
      · split at hc'
        · rename_i hk
          rw [List.mem_singleton.mp hc']
          exact .drain hr hk
        · cases hc'
  | succ r k =>
    cases h
    split at hc'
    · rename_i hdone
      rw [List.mem_singleton.mp hc']
      exact .gate hdone
    · cases hc'
  | maybeMarkReady r =>
    cases h
    split at hc'
    · rename_i hdone
      rw [List.mem_singleton.mp hc']
      exact .ready hdone
    · cases hc'
  | markReady r =>
    simp only [Cmd.exec] at h
    split at h
    · cases h
      cases hc'
    · cases h
  | liveRequeue r =>
    simp only [Cmd.exec] at h
    split at h
    · cases h
    · rename_i st hst
      cases h
      split at hc'
      · rename_i huploading
        rw [List.mem_singleton.mp hc']
        exact .recount (huploading ▸ hst)
      · cases hc'
  | liveRequeueCount r =>
    cases h
    split at hc'
    · rw [List.mem_singleton.mp hc']
      exact .requeue
    · cases hc'
  | failSelect job error =>
    simp only [Cmd.exec] at h
    split at h
    · cases h
    · rename_i j hrow
      cases h
      rw [List.mem_singleton.mp hc']
      exact .fail hrow
  | failUpdate job error n =>
    simp only [Cmd.exec] at h
    split at h
    · cases h
    · cases h
      cases hc'
    · rename_i hwrite
      cases h
      rcases List.mem_map.mp hc' with ⟨r, hr, rfl⟩
      exact .park (Option.mem_toList.mp hr) (by simpa using (failWrite_eq_some hwrite).1)
  | deferJob job delay =>
    simp only [Cmd.exec] at h
    split at h
    · cases h
    · cases h
      cases hc'
  | parkRecording r =>
    cases h
    cases hc'
  | reapStuck =>
    cases h
    rcases List.mem_filterMap.mp hc' with ⟨j, hj, hpark⟩
    rcases Option.map_eq_some_iff.mp hpark with ⟨r, hr, rfl⟩
    rcases List.mem_filter.mp hj with ⟨hj, hex⟩
    rcases List.mem_map.mp hj with ⟨row, hrow, rfl⟩
    rcases List.mem_filter.mp hrow with ⟨hrow, hstuck⟩
    exact .reap hrow hr hstuck hex

/-- A handler's content statements never belong to a stage. -/
theorem follows_content {st : Stmt} (h : Follows cfg db c (.content st))
    (hc : ∀ st', c = .content st' → st'.stage = none) : st.stage = none := by
  cases h with
  | content _ hst => exact hst.trans (hc _ rfl)
  | _ => rfl

end ScribeLocal.Server
