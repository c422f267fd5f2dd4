import ScribeLocal.Server.LivePass
import ScribeLocal.Server.Once

/-! # The transcode job and the complete that brings it

Until a recording has a transcode job it is in `uploading`, unless a live job has
failed for good or an accepted complete has not got as far as its enqueue.
-/
namespace ScribeLocal.Server
open Table Jobs Transition

variable {cfg : Config} {r : Uuid} {s s' : Sys} {a : Label} {x : Heard} {db : Db} {c c' : Cmd}
  {i : ℕ} {rest : List Cmd}

/-- The recording has a transcode job, in whatever state. -/
def HasTranscode (r : Uuid) (s : Sys) : Prop := s.db.jobs.has r .transcode (fun _ => true) = true

instance : Decidable (HasTranscode r s) := inferInstanceAs (Decidable (_ = true))

theorem hasTranscode_iff : HasTranscode r s ↔
    ∃ row ∈ s.db.jobs.rows, row.recordingId = some r ∧ row.kind = .transcode := by
  simp [HasTranscode, has_iff]

/-- What has happened to a recording so far. -/
structure UploadLog where
  /-- A complete was let past its status check. -/
  accepted : Bool := false
  /-- The recording was marked failed while it had no transcode job. -/
  parked : Bool := false

/-- The step marks recording `r` failed, and it has no transcode job. -/
def parks (r : Uuid) (s : Sys) : Label → Bool
  | .step i _ =>
    match s.procs i with
    | .todo (.parkRecording r' :: _) => r' = r ∧ ¬ HasTranscode r s
    | _ => false
  | _ => false

def UploadLog.note (r : Uuid) (s : Sys) (a : Label) (l : UploadLog) : UploadLog :=
  ⟨l.accepted || accepts r s a = 1, l.parked || parks r s a⟩

variable {l : UploadLog}

theorem note_accepted (h : l.accepted = true) : (l.note r s a).accepted = true := by
  simp [UploadLog.note, h]

theorem note_parked (h : l.parked = true) : (l.note r s a).parked = true := by
  simp [UploadLog.note, h]

theorem note_of_accept {d : Option ℤ} {m : Option (List ℤ)}
    (hproc : s.procs i = .todo (.completeRead r d m :: rest))
    (hst : s.db.status r = some .uploading) : (l.note r s (.step i x)).accepted = true := by
  simp [UploadLog.note, accepts, hproc, hst]

theorem note_of_park (hproc : s.procs i = .todo (.parkRecording r :: rest))
    (hno : ¬ HasTranscode r s) : (l.note r s (.step i x)).parked = true := by
  simp [UploadLog.note, parks, hproc, hno]

/-! ## Before the transcode job -/

/-- The commands on the lists while no transcode job has been inserted. -/
def Cmd.early (r : Uuid) : Cmd → Prop
  | .insertJob r' k _ _ => r' = r → k = .transcribeSegment ∨ k = .transcode
  | .succ r' _ | .maybeMarkReady r' | .markReady r' => r' ≠ r
  | _ => True

/-- What holds of a recording that has no transcode job yet. -/
structure Untranscoded (r : Uuid) (l : UploadLog) (s : Sys) : Prop where
  kinds : ∀ row ∈ s.db.jobs.rows, row.recordingId = some r → row.kind = .transcribeSegment
  held : ∀ i job, (s.procs i).job? = some job → job.recordingId = some r →
    job.kind = .transcribeSegment
  cmds : ∀ i cs, s.procs i = .todo cs → ∀ c ∈ cs, c.early r
  status : s.db.status r = none ∨ s.db.status r = some .uploading ∨ l.parked = true ∨
    Pending true s (enqueue r .transcode {})

theorem follows_early (h : Follows cfg db c c') (hc : c.early r) (hedit : ¬ c.edits r)
    (hlive : ∀ job, c.job? = some job → job.recordingId = some r →
      job.kind = .transcribeSegment) : c'.early r := by
  cases h with
  | live | requeue => exact fun _ => .inl rfl
  | process | restart => exact fun _ => .inr rfl
  | redo | summarize | reembed | resummarize => exact fun hr => absurd hr hedit
  | @succ job _ y hr hy =>
    rintro rfl
    rw [hlive job rfl hr] at hy
    cases hy
  | @count job _ hr hk =>
    rintro rfl
    simp [hlive job rfl hr] at hk
  | gate => exact fun hr => absurd hr hc
  | ready => exact hc
  | _ => trivial

/-- The enqueue of the transcode job leaves one behind. -/
theorem hasTranscode_insert (hsome : (s.db.status r).isSome = true) :
    (Cmd.exec cfg x s.db (enqueue r .transcode {})).1.jobs.has r .transcode (fun _ => true) = true := by
  have hlive : (Cmd.exec cfg x s.db (enqueue r .transcode {})).1.jobs.has r .transcode Job.isLive =
      true := by
    rw [(exec_enqueue cfg x .transcode hsome).1]
    exact (jobsFrame_insert (r := r) (x := fun _ => False)).2
  rcases has_iff.mp hlive with ⟨row, hrow, hk, -⟩
  exact has_iff.mpr ⟨row, hrow, hk, rfl⟩

theorem hasTranscode_moved (hno : NoEdits r s) (h : Moved cfg s a s') (hhas : HasTranscode r s) :
    HasTranscode r s' := by
  rcases hasTranscode_iff.mp hhas with ⟨row, hrow, hr, hk⟩
  rcases moved_row_kept h (fun i x c rest _ hproc => noReset hno hproc) hrow hr with
    ⟨row', hrow', hcont⟩
  exact hasTranscode_iff.mpr
    ⟨row', hrow', hcont.recordingId.trans hr, hcont.kind.trans hk⟩

/-! ## One step -/

/-- What holds of a recording whose only client uploads it. -/
structure Upload (r : Uuid) (l : UploadLog) (s : Sys) : Prop where
  noEdits : NoEdits r s
  entering : ∀ i cs, s.procs i = .todo cs → ∀ c ∈ cs, c.enters r .transcode → l.accepted = true
  accepted : HasTranscode r s → l.accepted = true
  untranscoded : ¬ HasTranscode r s → Untranscoded r l s

theorem upload_start : Upload r {} Sys.start where
  noEdits _ _ h := nomatch h
  entering _ _ h := nomatch h
  accepted h := by
    rcases hasTranscode_iff.mp h with ⟨row, hrow, -⟩
    cases hrow
  untranscoded _ := by
    constructor
    · exact fun row hrow => nomatch hrow
    · exact fun i job hjob => nomatch hjob
    · exact fun i cs hproc => nomatch hproc
    · exact .inl rfl

theorem entering_note (h : Upload r l s) (hmoved : Moved cfg s a s') :
    ∀ i cs, s'.procs i = .todo cs → ∀ c ∈ cs, c.enters r .transcode →
      (l.note r s a).accepted = true := by
  apply moved_todo (P := fun c => c.enters r .transcode → (l.note r s a).accepted = true) hmoved
  · intro i cs hproc c hc hin
    exact note_accepted (h.entering i cs hproc c hc hin)
  · rintro i x c rest c' rfl hproc hfollow hin
    have hedit := h.noEdits i _ hproc c List.mem_cons_self
    rcases follows_enters hfollow hin rfl hedit with hc | ⟨d, m, rfl, hst, -⟩ | ⟨job, -, -, hy⟩
    · exact note_accepted (h.entering i _ hproc c List.mem_cons_self hc)
    · exact note_of_accept hproc hst
    · cases hk : job.kind <;> rw [hk] at hy <;> simp [JobKind.successors] at hy
  · intro i q _ hin
    cases q <;> cases hin
  · exact False.elim
  · exact fun _ _ _ => False.elim
  · exact fun _ _ _ _ _ _ => False.elim
  · exact fun _ _ _ _ _ => False.elim

theorem accepted_note (h : Upload r l s) (hmoved : Moved cfg s a s') (hhas : HasTranscode r s') :
    (l.note r s a).accepted = true := by
  rcases hasTranscode_iff.mp hhas with ⟨row, hrow, hr, hk⟩
  rcases moved_rows hmoved hrow with ⟨old, hold, hcont⟩ |
    ⟨i, x, r', k, payload, strict, rest, -, hproc, rfl⟩
  · exact note_accepted (h.accepted (hasTranscode_iff.mpr
      ⟨old, hold, hcont.recordingId.symm.trans hr, hcont.kind.symm.trans hk⟩))
  · exact note_accepted
      (h.entering i _ hproc _ List.mem_cons_self ⟨Option.some.inj hr, hk⟩)

theorem untranscoded_note (hs : Snapshot s) (h : Upload r l s) (hearly : Untranscoded r l s)
    (hno : ¬ HasTranscode r s) (hmoved : Moved cfg s a s') (hno' : ¬ HasTranscode r s') :
    Untranscoded r (l.note r s a) s' where
  kinds row hrow hr := by
    rcases moved_rows hmoved hrow with ⟨old, hold, hcont⟩ |
      ⟨i, x, r', k, payload, strict, rest, -, hproc, rfl⟩
    · exact hcont.kind.trans (hearly.kinds old hold (hcont.recordingId.symm.trans hr))
    · rcases hearly.cmds i _ hproc _ List.mem_cons_self (Option.some.inj hr) with rfl | rfl
      · rfl
      · exact absurd (hasTranscode_iff.mpr ⟨_, hrow, hr, rfl⟩) hno'
  held i job hjob hr := by
    rcases moved_job hs hmoved hjob with hold | ⟨w, kinds, t, -, hclaim⟩
    · exact hearly.held i job hold hr
    · rcases claimOne_eq_some hclaim with ⟨j, hrow, -, hj, -⟩
      change job = claimed s.db.now w j at hj
      rw [hj] at hr ⊢
      exact hearly.kinds j (row_eq_some.mp hrow).1 hr
  cmds := by
    apply moved_todo (P := Cmd.early r) hmoved hearly.cmds
    · intro i x c rest c' _ hproc hfollow
      have hmem : c ∈ c :: rest := List.mem_cons_self
      apply follows_early hfollow (hearly.cmds i _ hproc c hmem) (h.noEdits i _ hproc c hmem)
      intro job hjob
      exact hearly.held i job (by rw [hproc]; exact hjob)
    · intro i q _
      cases q <;> trivial
    · trivial
    · exact fun _ _ _ => trivial
    · exact fun _ _ _ _ _ _ => trivial
    · exact fun _ _ _ _ _ => trivial
  status := by
    -- what the recording's status was is still a reason, or the step has just given one
    have hkeep (hstatus : s'.db.status r = s.db.status r) : s'.db.status r = none ∨
        s'.db.status r = some .uploading ∨ (l.note r s a).parked = true ∨
        Pending true s' (enqueue r .transcode {}) := by
      rw [hstatus]
      rcases hearly.status with hst | hst | hparked | hpend
      · exact .inl hst
      · exact .inr (.inl hst)
      · exact .inr (.inr (.inl (note_parked hparked)))
      · rcases moved_pending_kept hmoved hpend with hpend | ⟨i, x, rest, rfl, hproc⟩
        · exact .inr (.inr (.inr hpend))
        · left
          by_contra hsome
          apply hno'
          obtain rfl := next_of_todo hmoved hproc
          exact hasTranscode_insert (Option.isSome_iff_ne_none.mpr hsome)
    cases hmoved with
    | @cmd i c rest x hproc =>
      have hmem : c ∈ c :: rest := List.mem_cons_self
      rcases exec_status cfg x s.db c r with heq | ⟨-, -, hst⟩ | ⟨rfl | rfl | rfl, hst⟩ |
        ⟨rfl, -⟩ | ⟨rfl, -⟩
      · exact hkeep heq
      · exact .inr (.inl hst)
      · refine .inr (.inr (.inr ⟨i, ?_⟩))
        have hsome : (s.db.status r).isSome = true := by
          by_contra hnone
          simp only [Cmd.exec, if_neg hnone] at hst
          simp [hst] at hnone
        simp [Cmd.exec, hsome, advance, Proc.pending]
      · exact absurd rfl (h.noEdits i _ hproc _ hmem)
      · exact absurd rfl (h.noEdits i _ hproc _ hmem)
      · exact absurd rfl (hearly.cmds i _ hproc _ hmem)
      · exact .inr (.inr (.inl (note_of_park hproc hno)))
    | _ => exact hkeep rfl

/-- Whatever the server does, a recording that only its phone uploads stays in order. -/
theorem upload_moved (hs : Snapshot s) (h : Upload r l s)
    (hreq : ∀ i q, a = .request i q → q.spares r) (hmoved : Moved cfg s a s') :
    Upload r (l.note r s a) s' where
  noEdits := noEdits_moved h.noEdits hreq hmoved
  entering := entering_note h hmoved
  accepted := accepted_note h hmoved
  untranscoded hno' := by
    have hno : ¬ HasTranscode r s := fun hhas => hno' (hasTranscode_moved h.noEdits hmoved hhas)
    exact untranscoded_note hs h (h.untranscoded hno) hno hmoved hno'

/-- A complete that finds the recording past `uploading` finds its transcode job, unless the
recording has failed too early or a complete has not got as far as its enqueue. -/
theorem hasTranscode_of_status (h : Upload r l s) {st : RecordingStatus}
    (hst : s.db.status r = some st) (hne : st ≠ .uploading)
    (hok : HasTranscode r s ∨ l.parked = false ∧ ¬ Pending true s (enqueue r .transcode {})) :
    HasTranscode r s := by
  by_contra hno
  rcases hok.resolve_left hno with ⟨hparked, hpend⟩
  rcases (h.untranscoded hno).status with hnone | hup | hp | hp
  · cases hst.symm.trans hnone
  · exact hne (Option.some.inj (hst.symm.trans hup))
  · cases hparked.symm.trans hp
  · exact hpend hp

/-! ## Two handlers, statement by statement -/

/-- The process is over, with an error that does not say the recording is complete. -/
def Refused (i : ℕ) (s : Sys) : Prop :=
  ∃ reply left, s.procs i = .ended reply left ∧ ∀ code, reply = some code → 400 ≤ code ∧ code ≠ 409

theorem refused_moved (h : Moved cfg s a s') (hrefused : Refused i s) : Refused i s' := by
  rcases hrefused with ⟨reply, left, hproc, hcode⟩
  exact ⟨reply, left, moved_ended h hproc, hcode⟩

theorem refused_of_none {left : List Cmd} (h : s.procs i = .ended none left) : Refused i s :=
  ⟨none, left, h, nofun⟩

theorem refused_of_unknown {left : List Cmd} (h : s.procs i = .ended (some 404) left) :
    Refused i s :=
  ⟨some 404, left, h, by simp⟩

/-- The server has a row for this segment. -/
def HasSegment (r : Uuid) (seq : ℤ) (content : Content) : Prop :=
  ∃ g ∈ content.segments, g.recordingId = r ∧ g.seq = seq

variable {seq : ℤ} {content : Content}

theorem hasSegment_update {p : Segment → Bool} {f : Segment → Segment}
    (hr : ∀ g, (f g).recordingId = g.recordingId) (hseq : ∀ g, (f g).seq = g.seq)
    (h : HasSegment r seq content) :
    HasSegment r seq { content with segments := updateWhere p f content.segments } := by
  rcases h with ⟨g, hg, hgr, hgs⟩
  exact ⟨updateRow p f g, mem_updateWhere.mpr ⟨g, hg, rfl⟩, (column_updateRow hr g).trans hgr,
    (column_updateRow hseq g).trans hgs⟩

theorem hasSegment_insert {d e : Option ℤ} : HasSegment r seq (content.insertSegment r seq d e) := by
  unfold Content.insertSegment
  split
  · rename_i hany
    rcases List.any_eq_true.mp hany with ⟨g, hg, hkey⟩
    have hkey := Bool.and_eq_true_iff.mp hkey
    have hold : HasSegment r seq content := ⟨g, hg, eq_of_beq hkey.1, eq_of_beq hkey.2⟩
    exact hasSegment_update (fun _ => rfl) (fun _ => rfl) hold
  · exact ⟨_, List.mem_append_right _ (List.mem_singleton_self _), rfl, rfl⟩

theorem hasSegment_insert_kept {r' : Uuid} {seq' : ℤ} {d e : Option ℤ} (h : HasSegment r seq content) :
    HasSegment r seq (content.insertSegment r' seq' d e) := by
  unfold Content.insertSegment
  split
  · exact hasSegment_update (fun _ => rfl) (fun _ => rfl) h
  · rcases h with ⟨g, hg, hkey⟩
    exact ⟨g, List.mem_append_left _ hg, hkey⟩

theorem hasSegment_moved (hst : Staged s) (hmoved : Moved cfg s a s')
    (h : HasSegment r seq s.db.content) : HasSegment r seq s'.db.content := by
  rcases moved_segments hst hmoved with ⟨heq, -⟩ | ⟨-, -, r', seq', d, e, -, -, -, heq⟩ |
    ⟨-, -, -, r', id, offset, ms, -, -, -, heq⟩
  · rcases h with ⟨g, hg, hkey⟩
    exact ⟨g, heq ▸ hg, hkey⟩
  · rw [heq]
    exact hasSegment_insert_kept h
  · rw [heq]
    exact hasSegment_update (fun _ => rfl) (fun _ => rfl) h

/-- Process `i` stores the segment's row before it answers with success. -/
inductive Putting (r : Uuid) (seq : ℤ) (i : ℕ) (s : Sys) : Prop
  | stored (h : HasSegment r seq s.db.content)
  | read {d e : Option ℤ} (h : s.procs i = .todo [.putSegmentRead r seq d e])
  | insert {d e : Option ℤ} {rest : List Cmd}
      (h : s.procs i = .todo (.content (.insertSegment r seq d e) :: rest))
  | refused (h : Refused i s)

theorem putting_moved (hst : Staged s) (hmoved : Moved cfg s a s') (h : Putting r seq i s) :
    Putting r seq i s' := by
  cases h with
  | stored h => exact .stored (hasSegment_moved hst hmoved h)
  | refused h => exact .refused (refused_moved hmoved h)
  | @read d e h =>
    rcases moved_todo_at hmoved h with hsame | ⟨x, -, rfl⟩ | hstop
    · exact .read (hsame.trans h)
    · have hnext : (s.after cfg x i (.putSegmentRead r seq d e) []).procs i =
          advance [] (Cmd.exec cfg x s.db (.putSegmentRead r seq d e)).2 := after_procs_self
      simp only [Cmd.exec, fetched] at hnext
      split at hnext
      · exact .refused (refused_of_unknown hnext)
      · exact .insert hnext
    · exact .refused (refused_of_none hstop)
  | @insert d e rest h =>
    rcases moved_todo_at hmoved h with hsame | ⟨x, -, rfl⟩ | hstop
    · exact .insert (hsame.trans h)
    · exact .stored hasSegment_insert
    · exact .refused (refused_of_none hstop)

/-- Process `i` inserts the transcode job before it answers with success or a conflict. -/
inductive Completing (r : Uuid) (i : ℕ) (s : Sys) : Prop
  | entered (h : HasTranscode r s)
  | read {d : Option ℤ} {m : Option (List ℤ)} (h : s.procs i = .todo [.completeRead r d m])
  | process {sts : List Stmt}
      (hsts : ∀ st ∈ sts, (∃ ms, st = .setDuration r ms) ∨ ∃ ms, st = .setMarks r ms)
      (h : s.procs i = .todo (sts.map .content ++ [.markProcessing r]))
  | enter (h : s.procs i = .todo [enqueue r .transcode {}, .reply 200])
  | refused (h : Refused i s)

theorem completing_moved (hup : Upload r l s) (hmoved : Moved cfg s a s')
    (hok : ∀ x d m rest, a = .step i x → s.procs i = .todo (.completeRead r d m :: rest) →
      HasTranscode r s ∨ l.parked = false ∧ ¬ Pending true s (enqueue r .transcode {}))
    (h : Completing r i s) : Completing r i s' := by
  have hkept (hhas : HasTranscode r s) : Completing r i s' :=
    .entered (hasTranscode_moved hup.noEdits hmoved hhas)
  cases h with
  | entered h => exact hkept h
  | refused h => exact .refused (refused_moved hmoved h)
  | @read d m h =>
    rcases moved_todo_at hmoved h with hsame | ⟨x, rfl, heq⟩ | hstop
    · exact .read (hsame.trans h)
    · have hnext : s'.procs i = advance [] (Cmd.exec cfg x s.db (.completeRead r d m)).2 := by
        rw [heq]
        exact after_procs_self
      cases hst : s.db.status r with
      | none =>
        simp only [Cmd.exec, fetched, hst] at hnext
        exact .refused (refused_of_unknown hnext)
      | some st =>
        by_cases huploading : st = .uploading
        · have hproc : s'.procs i = .todo ((d.toList.map (Stmt.setDuration r) ++
              m.toList.map (Stmt.setMarks r)).map .content ++ [.markProcessing r]) := by
            rw [hnext]
            simp [Cmd.exec, fetched, hst, huploading, advance, Function.comp_def]
          refine .process (fun st hst => ?_) hproc
          rcases List.mem_append.mp hst with hst | hst
          · rcases List.mem_map.mp hst with ⟨ms, -, rfl⟩
            exact .inl ⟨ms, rfl⟩
          · rcases List.mem_map.mp hst with ⟨ms, -, rfl⟩
            exact .inr ⟨ms, rfl⟩
        · exact hkept (hasTranscode_of_status hup hst huploading (hok x d m [] rfl h))
    · exact .refused (refused_of_none hstop)
  | @process sts hsts h =>
    cases sts with
    | nil =>
      rcases moved_todo_at hmoved h with hsame | ⟨x, -, rfl⟩ | hstop
      · exact .process hsts (hsame.trans h)
      · have hnext : (s.after cfg x i (.markProcessing r) []).procs i =
            advance [] (Cmd.exec cfg x s.db (.markProcessing r)).2 := after_procs_self
        simp only [Cmd.exec] at hnext
        split at hnext
        · exact .enter hnext
        · exact .refused (refused_of_none hnext)
      · exact .refused (refused_of_none hstop)
    | cons st sts =>
      rcases moved_todo_at hmoved h with hsame | ⟨x, -, rfl⟩ | hstop
      · exact .process hsts (hsame.trans h)
      · refine .process (fun st' hst' => hsts st' (List.mem_cons_of_mem _ hst')) ?_
        rw [after_procs_self]
        rcases hsts st List.mem_cons_self with ⟨ms, rfl⟩ | ⟨ms, rfl⟩ <;> rfl
      · exact .refused (refused_of_none hstop)
  | enter h =>
    rcases moved_todo_at hmoved h with hsame | ⟨x, -, rfl⟩ | hstop
    · exact .enter (hsame.trans h)
    · by_cases hsome : (s.db.status r).isSome = true
      · exact .entered (hasTranscode_insert hsome)
      · have hnone : s.db.status r = none := by simpa using hsome
        have hnext : (s.after cfg x i (enqueue r .transcode {}) [.reply 200]).procs i =
            .ended none [.reply 200] := by
          rw [after_procs_self]
          simp [enqueue, Cmd.exec, hnone, advance]
        exact .refused (refused_of_none hnext)
    · exact .refused (refused_of_none hstop)

end ScribeLocal.Server
