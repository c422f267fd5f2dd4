import ScribeLocal.Server.Content

/-! # What one statement does to each table -/
namespace ScribeLocal.Server
open Table

variable {r : Uuid} {x : Heard} {st : Stmt} {now : Time}
  {status : Uuid → Option RecordingStatus} {content content' : Content} {sts : List Stmt}

/-- An uploaded segment touches nothing else. -/
theorem insertSegment_eq (r : Uuid) (seq : ℤ) (a b : Option ℤ) (content : Content) :
    ∃ segments n, content.nextId ≤ n ∧
      content.insertSegment r seq a b = { content with segments := segments, nextId := n } := by
  unfold Content.insertSegment
  split
  · exact ⟨_, _, le_rfl, rfl⟩
  · exact ⟨_, _, Nat.le_succ _, rfl⟩

/-! ## Segments -/

/-- What one statement does to the segments. -/
theorem exec_segments (h : st.exec now status x content = some (content', sts)) :
    (content'.segments = content.segments ∧ content.nextId ≤ content'.nextId) ∨
      (∃ r seq a b, st = .insertSegment r seq a b ∧
        content' = content.insertSegment r seq a b) ∨
      ∃ r id offset ms, st = .liveMark r id offset ms ∧
        content' = content.markTranscribed now id offset ms := by
  cases st with
  | insertSegment r' seq a b =>
    cases h
    exact .inr (.inl ⟨r', seq, a, b, rfl, rfl⟩)
  | liveMark r' id offset ms =>
    cases h
    exact .inr (.inr ⟨r', id, offset, ms, rfl, rfl⟩)
  | insertMerged r' =>
    cases h
    exact .inl ⟨rfl, Nat.le_add_right _ _⟩
  | liveInsert r' offset segments =>
    left
    cases segments <;> simp only [Stmt.exec] at h
    · cases h
      exact ⟨rfl, le_rfl⟩
    · split at h <;> cases h
      · exact ⟨rfl, le_rfl⟩
      · exact ⟨rfl, Nat.le_add_right _ _⟩
  | _ =>
    left
    simp only [Stmt.exec] at h
    repeat' split at h
    all_goals cases h
    all_goals exact ⟨rfl, le_rfl⟩

/-- Segment ids are the keys of their table. -/
structure Segmented (c : Content) : Prop where
  id_lt : ∀ g ∈ c.segments, g.id < c.nextId
  id_nodup : (c.segments.map Segment.id).Nodup

theorem Segmented.eq_of_id {c : Content} (hc : Segmented c) {g g' : Segment}
    (hg : g ∈ c.segments) (hg' : g' ∈ c.segments) (hid : g.id = g'.id) : g = g' :=
  List.inj_on_of_nodup_map hc.id_nodup hg hg' hid

theorem segmented_of_eq {c c' : Content} (hc : Segmented c) (hseg : c'.segments = c.segments)
    (hle : c.nextId ≤ c'.nextId) : Segmented c' where
  id_lt g hg := (hc.id_lt g (hseg ▸ hg)).trans_le hle
  id_nodup := hseg ▸ hc.id_nodup

/-- A segment is one that was there, at most with other times, or the one just uploaded. -/
theorem mem_insertSegment {c : Content} {seq : ℤ} {a b : Option ℤ} {g : Segment}
    (hg : g ∈ (c.insertSegment r seq a b).segments) :
    (∃ old ∈ c.segments, g.id = old.id ∧ g.recordingId = old.recordingId ∧
      g.transcribedAt = old.transcribedAt ∧
      (g = old ∨ (old.recordingId = r ∧ old.seq = seq ∧ g.startMs = a ∧ g.durationMs = b))) ∨
    g = ⟨c.nextId, r, seq, a, b, none⟩ := by
  unfold Content.insertSegment at hg
  split at hg
  · rcases mem_updateWhere.mp hg with ⟨old, hold, rfl⟩
    left
    refine ⟨old, hold, ?_⟩
    unfold updateRow
    split
    · rename_i hkey
      have hkey := Bool.and_eq_true_iff.mp hkey
      exact ⟨rfl, rfl, rfl, .inr ⟨eq_of_beq hkey.1, eq_of_beq hkey.2, rfl, rfl⟩⟩
    · exact ⟨rfl, rfl, rfl, .inl rfl⟩
  · rcases List.mem_append.mp hg with hg | hg
    · exact .inl ⟨g, hg, rfl, rfl, rfl, .inl rfl⟩
    · exact .inr (List.mem_singleton.mp hg)

/-- No upload takes a segment away. -/
theorem mem_segments_insertSegment {c : Content} {seq : ℤ} {a b : Option ℤ} {g : Segment}
    (hg : g ∈ c.segments) : ∃ g' ∈ (c.insertSegment r seq a b).segments,
      g'.id = g.id ∧ g'.recordingId = g.recordingId ∧ g'.transcribedAt = g.transcribedAt := by
  unfold Content.insertSegment
  split
  · refine ⟨_, mem_updateWhere.mpr ⟨g, hg, rfl⟩, ?_⟩
    unfold updateRow
    split <;> exact ⟨rfl, rfl, rfl⟩
  · exact ⟨g, List.mem_append_left _ hg, rfl, rfl, rfl⟩

theorem segmented_update {c : Content} (hc : Segmented c) {p : Segment → Bool}
    {f : Segment → Segment} (hid : ∀ g, (f g).id = g.id) :
    Segmented { c with segments := updateWhere p f c.segments } where
  id_lt g hg := by
    rcases mem_updateWhere.mp hg with ⟨old, hold, rfl⟩
    rw [column_updateRow hid]
    exact hc.id_lt old hold
  id_nodup := by
    rw [column_updateWhere hid]
    exact hc.id_nodup

theorem segmented_insertSegment {c : Content} (hc : Segmented c) {seq : ℤ} {a b : Option ℤ} :
    Segmented (c.insertSegment r seq a b) := by
  unfold Content.insertSegment
  split
  · exact segmented_update hc fun _ => rfl
  · constructor
    · intro g hg
      rcases List.mem_append.mp hg with hg | hg
      · exact Nat.lt_succ_of_lt (hc.id_lt g hg)
      · rw [List.mem_singleton.mp hg]
        exact Nat.lt_succ_self _
    · change (List.map Segment.id (c.segments ++ [_])).Nodup
      rw [List.map_append, List.nodup_append]
      refine ⟨hc.id_nodup, by simp, ?_⟩
      intro id hid id' hid' heq
      rcases List.mem_map.mp hid with ⟨g, hg, rfl⟩
      have hnew : id' = c.nextId := by simpa using hid'
      have hlt := hc.id_lt g hg
      omega

theorem mem_markTranscribed {c : Content} {id : ℕ} {offset ms : ℤ} {g : Segment}
    (hg : g ∈ (c.markTranscribed now id offset ms).segments) :
    ∃ old ∈ c.segments, g.id = old.id ∧ g.recordingId = old.recordingId ∧
      (g = old ∧ old.id ≠ id ∨ old.id = id ∧ g.transcribedAt = some now ∧
        g.startMs = some offset ∧ g.durationMs = some ms) := by
  rcases mem_updateWhere.mp hg with ⟨old, hold, rfl⟩
  refine ⟨old, hold, ?_⟩
  unfold updateRow
  split
  · rename_i hid
    exact ⟨rfl, rfl, .inr ⟨eq_of_beq hid, rfl, rfl, rfl⟩⟩
  · rename_i hid
    exact ⟨rfl, rfl, .inl ⟨rfl, by simpa using hid⟩⟩

theorem mem_segments_markTranscribed {c : Content} {id : ℕ} {offset ms : ℤ} {g : Segment}
    (hg : g ∈ c.segments) : ∃ g' ∈ (c.markTranscribed now id offset ms).segments,
      g'.id = g.id ∧ g'.recordingId = g.recordingId ∧
      (g' = g ∧ g.id ≠ id ∨ g.id = id ∧ g'.transcribedAt = some now ∧
        g'.startMs = some offset ∧ g'.durationMs = some ms) := by
  refine ⟨_, mem_updateWhere.mpr ⟨g, hg, rfl⟩, ?_⟩
  unfold updateRow
  split
  · rename_i hid
    exact ⟨rfl, rfl, .inr ⟨eq_of_beq hid, rfl, rfl, rfl⟩⟩
  · rename_i hid
    exact ⟨rfl, rfl, .inl ⟨rfl, by simpa using hid⟩⟩

theorem segmented_markTranscribed {c : Content} (hc : Segmented c) {id : ℕ} {offset ms : ℤ} :
    Segmented (c.markTranscribed now id offset ms) :=
  segmented_update hc fun _ => rfl

theorem mem_untranscribed {c : Content} {g : Segment} : g ∈ c.untranscribed r ↔
    g ∈ c.segments ∧ g.recordingId = r ∧ g.transcribedAt = none := by
  simp [Content.untranscribed]

theorem untranscribed_nodup {c : Content} (hc : Segmented c) :
    ((c.untranscribed r).map Segment.id).Nodup := by
  have hperm : (c.untranscribed r).Perm
      (c.segments.filter fun g => g.recordingId == r && g.transcribedAt.isNone) :=
    List.perm_insertionSort _ _
  rw [(hperm.map Segment.id).nodup_iff]
  exact hc.id_nodup.sublist (List.filter_sublist.map Segment.id)

/-! ## Utterances -/

theorem recordingId_of_mem_numbered {r' : Uuid} {first : ℕ} {new : List NewUtterance}
    {u : Utterance} (h : u ∈ Content.numbered r' first new) : u.recordingId = r' := by
  rcases List.mem_map.mp h with ⟨_, -, rfl⟩
  rfl

theorem utterancesOf_insert_self {c : Content} {new : List NewUtterance} :
    (c.insertUtterances r new).utterancesOf r =
      c.utterancesOf r ++ Content.numbered r c.nextId new := by
  have hall : (Content.numbered r c.nextId new).filter (fun u => u.recordingId == r) =
      Content.numbered r c.nextId new :=
    List.filter_eq_self.mpr fun u hu => beq_iff_eq.mpr (recordingId_of_mem_numbered hu)
  rw [Content.utterancesOf, Content.insertUtterances, List.filter_append, hall]
  rfl

theorem utterancesOf_insert_of_ne {r' : Uuid} {c : Content} {new : List NewUtterance}
    (h : r' ≠ r) : (c.insertUtterances r' new).utterancesOf r = c.utterancesOf r := by
  have hnone : (Content.numbered r' c.nextId new).filter (fun u => u.recordingId == r) = [] := by
    apply List.filter_eq_nil_iff.mpr
    intro u hu
    simpa [recordingId_of_mem_numbered hu] using h
  rw [Content.utterancesOf, Content.insertUtterances, List.filter_append, hnone, List.append_nil]
  rfl

theorem utterancesOf_clear {t : List Utterance} :
    (Table.deleteWhere (fun u : Utterance => u.recordingId == r) t).filter
      (fun u => u.recordingId == r) = [] := by
  simp [Table.deleteWhere]

theorem utterancesOf_delete_other {p : Utterance → Bool} {t : List Utterance}
    (h : ∀ u, p u = true → u.recordingId ≠ r) :
    (Table.deleteWhere p t).filter (fun u => u.recordingId == r) =
      t.filter fun u => u.recordingId == r := by
  rw [Table.deleteWhere, List.filter_filter]
  congr 1
  funext u
  by_cases hp : p u = true
  · simp [hp, h u hp]
  · simp [hp]

/-- What one statement does to the utterances of `r` and to the record of its last merge. -/
theorem exec_utterances {now : Time} {status : Uuid → Option RecordingStatus} {st : Stmt}
    {c c' : Content} {sts : List Stmt} (h : st.exec now status x c = some (c', sts))
    (hst : ∀ idx, st ≠ .deleteSpeaker r idx) :
    (c'.utterancesOf r = c.utterancesOf r ∧ c'.lastMerge r = c.lastMerge r) ∨
      (st = .clearUtterances r ∧ c'.utterancesOf r = [] ∧ c'.lastMerge r = c.lastMerge r) ∨
      (st = .insertMerged r ∧ ∃ new, c'.utterancesOf r = c.utterancesOf r ++ new ∧
        c'.lastMerge r = some new) ∨
      (∃ offset segments, st = .liveInsert r offset segments ∧ c'.lastMerge r = c.lastMerge r) := by
  cases st with
  | clearUtterances r' =>
    cases h
    by_cases hr : r' = r
    · subst hr
      exact .inr (.inl ⟨rfl, utterancesOf_clear, rfl⟩)
    · refine .inl ⟨utterancesOf_delete_other fun u hu hur => hr ?_, rfl⟩
      exact (eq_of_beq hu).symm.trans hur
  | insertMerged r' =>
    cases h
    by_cases hr : r' = r
    · subst hr
      exact .inr (.inr (.inl ⟨rfl, _, utterancesOf_insert_self, by simp⟩))
    · exact .inl ⟨utterancesOf_insert_of_ne hr, by simp [Ne.symm hr]⟩
  | liveInsert r' offset segments =>
    cases segments with
    | nil =>
      cases h
      exact .inl ⟨rfl, rfl⟩
    | cons g gs =>
      simp only [Stmt.exec] at h
      split at h
      · cases h
        exact .inl ⟨rfl, rfl⟩
      · cases h
        by_cases hr : r' = r
        · subst hr
          exact .inr (.inr (.inr ⟨offset, _, rfl, rfl⟩))
        · exact .inl ⟨utterancesOf_insert_of_ne hr, rfl⟩
  | deleteSpeaker r' idx =>
    simp only [Stmt.exec] at h
    split at h
    · cases h
      have hr : r' ≠ r := by
        rintro rfl
        exact hst idx rfl
      refine .inl ⟨utterancesOf_delete_other fun u hu hur => hr ?_, rfl⟩
      exact (eq_of_beq (Bool.and_eq_true_iff.mp hu).1).symm.trans hur
    · cases h
  | insertSegment r' seq a b =>
    cases h
    rcases insertSegment_eq r' seq a b c with ⟨_, _, -, heq⟩
    rw [heq]
    exact .inl ⟨rfl, rfl⟩
  | _ =>
    simp only [Stmt.exec] at h
    repeat' split at h
    all_goals (try cases h)
    all_goals exact .inl ⟨rfl, rfl⟩

theorem reset_utterances {r' : Uuid} {c : Content} (hr : r' ≠ r) :
    (c.resetForRediarize r').utterancesOf r = c.utterancesOf r :=
  utterancesOf_delete_other fun _ hu hur => hr ((eq_of_beq hu).symm.trans hur)

/-- An utterance was there before, or a merge or a live pass has just numbered it. -/
theorem exec_utterance (h : st.exec now status x content = some (content', sts))
    (hid : ∀ u ∈ content.utterances, u.id < content.nextId) :
    (∀ u ∈ content'.utterances, u.id < content'.nextId) ∧
    ∀ u ∈ content'.utterances, u ∈ content.utterances ∨ (content.nextId ≤ u.id ∧
      (st = .insertMerged u.recordingId ∨ ∃ offset segments,
        st = .liveInsert u.recordingId offset segments)) := by
  have hkeep {c' : Content} (hle : content.nextId ≤ c'.nextId)
      (hsub : ∀ u ∈ c'.utterances, u ∈ content.utterances) :
      (∀ u ∈ c'.utterances, u.id < c'.nextId) ∧
      ∀ u ∈ c'.utterances, u ∈ content.utterances ∨ (content.nextId ≤ u.id ∧
        (st = .insertMerged u.recordingId ∨ ∃ offset segments,
          st = .liveInsert u.recordingId offset segments)) :=
    ⟨fun u hu => (hid u (hsub u hu)).trans_le hle, fun u hu => .inl (hsub u hu)⟩
  have hinsert (r' : Uuid) (new : List NewUtterance) {u : Utterance}
      (hu : u ∈ (content.insertUtterances r' new).utterances) :
      u.id < content.nextId + new.length ∧
        (u ∈ content.utterances ∨ (content.nextId ≤ u.id ∧ u.recordingId = r')) := by
    rcases List.mem_append.mp hu with hu | hu
    · exact ⟨(hid u hu).trans_le (Nat.le_add_right _ _), .inl hu⟩
    · rcases List.mem_map.mp hu with ⟨⟨v, n⟩, hv, rfl⟩
      have hn := (List.mem_zipIdx hv).2.1
      exact ⟨by simpa using hn, .inr ⟨Nat.le_add_right _ _, rfl⟩⟩
  cases st with
  | insertMerged r' =>
    cases h
    refine ⟨fun u hu => (hinsert r' _ hu).1, fun u hu => ?_⟩
    rcases (hinsert r' _ hu).2 with hold | ⟨hle, rfl⟩
    · exact .inl hold
    · exact .inr ⟨hle, .inl rfl⟩
  | liveInsert r' offset segments =>
    cases segments with
    | nil =>
      cases h
      exact hkeep le_rfl fun u hu => hu
    | cons g gs =>
      simp only [Stmt.exec] at h
      split at h <;> cases h
      · exact hkeep le_rfl fun u hu => hu
      · refine ⟨fun u hu => (hinsert r' _ hu).1, fun u hu => ?_⟩
        rcases (hinsert r' _ hu).2 with hold | ⟨hle, rfl⟩
        · exact .inl hold
        · exact .inr ⟨hle, .inr ⟨_, _, rfl⟩⟩
  | insertSegment r' seq a b =>
    cases h
    rcases insertSegment_eq r' seq a b content with ⟨_, _, hle, heq⟩
    rw [heq]
    exact hkeep hle fun u hu => hu
  | deleteSpeaker r' idx =>
    simp only [Stmt.exec] at h
    split at h <;> cases h
    exact hkeep le_rfl fun u hu => (mem_deleteWhere.mp hu).1
  | clearUtterances r' =>
    cases h
    exact hkeep le_rfl fun u hu => (mem_deleteWhere.mp hu).1
  | _ =>
    simp only [Stmt.exec] at h
    repeat' split at h
    all_goals cases h
    all_goals exact hkeep le_rfl fun u hu => hu

/-! ## Speakers and artifacts -/

theorem exec_speakers (h : st.exec now status x content = some (content', sts))
    {p : RecordingSpeaker} (hp : p ∈ content'.speakers) :
    p ∈ content.speakers ∨ st = .upsertSpeaker p.recordingId p.localIdx := by
  cases st with
  | upsertSpeaker r' idx =>
    simp only [Stmt.exec] at h
    split at h <;> cases h
    · exact .inl hp
    · rcases List.mem_append.mp hp with hp | hp
      · exact .inl hp
      · rw [List.mem_singleton.mp hp]
        exact .inr rfl
  | deleteSpeaker r' idx =>
    simp only [Stmt.exec] at h
    split at h <;> cases h
    exact .inl (mem_deleteWhere.mp hp).1
  | pruneSpeakers r' found =>
    cases h
    exact .inl (mem_deleteWhere.mp hp).1
  | liveInsert r' offset segments =>
    left
    cases segments <;> simp only [Stmt.exec] at h
    · cases h
      exact hp
    · split at h <;> cases h <;> exact hp
  | insertSegment r' seq a b =>
    cases h
    rcases insertSegment_eq r' seq a b content with ⟨_, _, -, heq⟩
    rw [heq] at hp
    exact .inl hp
  | _ =>
    left
    simp only [Stmt.exec] at h
    repeat' split at h
    all_goals cases h
    all_goals exact hp

theorem exec_diarization (h : st.exec now status x content = some (content', sts))
    (hsome : (content'.diarization r).isSome = true) :
    (content.diarization r).isSome = true ∨ ∃ turns, st = .putDiarization r turns := by
  cases st with
  | putDiarization r' turns =>
    cases h
    by_cases hr : r = r'
    · exact .inr ⟨turns, by rw [hr]⟩
    · exact .inl (by simpa [hr] using hsome)
  | liveInsert r' offset segments =>
    left
    cases segments <;> simp only [Stmt.exec] at h
    · cases h
      exact hsome
    · split at h <;> cases h <;> exact hsome
  | insertSegment r' seq a b =>
    cases h
    rcases insertSegment_eq r' seq a b content with ⟨_, _, -, heq⟩
    rw [heq] at hsome
    exact .inl hsome
  | _ =>
    left
    simp only [Stmt.exec] at h
    repeat' split at h
    all_goals cases h
    all_goals exact hsome

theorem exec_participants (h : st.exec now status x content = some (content', sts)) :
    content'.participantsExpected = content.participantsExpected := by
  cases st with
  | liveInsert r' offset segments =>
    cases segments <;> simp only [Stmt.exec] at h
    · cases h
      rfl
    · split at h <;> cases h <;> rfl
  | insertSegment r' seq a b =>
    cases h
    rcases insertSegment_eq r' seq a b content with ⟨_, _, -, heq⟩
    rw [heq]
  | _ =>
    simp only [Stmt.exec] at h
    repeat' split at h
    all_goals cases h
    all_goals rfl

/-! ## Chunks and summaries -/

theorem exec_chunks (h : st.exec now status x content = some (content', sts)) {k : Chunk}
    (hk : k ∈ content'.chunks) : k ∈ content.chunks ∨
      ∃ new, st = .insertChunks k.recordingId new ∧ k.toNewChunk ∈ new := by
  cases st with
  | insertChunks r' new =>
    cases h
    rcases List.mem_append.mp hk with hk | hk
    · exact .inl hk
    · rcases List.mem_map.mp hk with ⟨n, hn, rfl⟩
      exact .inr ⟨new, rfl, hn⟩
  | deleteChunks r' =>
    cases h
    exact .inl (mem_deleteWhere.mp hk).1
  | insertSegment r' seq a b =>
    cases h
    rcases insertSegment_eq r' seq a b content with ⟨_, _, -, heq⟩
    rw [heq] at hk
    exact .inl hk
  | liveInsert r' offset segments =>
    left
    cases segments <;> simp only [Stmt.exec] at h
    · cases h
      exact hk
    · split at h <;> cases h <;> exact hk
  | _ =>
    left
    simp only [Stmt.exec] at h
    repeat' split at h
    all_goals cases h
    all_goals exact hk

/-- A summary was there before, and was not the one to be replaced, or is the new one. -/
theorem exec_summaries (h : st.exec now status x content = some (content', sts)) {y : Summary}
    (hy : y ∈ content'.summaries) :
    (y ∈ content.summaries ∧ st ≠ .upsertSummary y.recordingId y.template) ∨
      st = .upsertSummary y.recordingId y.template := by
  by_cases hst : st = .upsertSummary y.recordingId y.template
  · exact .inr hst
  · refine .inl ⟨?_, hst⟩
    cases st with
    | upsertSummary r' template =>
      cases h
      rcases List.mem_append.mp hy with hy | hy
      · exact (mem_deleteWhere.mp hy).1
      · rw [List.mem_singleton.mp hy] at hst
        exact absurd rfl hst
    | insertSegment r' seq a b =>
      cases h
      rcases insertSegment_eq r' seq a b content with ⟨_, _, -, heq⟩
      rw [heq] at hy
      exact hy
    | liveInsert r' offset segments =>
      cases segments <;> simp only [Stmt.exec] at h
      · cases h
        exact hy
      · split at h <;> cases h <;> exact hy
    | _ =>
      simp only [Stmt.exec] at h
      repeat' split at h
      all_goals cases h
      all_goals exact hy

/-- A chunk has the speaker of an utterance. -/
theorem localIdx_of_mem_windowsFrom {u : Utterance} {k : NewChunk} {winStart : ℤ}
    (h : k ∈ Embed.windowsFrom u winStart) : k.localIdx = u.localIdx := by
  have hchunk {a b : ℤ} (hk : k ∈ Embed.windowChunk u a b) : k.localIdx = u.localIdx := by
    simp only [Embed.windowChunk] at hk
    split at hk
    · cases hk
    · rw [List.mem_singleton.mp hk]
  induction winStart using Embed.windowsFrom.induct u with
  | case1 winStart hlt winEnd ih =>
    rw [Embed.windowsFrom, if_pos hlt] at h
    rcases List.mem_append.mp h with hk | hk
    · exact hchunk hk
    · split at hk
      · cases hk
      · rename_i hmore
        exact ih hmore hk
  | case2 winStart hend =>
    rw [Embed.windowsFrom, if_neg hend] at h
    cases h

theorem localIdx_of_mem_buildChunks {us : List Utterance} {k : NewChunk}
    (h : k ∈ Embed.buildChunks us) : ∃ u ∈ us, k.localIdx = u.localIdx := by
  rcases List.mem_flatMap.mp h with ⟨u, hu, hk⟩
  refine ⟨u, hu, ?_⟩
  unfold Embed.chunksOf at hk
  split at hk
  · cases hk
  · split at hk
    · rw [List.mem_singleton.mp hk]
    · exact localIdx_of_mem_windowsFrom hk

end ScribeLocal.Server
