import ScribeLocal.Server.Outcome

/-! # A stage under way

The tables a stage fills may hold what an earlier attempt left in them. What its remaining
statements rely on is what the statements before them have established.
-/
namespace ScribeLocal.Server
open Table

variable {e : Engines} {template : String} {r r' : Uuid} {c c' : Content} {k : JobKind}
  {st : Stmt} {body sts : List Stmt} {now : Time} {status : Uuid → Option RecordingStatus}
  {x : Heard}

/-! ## What other statements leave alone -/

/-- The statement writes artifacts of `r` outside the stages that make them. -/
def intrudes (r : Uuid) : Stmt → Prop
  | .setDuration r' _ | .deleteSpeaker r' _ | .liveInsert r' _ _ => r' = r
  | _ => False

theorem filter_deleteWhere {α : Type*} {p q : α → Bool} {t : List α}
    (h : ∀ a, p a = true → q a = false) : (deleteWhere p t).filter q = t.filter q := by
  rw [deleteWhere, List.filter_filter]
  congr 1
  funext a
  cases hp : p a with
  | false => simp
  | true => simp [h a hp]

/-- Deleting rows of another recording leaves those of `r`. -/
theorem filter_deleteWhere_of_ne {α : Type*} {p : α → Bool} {t : List α} {rec : α → Uuid}
    (hne : r ≠ r') (h : ∀ a, p a = true → rec a = r') :
    (deleteWhere p t).filter (fun a => rec a == r) = t.filter fun a => rec a == r := by
  apply filter_deleteWhere
  intro a ha
  rw [h a ha]
  simpa using hne.symm

theorem filter_append_of_ne {α : Type*} {t new : List α} {rec : α → Uuid} (hne : r ≠ r')
    (h : ∀ a ∈ new, rec a = r') :
    (t ++ new).filter (fun a => rec a == r) = t.filter fun a => rec a == r := by
  rw [List.filter_append, List.append_right_eq_self, List.filter_eq_nil_iff]
  intro a ha hr
  exact hne ((eq_of_beq hr).symm.trans (h a ha))

theorem filter_deleted {α : Type*} {t : List α} {rec : α → Uuid} :
    (deleteWhere (fun a => rec a == r) t).filter (fun a => rec a == r) = [] := by
  rw [List.filter_eq_nil_iff]
  intro a ha
  simp [(mem_deleteWhere.mp ha).2]

theorem filter_stored (new : List NewChunk) :
    ((new.map fun k => ({ k with recordingId := r } : Chunk)).filter fun k =>
      k.recordingId == r).map Chunk.toNewChunk = new := by
  rw [List.filter_eq_self.mpr, List.map_map]
  · exact List.map_id _
  · intro k hk
    obtain ⟨_, -, rfl⟩ := List.mem_map.mp hk
    exact beq_self_eq_true r

/-- A statement of another stage or recording leaves the tables of a stage alone. -/
theorem exec_same (h : st.exec now status x c = some (c', sts))
    (hst : st.recording = r → st.stage ≠ some k) (hin : ¬ intrudes r st) : Same r c c' k := by
  -- the tables of the stage are the same for each kind that the statement does not belong to
  cases st with
  | setDuration r' ms =>
    cases h
    have hne : r ≠ r' := fun heq => hin heq.symm
    cases k with
    | transcode => exact Function.update_of_ne hne ..
    | _ => first | exact rfl | exact ⟨rfl, fun _ => Iff.rfl⟩ | exact trivial
  | measureDuration r' =>
    cases h
    cases k with
    | transcode => exact Function.update_of_ne (fun heq => hst heq.symm rfl) ..
    | _ => first | exact rfl | exact ⟨rfl, fun _ => Iff.rfl⟩ | exact trivial
  | putDiarization r' turns =>
    cases h
    cases k with
    | diarize => exact ⟨Function.update_of_ne (fun heq => hst heq.symm rfl) .., fun _ => Iff.rfl⟩
    | _ => first | exact rfl | exact ⟨rfl, fun _ => Iff.rfl⟩ | exact trivial
  | putTranscript r' =>
    cases h
    cases k with
    | transcribe => exact Function.update_of_ne (fun heq => hst heq.symm rfl) ..
    | _ => first | exact rfl | exact ⟨rfl, fun _ => Iff.rfl⟩ | exact trivial
  | deleteSpeaker r' idx =>
    simp only [Stmt.exec] at h
    split at h <;> cases h
    have hne : r ≠ r' := fun heq => hin heq.symm
    cases k with
    | diarize =>
      refine ⟨rfl, fun idx' => ?_⟩
      rw [mem_deleteWhere]
      exact ⟨fun hp => hp.1, fun hp => ⟨hp, by simp [hne]⟩⟩
    | merge =>
      apply filter_deleteWhere_of_ne hne
      exact fun u hu => eq_of_beq (Bool.and_eq_true_iff.mp hu).1
    | _ => first | exact rfl | exact ⟨rfl, fun _ => Iff.rfl⟩ | exact trivial
  | upsertSpeaker r' idx =>
    simp only [Stmt.exec] at h
    split at h <;> cases h
    · exact Same.refl r c k
    · cases k with
      | diarize =>
        refine ⟨rfl, fun idx' => ?_⟩
        rw [List.mem_append, List.mem_singleton, or_iff_left]
        intro heq
        exact hst (congrArg RecordingSpeaker.recordingId heq).symm rfl
      | _ => first | exact rfl | exact ⟨rfl, fun _ => Iff.rfl⟩ | exact trivial
  | pruneSpeakers r' found =>
    cases h
    cases k with
    | diarize =>
      refine ⟨rfl, fun idx' => ?_⟩
      have hne : r ≠ r' := fun heq => hst heq.symm rfl
      rw [mem_deleteWhere]
      exact ⟨fun hp => hp.1, fun hp => ⟨hp, by simp [hne]⟩⟩
    | _ => first | exact rfl | exact ⟨rfl, fun _ => Iff.rfl⟩ | exact trivial
  | clearUtterances r' =>
    cases h
    cases k with
    | merge =>
      apply filter_deleteWhere_of_ne fun heq => hst heq.symm rfl
      exact fun u hu => eq_of_beq hu
    | _ => first | exact rfl | exact ⟨rfl, fun _ => Iff.rfl⟩ | exact trivial
  | insertMerged r' =>
    cases h
    cases k with
    | merge => exact utterancesOf_insert_of_ne fun heq => hst heq rfl
    | _ => first | exact rfl | exact ⟨rfl, fun _ => Iff.rfl⟩ | exact trivial
  | liveInsert r' offset segments =>
    cases segments with
    | nil =>
      cases h
      exact Same.refl r c k
    | cons g gs =>
      simp only [Stmt.exec] at h
      split at h <;> cases h
      · exact Same.refl r c k
      · cases k with
        | merge => exact utterancesOf_insert_of_ne fun heq => hin heq
        | _ => first | exact rfl | exact ⟨rfl, fun _ => Iff.rfl⟩ | exact trivial
  | deleteChunks r' =>
    cases h
    cases k with
    | embed =>
      apply filter_deleteWhere_of_ne fun heq => hst heq.symm rfl
      exact fun u hu => eq_of_beq hu
    | _ => first | exact rfl | exact ⟨rfl, fun _ => Iff.rfl⟩ | exact trivial
  | insertChunks r' new =>
    cases h
    cases k with
    | embed =>
      apply filter_append_of_ne fun heq => hst heq.symm rfl
      intro u hu
      obtain ⟨_, -, rfl⟩ := List.mem_map.mp hu
      rfl
    | _ => first | exact rfl | exact ⟨rfl, fun _ => Iff.rfl⟩ | exact trivial
  | upsertSummary r' template =>
    cases h
    cases k with
    | summarize =>
      have hne : r ≠ r' := fun heq => hst heq.symm rfl
      refine (filter_append_of_ne hne fun y hy => ?_).trans
        (filter_deleteWhere_of_ne hne fun y hy => ?_)
      · rw [List.mem_singleton.mp hy]
      · exact eq_of_beq (Bool.and_eq_true_iff.mp hy).1
    | _ => first | exact rfl | exact ⟨rfl, fun _ => Iff.rfl⟩ | exact trivial
  | insertSegment r' seq a b =>
    cases h
    obtain ⟨_, _, -, heq⟩ := insertSegment_eq r' seq a b c
    rw [heq]
    exact Same.refl r c k
  | _ =>
    simp only [Stmt.exec] at h
    repeat' split at h
    all_goals cases h
    all_goals exact Same.refl r c k

/-! ## The statements still to come -/

/-- A stage with `body` still to issue, told what the engines make of the recording. -/
inductive Mid (e : Engines) (template : String) (r : Uuid) (c : Content) :
    JobKind → List Stmt → Prop
  | list : Mid e template r c .transcode [.listSegments r, .measureDuration r]
  | measure : Mid e template r c .transcode [.measureDuration r]
  | readExpected : Mid e template r c .diarize [.diarizeRead r]
  | detect : Mid e template r c .diarize [.diarized r (c.participantsExpected r)]
  | upsert (left : List ℤ) (hleft : ∀ idx ∈ left, idx ∈ e.found (c.participantsExpected r))
      (hrest : ∀ idx ∈ e.found (c.participantsExpected r), idx ∈ left ∨ ⟨r, idx⟩ ∈ c.speakers) :
      Mid e template r c .diarize (left.map (.upsertSpeaker r) ++
        [.pruneSpeakers r (e.found (c.participantsExpected r)),
          .putDiarization r (e.turns (c.participantsExpected r))])
  | putTurns (hspeakers : ∀ idx, ⟨r, idx⟩ ∈ c.speakers ↔ idx ∈ e.found (c.participantsExpected r)) :
      Mid e template r c .diarize [.putDiarization r (e.turns (c.participantsExpected r))]
  | putWords : Mid e template r c .transcribe [.putTranscript r]
  | readWords : Mid e template r c .merge
      [.getTranscript r, .getDiarization r, .clearUtterances r, .insertMerged r]
  | readTurns : Mid e template r c .merge
      [.getDiarization r, .clearUtterances r, .insertMerged r]
  | clear : Mid e template r c .merge [.clearUtterances r, .insertMerged r]
  | insert (hempty : c.utterancesOf r = []) : Mid e template r c .merge [.insertMerged r]
  | readTurnsBack : Mid e template r c .embed [.embedRead r]
  | deleteAll (hnil : e.chunks (c.participantsExpected r) = []) :
      Mid e template r c .embed [.deleteChunks r]
  | replace : Mid e template r c .embed
      [.deleteChunks r, .insertChunks r (e.chunks (c.participantsExpected r))]
  | store (hempty : (c.chunks.filter fun k => k.recordingId == r) = []) :
      Mid e template r c .embed [.insertChunks r (e.chunks (c.participantsExpected r))]
  | summarize (hone : ∀ y ∈ c.summaries, y.recordingId = r → y.template = template) :
      Mid e template r c .summarize [.summarizeRead r, .upsertSummary r template]
  | putSummary (hone : ∀ y ∈ c.summaries, y.recordingId = r → y.template = template) :
      Mid e template r c .summarize [.upsertSummary r template]
  | finished {k : JobKind} (hmade : Made e template r c k) : Mid e template r c k []

theorem Mid.congr (h : Mid e template r c k body) (hsame : Same r c c' k)
    (hexpected : c'.participantsExpected r = c.participantsExpected r) :
    Mid e template r c' k body := by
  cases h with
  | detect =>
    rw [← hexpected]
    exact .detect
  | upsert left hleft hrest =>
    rw [← hexpected] at hleft hrest ⊢
    exact .upsert left hleft fun idx hidx => (hrest idx hidx).imp_right (hsame.2 idx).mpr
  | putTurns hspeakers =>
    rw [← hexpected] at hspeakers ⊢
    exact .putTurns fun idx => (hsame.2 idx).trans (hspeakers idx)
  | insert hempty => exact .insert (hsame.trans hempty)
  | deleteAll hnil => exact .deleteAll (hexpected ▸ hnil)
  | replace =>
    rw [← hexpected]
    exact .replace
  | store hempty =>
    rw [← hexpected]
    exact .store (hsame.trans hempty)
  | summarize hone | putSummary hone =>
    have hone' : ∀ y ∈ c'.summaries, y.recordingId = r → y.template = template := by
      intro y hy hr
      have hin : y ∈ c'.summaries.filter fun y => y.recordingId == r :=
        List.mem_filter.mpr ⟨hy, beq_iff_eq.mpr hr⟩
      rw [show (c'.summaries.filter fun y => y.recordingId == r) = _ from hsame] at hin
      exact hone y (List.mem_filter.mp hin).1 hr
    first | exact .summarize hone' | exact .putSummary hone'
  | finished hmade => exact .finished (hmade.congr hsame hexpected)
  | list => exact .list
  | measure => exact .measure
  | readExpected => exact .readExpected
  | putWords => exact .putWords
  | readWords => exact .readWords
  | readTurns => exact .readTurns
  | clear => exact .clear
  | readTurnsBack => exact .readTurnsBack

/-- A stage begins with its statements, whatever the tables hold. -/
theorem mid_stageBody (hk : k.isPipeline = true)
    (hone : k = .summarize → ∀ y ∈ c.summaries, y.recordingId = r → y.template = template) :
    Mid e template r c k (stageBody r template k) := by
  cases k with
  | transcode => exact .list
  | diarize => exact .readExpected
  | transcribe => exact .putWords
  | merge => exact .readWords
  | embed => exact .readTurnsBack
  | summarize => exact .summarize (hone rfl)
  | transcribeSegment => cases hk

theorem Mid.made (h : Mid e template r c k []) : Made e template r c k := by
  generalize hbody : ([] : List Stmt) = body at h
  cases h with
  | finished hmade => exact hmade
  | upsert => simp at hbody
  | _ => cases hbody

theorem Mid.template_eq {used : String}
    (h : Mid e template r c .summarize (.upsertSummary r' used :: body)) : used = template := by
  generalize hbody : Stmt.upsertSummary r' used :: body = all at h
  cases h with
  | putSummary =>
    cases hbody
    rfl
  | _ => cases hbody

/-- The next statement of a stage, where the stages before it have been through. -/
theorem mid_exec (h : Mid e template r c k (st :: body))
    (hpred : ∀ p ∈ k.predecessors, Made e template r c p) (hanswers : e.Answers c x st)
    (hexec : st.exec now status x c = some (c', sts)) :
    Mid e template r c' k (sts ++ body) := by
  generalize hall : st :: body = all at h
  cases h with
  | list =>
    cases hall
    simp only [Stmt.exec] at hexec
    split at hexec <;> cases hexec
    exact .measure
  | measure =>
    cases hall
    cases hexec
    refine .finished ?_
    rw [show x.durationMs = e.durationMs from hanswers]
    exact Function.update_self ..
  | readExpected =>
    cases hall
    simp only [Stmt.exec] at hexec
    split at hexec <;> cases hexec
    exact .detect
  | detect =>
    cases hall
    simp only [Stmt.exec] at hexec
    cases hexec
    rw [show x.turns = e.turns (c.participantsExpected r) from hanswers, List.append_nil]
    exact .upsert (e.found (c.participantsExpected r)) (fun _ => id) fun _ hidx => .inl hidx
  | upsert left hleft hrest =>
    cases left with
    | nil =>
      cases hall
      cases hexec
      refine .putTurns fun idx => ?_
      rw [mem_deleteWhere]
      constructor
      · rintro ⟨-, hkeep⟩
        simpa using hkeep
      · intro hidx
        refine ⟨((hrest idx hidx).resolve_left List.not_mem_nil), ?_⟩
        simpa using hidx
    | cons idx left =>
      cases hall
      have hleft' : ∀ i ∈ left, i ∈ e.found (c.participantsExpected r) :=
        fun i hi => hleft i (List.mem_cons_of_mem _ hi)
      simp only [Stmt.exec] at hexec
      split at hexec <;> cases hexec
      · rename_i hthere
        refine .upsert left hleft' fun i hi => ?_
        rcases hrest i hi with hi | hi
        · rcases List.mem_cons.mp hi with rfl | hi
          · right
            obtain ⟨⟨r', i'⟩, hp, hkey⟩ := List.any_eq_true.mp hthere
            obtain ⟨rfl, rfl⟩ : r' = r ∧ i' = i := by simpa using hkey
            exact hp
          · exact .inl hi
        · exact .inr hi
      · refine .upsert left hleft' fun i hi => ?_
        rcases hrest i hi with hi | hi
        · rcases List.mem_cons.mp hi with rfl | hi
          · exact .inr (List.mem_append_right _ List.mem_cons_self)
          · exact .inl hi
        · exact .inr (List.mem_append_left _ hi)
  | putTurns hspeakers =>
    cases hall
    cases hexec
    exact .finished ⟨Function.update_self .., hspeakers⟩
  | putWords =>
    cases hall
    cases hexec
    refine .finished ?_
    rw [show x.words = e.words from hanswers]
    exact Function.update_self ..
  | readWords =>
    cases hall
    simp only [Stmt.exec] at hexec
    split at hexec <;> cases hexec
    exact .readTurns
  | readTurns =>
    cases hall
    simp only [Stmt.exec] at hexec
    split at hexec <;> cases hexec
    exact .clear
  | clear =>
    cases hall
    cases hexec
    exact .insert utterancesOf_clear
  | insert hempty =>
    cases hall
    cases hexec
    have hwords := hpred .transcribe (by decide)
    have hturns := (hpred .diarize (by decide)).1
    have htold : x.utterances = e.merged e.words (e.turns (c.participantsExpected r)) :=
      hanswers _ _ hwords hturns
    refine .finished ⟨c.nextId, utterancesOf_insert_self.trans ?_⟩
    rw [hempty, List.nil_append]
    exact congrArg (Content.numbered r c.nextId) htold
  | readTurnsBack =>
    cases hall
    have hchunks := chunks_of_made (hpred .merge (by decide))
    simp only [Stmt.exec, hchunks] at hexec
    split at hexec
    · rename_i hnil
      cases hexec
      exact .deleteAll hnil
    · rename_i k ks hcons
      cases hexec
      rw [← hcons]
      exact .replace
  | deleteAll hnil =>
    cases hall
    cases hexec
    have hgone : ((deleteWhere (fun k => k.recordingId == r) c.chunks).filter fun k =>
        k.recordingId == r) = [] := filter_deleted
    refine .finished ?_
    simp only [Made, hgone, List.map_nil, hnil]
  | replace =>
    cases hall
    cases hexec
    exact .store filter_deleted
  | store hempty =>
    cases hall
    cases hexec
    refine .finished ?_
    simp only [Made, List.filter_append, hempty, List.nil_append, filter_stored]
  | summarize hone =>
    cases hall
    cases hexec
    exact .putSummary hone
  | putSummary hone =>
    cases hall
    cases hexec
    refine .finished ?_
    have htold : x.summary = e.summary template (e.spoken (c.participantsExpected r)) := by
      rw [← spoken_of_made (hpred .merge (by decide))]
      exact hanswers
    have hgone : (deleteWhere (fun y : Summary => y.recordingId == r && y.template == template)
        c.summaries).filter (fun y => y.recordingId == r) = [] := by
      rw [List.filter_eq_nil_iff]
      intro y hy hr
      obtain ⟨hmem, hkeep⟩ := mem_deleteWhere.mp hy
      simp [eq_of_beq hr, hone y hmem (eq_of_beq hr)] at hkeep
    simp only [Made, List.filter_append, hgone, List.nil_append, ← htold]
    exact List.filter_eq_self.mpr fun y hy => by rw [List.mem_singleton.mp hy]; exact beq_self_eq_true r
  | finished => cases hall

end ScribeLocal.Server
