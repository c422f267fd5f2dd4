import ScribeLocal.Server.Drain

/-! # What a reset leaves running

A reset deletes the rows of a recording and its jobs, but a worker keeps the job it
holds. A stage that read before the reset can write after it.
-/
namespace ScribeLocal.Server
open Table Transition

variable {cfg : Config} {r : Uuid} {s s' : Sys} {a : Label} {x : Heard} {db : Db} {c : Cmd}
  {i : ℕ} {job : Job} {st : Stmt} {body : List Stmt}

/-! ## Origins -/

/-- A diarize stage: how many resets came before it read the recording row, and the
speaker count it used. -/
structure Stamp where
  gen : ℕ
  expected : Option ℤ
  deriving DecidableEq

/-- Which diarize stage the rows of a recording come from. -/
structure Origins where
  /-- How often the recording has been reset. -/
  gen : ℕ
  /-- The speaker counts that have been stored since the last reset. -/
  counts : List (Option ℤ)
  /-- When the diarize stage of each process read the recording row. -/
  reads : ℕ → ℕ
  stamp : ℕ → Option Stamp
  turns : Option Stamp
  /-- The origin of the turns that the merge of each process has read. -/
  got : ℕ → Option Stamp
  speakers : ℤ → Option Stamp
  utterances : ℕ → Option Stamp

def Origins.start : Origins :=
  ⟨0, [none], fun _ => 0, fun _ => none, none, fun _ => none, fun _ => none, fun _ => none⟩

/-- A command that resets `r` and goes through. -/
def Cmd.resetsNow (db : Db) (r : Uuid) : Cmd → Prop
  | .resetForReprocess r' => r' = r ∧ (db.status r).isSome = true
  | .resetForRediarize r' =>
    r' = r ∧ (db.content.transcript r).isSome = true ∧ (db.status r).isSome = true
  | _ => False

instance : Decidable (c.resetsNow db r) := by
  rcases c <;> unfold Cmd.resetsNow <;> infer_instance

def Origins.stmt (r : Uuid) (c : Content) (i : ℕ) (b : Origins) : Stmt → Origins
  | .diarizeRead r' => if r' = r then { b with reads := Function.update b.reads i b.gen } else b
  | .diarized r' expected =>
    if r' = r then { b with stamp := Function.update b.stamp i (some ⟨b.reads i, expected⟩) } else b
  | .upsertSpeaker r' idx =>
    if r' = r then { b with speakers := Function.update b.speakers idx (b.stamp i) } else b
  | .putDiarization r' _ => if r' = r then { b with turns := b.stamp i } else b
  | .getDiarization r' =>
    if r' = r then { b with got := Function.update b.got i b.turns } else b
  | .insertMerged r' =>
    if r' = r then
      { b with utterances := fun id => if c.nextId ≤ id then b.got i else b.utterances id }
    else b
  | .liveInsert r' _ _ =>
    if r' = r then
      { b with utterances := fun id => if c.nextId ≤ id then none else b.utterances id }
    else b
  | _ => b

def Origins.cmd (r : Uuid) (db : Db) (b : Origins) : Cmd → Origins
  | .setParticipants r' expected =>
    if r' = r ∧ (db.status r).isSome = true then { b with counts := expected :: b.counts } else b
  | c =>
    if c.resetsNow db r then
      { b with gen := b.gen + 1, counts := [db.content.participantsExpected r] }
    else b

/-- Keep track of where the rows of `r` come from. -/
def origins (r : Uuid) (s : Sys) (a : Label) (b : Origins) : Origins :=
  match a with
  | .step i x =>
    match s.procs i with
    | .stage _ (st :: _) =>
      if (st.exec s.db.now s.db.status x s.db.content).isSome then b.stmt r s.db.content i st else b
    | .todo (c :: _) => b.cmd r s.db c
    | _ => b
  | _ => b

/-- The origin is a diarize stage that read the recording row after the last reset, and so
used a speaker count stored since. -/
def Origins.Current (b : Origins) (origin : Option Stamp) : Prop :=
  ∃ expected ∈ b.counts, origin = some ⟨b.gen, expected⟩

/-! ## The condition -/

/-- A statement that writes, or leads to writing, what a stage has read before. -/
def Stmt.carries (r : Uuid) : Stmt → Prop
  | .diarized r' _ | .upsertSpeaker r' _ | .pruneSpeakers r' _ | .putDiarization r' _
  | .liveList r' | .liveOffset r' _ | .liveInsert r' _ _ | .liveMark r' _ _ _ => r' = r
  | _ => False

/-- A diarize, merge or live stage of `r` stands between its read and its last write. -/
def Midway (r : Uuid) (body : List Stmt) : Prop :=
  (∃ st ∈ body, Stmt.carries r st) ∨ (.insertMerged r ∈ body ∧ .getDiarization r ∉ body)

instance : Decidable (Stmt.carries r st) := by
  rcases st <;> unfold Stmt.carries <;> infer_instance

instance : Decidable (Midway r body) := inferInstanceAs (Decidable (_ ∨ _))

/-- A reset of `r` goes through only while no stage of `r` is midway. -/
def FencedOff (r : Uuid) (s : Sys) : Label → Prop
  | .step i _ => ∀ c rest, s.procs i = .todo (c :: rest) → c.resetsNow s.db r →
      ∀ j job body, s.procs j = .stage job body → ¬ Midway r body
  | _ => True

/-! ## What the notes say after a statement -/

variable {b b' : Origins} {content : Content}

theorem stmt_gen : (b.stmt r content i st).gen = b.gen := by
  cases st <;> simp only [Origins.stmt] <;> split <;> rfl

theorem stmt_counts : (b.stmt r content i st).counts = b.counts := by
  cases st <;> simp only [Origins.stmt] <;> split <;> rfl

theorem stmt_current {origin : Option Stamp} :
    (b.stmt r content i st).Current origin ↔ b.Current origin := by
  rw [Origins.Current, stmt_gen, stmt_counts]
  rfl

theorem stmt_of_ne {j : ℕ} (hj : j ≠ i) : (b.stmt r content i st).reads j = b.reads j ∧
    (b.stmt r content i st).stamp j = b.stamp j ∧ (b.stmt r content i st).got j = b.got j := by
  cases st <;> simp only [Origins.stmt] <;> repeat' split
  all_goals simp [hj]

theorem stmt_turns : (b.stmt r content i st).turns = b.turns ∨
    ∃ turns, st = .putDiarization r turns ∧ (b.stmt r content i st).turns = b.stamp i := by
  cases st with
  | putDiarization r' turns =>
    by_cases hr : r' = r
    · exact .inr ⟨turns, by rw [hr], by simp [Origins.stmt, hr]⟩
    · exact .inl (by simp [Origins.stmt, hr])
  | _ =>
    left
    simp only [Origins.stmt]
    repeat' split
    all_goals rfl

theorem stmt_speakers (idx : ℤ) : (b.stmt r content i st).speakers idx = b.speakers idx ∨
    (st = .upsertSpeaker r idx ∧ (b.stmt r content i st).speakers idx = b.stamp i) := by
  cases st with
  | upsertSpeaker r' idx' =>
    by_cases hr : r' = r ∧ idx' = idx
    · obtain ⟨rfl, rfl⟩ := hr
      exact .inr ⟨rfl, by simp [Origins.stmt]⟩
    · left
      simp only [Origins.stmt]
      split
      · rename_i hrr
        exact Function.update_of_ne (fun h => hr ⟨hrr, h.symm⟩) _ _
      · rfl
  | _ =>
    left
    simp only [Origins.stmt]
    repeat' split
    all_goals rfl

theorem stmt_utterances {id : ℕ} (hid : id < content.nextId) :
    (b.stmt r content i st).utterances id = b.utterances id := by
  have hno : ¬ content.nextId ≤ id := Nat.not_le.mpr hid
  cases st <;> simp only [Origins.stmt] <;> repeat' split
  all_goals simp [hno]

variable {now : Time} {status : Uuid → Option RecordingStatus} {content' : Content}
  {sts : List Stmt}

/-! ## The stages under way -/

/-- What a statement that is still to be issued relies on. -/
def Stmt.trusts (r : Uuid) (b : Origins) (i : ℕ) : Stmt → Prop
  | .diarized r' expected => r' = r → b.reads i = b.gen ∧ expected ∈ b.counts
  | .upsertSpeaker r' _ | .pruneSpeakers r' _ | .putDiarization r' _ =>
    r' = r → b.Current (b.stamp i)
  | .liveList r' | .liveOffset r' _ | .liveInsert r' _ _ | .liveMark r' _ _ _ => r' = r → b.gen = 0
  | _ => True

/-- What process `i` has read for the statements it has left is current. -/
structure Sound (r : Uuid) (b : Origins) (i : ℕ) (body : List Stmt) : Prop where
  trusts : ∀ st ∈ body, Stmt.trusts r b i st
  merge : .insertMerged r ∈ body → .getDiarization r ∈ body ∨ b.Current (b.got i)

theorem sound_of_not_midway (h : ¬ Midway r body) : Sound r b i body := by
  constructor
  · intro st hst
    have hno : ¬ Stmt.carries r st := fun hc => h (.inl ⟨st, hst, hc⟩)
    cases st <;> first | exact trivial | exact fun hr => absurd hr hno
  · intro hins
    by_contra hget
    exact h (.inr ⟨hins, fun hin => hget (.inl hin)⟩)

theorem not_midway_jobBody : ¬ Midway r (jobBody cfg job) := by
  unfold jobBody
  cases job.recordingId with
  | none => simp [Midway]
  | some r' => cases job.kind <;> simp [Midway, stageBody, Stmt.carries]

theorem current_mono {origin : Option Stamp} (hgen : b'.gen = b.gen)
    (hcounts : ∀ e ∈ b.counts, e ∈ b'.counts) (h : b.Current origin) : b'.Current origin := by
  rcases h with ⟨e, he, rfl⟩
  exact ⟨e, hcounts e he, by rw [hgen]⟩

theorem trusts_congr (hgen : b'.gen = b.gen) (hcounts : ∀ e ∈ b.counts, e ∈ b'.counts)
    (hreads : b'.reads i = b.reads i) (hstamp : b'.stamp i = b.stamp i)
    (h : Stmt.trusts r b i st) : Stmt.trusts r b' i st := by
  cases st with
  | diarized r' expected =>
    intro hr
    rw [hreads, hgen]
    exact ⟨(h hr).1, hcounts _ (h hr).2⟩
  | upsertSpeaker | pruneSpeakers | putDiarization =>
    intro hr
    rw [hstamp]
    exact current_mono hgen hcounts (h hr)
  | liveList | liveOffset | liveInsert | liveMark => exact fun hr => hgen.trans (h hr)
  | _ => trivial

theorem sound_congr (hgen : b'.gen = b.gen) (hcounts : ∀ e ∈ b.counts, e ∈ b'.counts)
    (hreads : b'.reads i = b.reads i) (hstamp : b'.stamp i = b.stamp i)
    (hgot : b'.got i = b.got i) (h : Sound r b i body) : Sound r b' i body := by
  constructor
  · exact fun st hst => trusts_congr hgen hcounts hreads hstamp (h.trusts st hst)
  · intro hins
    rw [hgot]
    exact (h.merge hins).imp_right (current_mono hgen hcounts)

/-- What the statements still to come rely on outlasts the note of the one before them. -/
theorem trusts_stmt {st' : Stmt} (hst : Stmt.trusts r b i st) (h : Stmt.trusts r b i st') :
    Stmt.trusts r (b.stmt r content i st) i st' := by
  cases st with
  | diarizeRead r' =>
    by_cases hr : r' = r
    · cases st' with
      | diarized =>
        intro hr'
        simp only [Origins.stmt, if_pos hr, Function.update_self]
        exact ⟨trivial, (h hr').2⟩
      | _ =>
        simp only [Origins.stmt, if_pos hr]
        exact h
    · simp only [Origins.stmt, if_neg hr]
      exact h
  | diarized r' expected =>
    by_cases hr : r' = r
    · have hread := hst hr
      have hcurrent : b.Current (some ⟨b.reads i, expected⟩) :=
        ⟨expected, hread.2, by rw [hread.1]⟩
      cases st' with
      | upsertSpeaker | pruneSpeakers | putDiarization =>
        intro _
        simp only [Origins.stmt, if_pos hr, Function.update_self]
        exact hcurrent
      | _ =>
        simp only [Origins.stmt, if_pos hr]
        exact h
    · simp only [Origins.stmt, if_neg hr]
      exact h
  | _ =>
    refine trusts_congr stmt_gen (fun e he => by rwa [stmt_counts]) ?_ ?_ h
    all_goals
      simp only [Origins.stmt]
      repeat' split
      all_goals rfl

/-- What a statement leads to relies on what it has just read. -/
theorem trusts_next {st' : Stmt} (hst : Stmt.trusts r b i st)
    (hcount : content.participantsExpected r ∈ b.counts)
    (hopen : status r = some .uploading → b.gen = 0)
    (h : st.exec now status x content = some (content', sts)) (hst' : st' ∈ sts) :
    Stmt.trusts r (b.stmt r content i st) i st' := by
  cases st with
  | diarizeRead r' =>
    simp only [Stmt.exec] at h
    split at h <;> cases h
    rw [List.mem_singleton.mp hst']
    rintro rfl
    simp [Origins.stmt, hcount]
  | diarized r' expected =>
    have hcurrent (hr : r' = r) : (b.stmt r content i (.diarized r' expected)).Current
        ((b.stmt r content i (.diarized r' expected)).stamp i) := by
      have hread := hst hr
      simp only [Origins.stmt, if_pos hr, Function.update_self]
      exact ⟨expected, hread.2, by rw [hread.1]⟩
    cases h
    simp only [List.mem_append, List.mem_map, List.mem_cons, List.not_mem_nil, or_false] at hst'
    rcases hst' with ⟨idx, -, rfl⟩ | rfl | rfl <;> exact hcurrent
  | liveStatus r' =>
    simp only [Stmt.exec] at h
    repeat' split at h
    all_goals cases h
    · rename_i hstatus hup
      rw [List.mem_singleton.mp hst']
      rintro rfl
      exact hopen (hup ▸ hstatus)
    · cases hst'
  | liveList r' =>
    simp only [Stmt.exec] at h
    split at h <;> cases h
    · cases hst'
    · rw [List.mem_singleton.mp hst']
      exact hst
  | liveOffset r' segments =>
    simp only [Stmt.exec] at h
    split at h <;> cases h
    rw [List.mem_singleton.mp hst']
    exact hst
  | liveInsert r' offset segments =>
    have hgen : r' = r → (b.stmt r content i (.liveInsert r' offset segments)).gen = 0 :=
      fun hr => stmt_gen.trans (hst hr)
    cases segments <;> simp only [Stmt.exec] at h
    · cases h
      cases hst'
    · split at h <;> cases h
      · rw [List.mem_singleton.mp hst']
        exact hgen
      · simp only [List.mem_cons, List.not_mem_nil, or_false] at hst'
        rcases hst' with rfl | rfl <;> exact hgen
  | embedRead r' =>
    simp only [Stmt.exec] at h
    split at h <;> cases h <;> simp only [List.mem_cons, List.not_mem_nil, or_false] at hst'
    · rw [hst']
      trivial
    · rcases hst' with rfl | rfl <;> trivial
  | _ =>
    simp only [Stmt.exec] at h
    repeat' split at h
    all_goals cases h
    all_goals cases hst'

theorem sound_stmt (h : Sound r b i (st :: body))
    (hturns : (content.diarization r).isSome = true → b.Current b.turns)
    (hcount : content.participantsExpected r ∈ b.counts)
    (hopen : status r = some .uploading → b.gen = 0)
    (hexec : st.exec now status x content = some (content', sts)) :
    Sound r (b.stmt r content i st) i (sts ++ body) := by
  have hst := h.trusts st List.mem_cons_self
  constructor
  · intro st' hst'
    rcases List.mem_append.mp hst' with hst' | hst'
    · exact trusts_next hst hcount hopen hexec hst'
    · exact trusts_stmt hst (h.trusts st' (List.mem_cons_of_mem _ hst'))
  · intro hins
    rw [stmt_current]
    have hbody : .insertMerged r ∈ body := by
      rcases List.mem_append.mp hins with hin | hin
      · have hfollow := Stmt.exec_follows hexec hin
        rw [follows_merge hexec hfollow.2.1.symm] at hin
        cases hin
      · exact hin
    by_cases hget : st = .getDiarization r
    · right
      subst hget
      simp only [Stmt.exec] at hexec
      split at hexec
      · rename_i hsome
        simpa [Origins.stmt] using hturns hsome
      · cases hexec
    · rcases h.merge (List.mem_cons_of_mem _ hbody) with hin | hcurrent
      · left
        rcases List.mem_cons.mp hin with heq | hin
        · exact absurd heq.symm hget
        · exact List.mem_append_right _ hin
      · right
        have hgot : (b.stmt r content i st).got i = b.got i := by
          cases st <;> simp only [Origins.stmt] <;> repeat' split
          all_goals try rfl
          rename_i hr
          exact absurd (by rw [hr]) hget
        rwa [hgot]

/-! ## The invariant -/

/-- Once `r` has been reset, all its rows come from a diarize stage of after the reset. -/
structure Traced (r : Uuid) (b : Origins) (s : Sys) : Prop where
  count : s.db.content.participantsExpected r ∈ b.counts
  ids : ∀ u ∈ s.db.content.utterances, u.id < s.db.content.nextId
  turns : (s.db.content.diarization r).isSome = true → b.Current b.turns
  speakers : ∀ p ∈ s.db.content.speakers, p.recordingId = r → b.Current (b.speakers p.localIdx)
  utterances : 0 < b.gen → ∀ u ∈ s.db.content.utterances, u.recordingId = r →
    b.Current (b.utterances u.id)
  closed : 0 < b.gen → Closed s r
  sound : ∀ i job body, s.procs i = .stage job body → Sound r b i body

theorem traced_start : Traced r Origins.start Sys.start where
  count := List.mem_singleton.mpr rfl
  ids _ h := nomatch h
  turns h := nomatch h
  speakers _ h := nomatch h
  utterances h := nomatch h
  closed h := nomatch h
  sound _ _ _ h := nomatch h

/-- Nothing of `r` is new in these tables. -/
structure Kept (r : Uuid) (c c' : Content) : Prop where
  ids : ∀ u ∈ c'.utterances, u.id < c'.nextId
  utterances : ∀ u ∈ c'.utterances, u.recordingId = r → u ∈ c.utterances
  speakers : ∀ p ∈ c'.speakers, p.recordingId = r → p ∈ c.speakers
  diarization : (c'.diarization r).isSome = true → (c.diarization r).isSome = true

theorem kept_refl (hids : ∀ u ∈ content.utterances, u.id < content.nextId) :
    Kept r content content :=
  ⟨hids, fun _ hu _ => hu, fun _ hp _ => hp, id⟩

/-- A step that adds nothing to the tables of `r` and starts no statement midway. -/
theorem traced_kept (h : Traced r b s) {counts : List (Option ℤ)}
    (hcounts : ∀ e ∈ b.counts, e ∈ counts)
    (hcount : s'.db.content.participantsExpected r ∈ counts)
    (hkept : Kept r s.db.content s'.db.content) (hclosed : Closed s r → Closed s' r)
    (hprocs : ∀ i job body, s'.procs i = .stage job body →
      s.procs i = .stage job body ∨ body = jobBody cfg job) :
    Traced r { b with counts := counts } s' where
  count := hcount
  ids := hkept.ids
  turns hsome := current_mono (b := b) rfl hcounts (h.turns (hkept.diarization hsome))
  speakers p hp hr :=
    current_mono (b := b) rfl hcounts (h.speakers p (hkept.speakers p hp hr) hr)
  utterances hgen u hu hr :=
    current_mono (b := b) rfl hcounts (h.utterances hgen u (hkept.utterances u hu hr) hr)
  closed hgen := hclosed (h.closed hgen)
  sound i job body hproc := by
    rcases hprocs i job body hproc with hold | rfl
    · exact sound_congr (b := b) rfl hcounts rfl rfl rfl (h.sound i job body hold)
    · exact sound_of_not_midway not_midway_jobBody

theorem traced_stmt (hst : Staged s) (h : Traced r b s) (hproc : s.procs i = .stage job (st :: body))
    (hexec : st.exec s.db.now s.db.status x s.db.content = some (content', sts)) :
    Traced r (b.stmt r s.db.content i st) (({ s with db := { s.db with content := content' } } :
      Sys).setProc i (.stage job (sts ++ body))) := by
  have hsound := h.sound i job _ hproc
  have htrusts := hsound.trusts st List.mem_cons_self
  have hutterances := exec_utterance hexec h.ids
  constructor
  · rw [stmt_counts]
    change content'.participantsExpected r ∈ b.counts
    rw [exec_participants hexec]
    exact h.count
  · exact hutterances.1
  · intro hsome
    rw [stmt_current]
    have hturns : (b.stmt r s.db.content i st).turns = b.turns ∨
        ∃ turns, st = .putDiarization r turns ∧ (b.stmt r s.db.content i st).turns = b.stamp i :=
      stmt_turns
    rcases hturns with heq | ⟨turns, rfl, heq⟩
    · rw [heq]
      rcases exec_diarization hexec hsome with hold | ⟨turns, rfl⟩
      · exact h.turns hold
      · rw [← heq]
        simpa [Origins.stmt] using htrusts rfl
    · rw [heq]
      exact htrusts rfl
  · intro p hp hr
    rw [stmt_current]
    have hspeakers : (b.stmt r s.db.content i st).speakers p.localIdx = b.speakers p.localIdx ∨
        st = .upsertSpeaker r p.localIdx ∧
          (b.stmt r s.db.content i st).speakers p.localIdx = b.stamp i :=
      stmt_speakers p.localIdx
    rcases hspeakers with heq | ⟨rfl, heq⟩
    · rw [heq]
      rcases exec_speakers hexec hp with hold | rfl
      · exact h.speakers p hold hr
      · rw [← heq, hr]
        simpa [Origins.stmt] using htrusts hr
    · rw [heq]
      exact htrusts rfl
  · intro hgen u hu hr
    rw [stmt_gen] at hgen
    rw [stmt_current]
    rcases hutterances.2 u hu with hold | ⟨hle, rfl | ⟨offset, segments, rfl⟩⟩
    · rw [stmt_utterances (h.ids u hold)]
      exact h.utterances hgen u hold hr
    · rw [hr] at hproc hsound ⊢
      simp only [Origins.stmt, if_pos, if_pos hle]
      rcases hsound.merge List.mem_cons_self with hget | hcurrent
      · -- the insert is the last statement of a merge
        have hkind := (hst.body i job _ hproc _ List.mem_cons_self).2
        rcases hst.merge i job _ hproc (Option.some.inj hkind).symm with ⟨r₀, hsuffix⟩
        simp only [List.suffix_cons_iff, List.suffix_nil, List.cons.injEq, reduceCtorEq, false_and,
          false_or, Stmt.insertMerged.injEq, or_false] at hsuffix
        simp [hsuffix.2] at hget
      · exact hcurrent
    · have hzero := htrusts hr
      omega
  · intro hgen
    rw [stmt_gen] at hgen
    exact h.closed hgen
  · intro j job' body' hproc'
    by_cases hj : j = i
    · subst hj
      rw [Sys.setProc_self] at hproc'
      cases hproc'
      apply sound_stmt hsound h.turns h.count _ hexec
      intro hup
      by_contra hgen
      exact (h.closed (Nat.pos_of_ne_zero hgen)).2 hup
    · rw [Sys.setProc_of_ne hj] at hproc'
      have hsame : (b.stmt r s.db.content i st).reads j = b.reads j ∧
          (b.stmt r s.db.content i st).stamp j = b.stamp j ∧
          (b.stmt r s.db.content i st).got j = b.got j := stmt_of_ne hj
      exact sound_congr stmt_gen (fun e he => by rwa [stmt_counts]) hsame.1 hsame.2.1 hsame.2.2
        (h.sound j job' body' hproc')

/-- What a reset leaves has no row of `r` in it. -/
theorem kept_reset {c' : Content} (hc : c' = content.resetForReprocess r ∨
      c' = content.resetForRediarize r) :
    (∀ u ∈ c'.utterances, u ∈ content.utterances ∧ u.recordingId ≠ r) ∧
      (∀ p ∈ c'.speakers, p.recordingId ≠ r) ∧ c'.diarization r = none ∧
      c'.nextId = content.nextId ∧ c'.participantsExpected = content.participantsExpected := by
  have hrediarize : (∀ u ∈ (content.resetForRediarize r).utterances,
        u ∈ content.utterances ∧ u.recordingId ≠ r) ∧
      (∀ p ∈ (content.resetForRediarize r).speakers, p.recordingId ≠ r) ∧
      (content.resetForRediarize r).diarization r = none ∧
      (content.resetForRediarize r).nextId = content.nextId ∧
      (content.resetForRediarize r).participantsExpected = content.participantsExpected := by
    refine ⟨fun u hu => ?_, fun p hp => ?_, Function.update_self _ _ _, rfl, rfl⟩
    · have hmem := mem_deleteWhere.mp hu
      exact ⟨hmem.1, by simpa using hmem.2⟩
    · simpa using (mem_deleteWhere.mp hp).2
  rcases hc with rfl | rfl <;> exact hrediarize

theorem kept_other {r' : Uuid} {c' : Content} (hr : r' ≠ r)
    (hids : ∀ u ∈ content.utterances, u.id < content.nextId)
    (hc : c' = content.resetForReprocess r' ∨ c' = content.resetForRediarize r') :
    Kept r content c' := by
  have hrediarize : Kept r content (content.resetForRediarize r') := by
    refine ⟨fun u hu => hids u (mem_deleteWhere.mp hu).1, fun u hu _ => (mem_deleteWhere.mp hu).1,
      fun p hp _ => (mem_deleteWhere.mp hp).1, fun hsome => ?_⟩
    simpa [Content.resetForRediarize, Ne.symm hr] using hsome
  rcases hc with rfl | rfl
  · exact ⟨hrediarize.ids, hrediarize.utterances, hrediarize.speakers, hrediarize.diarization⟩
  · exact hrediarize

/-- A handler's statement adds nothing that a stage writes. -/
theorem kept_handler (hids : ∀ u ∈ content.utterances, u.id < content.nextId)
    (hst : st.stage = none) (h : st.exec now status x content = some (content', sts)) :
    Kept r content content' := by
  have hutterances := exec_utterance h hids
  refine ⟨hutterances.1, fun u hu _ => ?_, fun p hp _ => ?_, fun hsome => ?_⟩
  · rcases hutterances.2 u hu with hold | ⟨-, rfl | ⟨_, _, rfl⟩⟩
    · exact hold
    all_goals cases hst
  · rcases exec_speakers h hp with hold | rfl
    · exact hold
    · cases hst
  · rcases exec_diarization h hsome with hold | ⟨_, rfl⟩
    · exact hold
    · cases hst

theorem reset_now (h : c.resetsNow db r) :
    ((c.exec cfg x db).1.content = db.content.resetForReprocess r ∨
      (c.exec cfg x db).1.content = db.content.resetForRediarize r) ∧
    (c.exec cfg x db).1.status r = some .processing ∧
    b.cmd r db c =
      { b with gen := b.gen + 1, counts := [db.content.participantsExpected r] } := by
  have hnow := h
  cases c with
  | resetForReprocess r' =>
    obtain ⟨rfl, hsome⟩ := h
    simp [Cmd.exec, Origins.cmd, hsome, hnow, Db.setStatus]
  | resetForRediarize r' =>
    obtain ⟨rfl, htranscript, hsome⟩ := h
    have hnone : (db.content.transcript r').isNone = false := by
      simpa [Option.isSome_iff_ne_none] using htranscript
    simp [Cmd.exec, Origins.cmd, hsome, hnone, hnow, Db.setStatus]
  | _ => exact h.elim

theorem traced_cmd (hst : Staged s) (h : Traced r b s) (hok : FencedOff r s (.step i x))
    {rest : List Cmd} (hproc : s.procs i = .todo (c :: rest)) :
    Traced r (b.cmd r s.db c) (s.after cfg x i c rest) := by
  have hmoved : Moved cfg s (.step i x) (s.after cfg x i c rest) := .cmd x hproc
  have hprocs (j : ℕ) (job : Job) (body : List Stmt)
      (hj : (s.after cfg x i c rest).procs j = .stage job body) :
      s.procs j = .stage job body ∨ body = jobBody cfg job := by
    rcases moved_stage hmoved hj with ⟨hold, -⟩ | ⟨hnew, -⟩ |
      ⟨x', st, rest', c', sts, heq, hstage, -⟩
    · exact .inl hold
    · exact .inr hnew
    · cases (Label.step.inj heq).1
      cases hproc.symm.trans hstage
  have hwrites := exec_writes cfg x s.db c
  have hclosed : Closed s r → Closed (s.after cfg x i c rest) r := closed_moved hmoved
  by_cases hreset : c.resetsNow s.db r
  · have hfence := hok c rest hproc hreset
    have hnow : ((c.exec cfg x s.db).1.content = s.db.content.resetForReprocess r ∨
        (c.exec cfg x s.db).1.content = s.db.content.resetForRediarize r) ∧
        (c.exec cfg x s.db).1.status r = some .processing ∧
        b.cmd r s.db c =
          { b with gen := b.gen + 1, counts := [s.db.content.participantsExpected r] } :=
      reset_now hreset
    rcases hnow with ⟨hcontent, hstatus, hnote⟩
    have hgone := kept_reset hcontent
    rw [hnote]
    constructor
    · rw [after_db, hgone.2.2.2.2]
      exact List.mem_singleton.mpr rfl
    · intro u hu
      rw [after_db, hgone.2.2.2.1]
      exact h.ids u (hgone.1 u hu).1
    · intro hsome
      rw [after_db, hgone.2.2.1] at hsome
      cases hsome
    · exact fun p hp hr => absurd hr (hgone.2.1 p hp)
    · exact fun _ u hu hr => absurd hr (hgone.1 u hu).2
    · intro _
      rw [Closed, after_db, hstatus]
      exact ⟨rfl, by simp⟩
    · intro j job body hj
      rcases hprocs j job body hj with hold | rfl
      · exact sound_of_not_midway (hfence j job body hold)
      · exact sound_of_not_midway not_midway_jobBody
  · by_cases hset : ∃ expected, c = .setParticipants r expected ∧ (s.db.status r).isSome = true
    · rcases hset with ⟨expected, rfl, hsome⟩
      have hnote : b.cmd r s.db (.setParticipants r expected) =
          { b with counts := expected :: b.counts } := by
        simp [Origins.cmd, hsome]
      have hcontent : ((Cmd.setParticipants r expected).exec cfg x s.db).1.content =
          { s.db.content with
            participantsExpected :=
              Function.update s.db.content.participantsExpected r expected } := by
        simp [Cmd.exec, hsome]
      rw [hnote]
      apply traced_kept h (fun e he => List.mem_cons_of_mem _ he) _ _ hclosed hprocs
      · rw [after_db, hcontent]
        simp
      · rw [after_db, hcontent]
        exact ⟨h.ids, fun _ hu _ => hu, fun _ hp _ => hp, id⟩
    · have hnote : b.cmd r s.db c = b := by
        cases c with
        | setParticipants r' expected =>
          simp only [Origins.cmd]
          rw [if_neg]
          rintro ⟨rfl, hsome⟩
          exact hset ⟨expected, rfl, hsome⟩
        | _ =>
          simp only [Origins.cmd]
          rw [if_neg hreset]
      have hkept : Kept r s.db.content (c.exec cfg x s.db).1.content ∧
          (c.exec cfg x s.db).1.content.participantsExpected r =
            s.db.content.participantsExpected r := by
        generalize (c.exec cfg x s.db).1.content = content' at hwrites
        cases hwrites with
        | nothing => exact ⟨kept_refl h.ids, rfl⟩
        | content hexec =>
          have hstage := hst.handler i _ hproc _ List.mem_cons_self
          exact ⟨kept_handler h.ids hstage hexec, congrFun (exec_participants hexec) r⟩
        | @participants r' expected hsome =>
          have hr : r ≠ r' := by
            rintro rfl
            exact hset ⟨expected, rfl, hsome⟩
          exact ⟨⟨h.ids, fun _ hu _ => hu, fun _ hp _ => hp, id⟩, Function.update_of_ne hr _ _⟩
        | @reprocess r' hsome =>
          exact ⟨kept_other (fun hr => hreset ⟨hr, hr ▸ hsome⟩) h.ids (.inl rfl), rfl⟩
        | @rediarize r' htranscript hsome =>
          exact ⟨kept_other (fun hr => hreset ⟨hr, hr ▸ htranscript, hr ▸ hsome⟩) h.ids (.inr rfl), rfl⟩
      rw [hnote]
      apply traced_kept h (fun _ he => he) _ hkept.1 hclosed hprocs
      rw [after_db, hkept.2]
      exact h.count

/-- A step that neither executes a statement nor a command. -/
theorem traced_quiet (h : Traced r b s) (hmoved : Moved cfg s a s') (hnote : origins r s a b = b)
    (hcontent : s'.db.content = s.db.content)
    (hno : ∀ i x job st rest, a = .step i x → s.procs i = .stage job (st :: rest) →
      st.exec s.db.now s.db.status x s.db.content = none) : Traced r (origins r s a b) s' := by
  rw [hnote]
  apply traced_kept h (fun _ he => he)
  · rw [hcontent]
    exact h.count
  · rw [hcontent]
    exact kept_refl h.ids
  · exact closed_moved hmoved
  · intro i job body hproc
    rcases moved_stage hmoved hproc with ⟨hold, -⟩ | ⟨hnew, -⟩ |
      ⟨x, st, rest, c, sts, ha, hold, hexec, -⟩
    · exact .inl hold
    · exact .inr hnew
    · rw [hno i x job st rest ha hold] at hexec
      cases hexec

theorem traced_moved (hst : Staged s) (h : Traced r b s) (hok : FencedOff r s a)
    (hmoved : Moved cfg s a s') : Traced r (origins r s a b) s' := by
  have hstep := hmoved
  cases hmoved with
  | @cmd i c rest x hproc =>
    have hnote : origins r s (.step i x) b = b.cmd r s.db c := by
      simp only [origins, hproc]
    rw [hnote]
    exact traced_cmd hst h hok hproc
  | @stmt i job st body c sts x hproc hexec =>
    have hnote : origins r s (.step i x) b = b.stmt r s.db.content i st := by
      simp only [origins, hproc, hexec, Option.isSome_some, if_true]
    rw [hnote]
    exact traced_stmt hst h hproc hexec
  | stmtErr x hproc hexec =>
    apply traced_quiet h hstep (by simp [origins, hproc, hexec]) rfl
    intro i x' job st rest ha hproc'
    cases ha
    cases hproc.symm.trans hproc'
    exact hexec
  | bodyDone x hproc =>
    apply traced_quiet h hstep (by simp only [origins, hproc]) rfl
    intro i x' job st rest ha hproc'
    cases ha
    cases hproc.symm.trans hproc'
  | _ => exact traced_quiet h hstep rfl rfl (by intro _ _ _ _ _ ha; cases ha)

theorem traced_run {tr : List Label} (h : Run (step cfg) (FencedOff r) Sys.start tr s) :
    Staged s ∧ Traced r (notes (step cfg) (origins r) Sys.start Origins.start tr) s := by
  apply h.noted (I := fun b s => Staged s ∧ Traced r b s)
  · exact ⟨staged_start, traced_start⟩
  · rintro b s a s' ⟨hst, htraced⟩ hok hstep
    have hmoved := step_moved hstep
    exact ⟨staged_moved hst hmoved, traced_moved hst htraced hok hmoved⟩

/-- The turns, speakers and utterances that a recording has come from diarize stages that
read the recording row after the last reset. -/
structure SinceReset (r : Uuid) (b : Origins) (c : Content) : Prop where
  turns : (c.diarization r).isSome = true → b.Current b.turns
  speakers : ∀ p ∈ c.speakers, p.recordingId = r → b.Current (b.speakers p.localIdx)
  utterances : ∀ u ∈ c.utterances, u.recordingId = r → b.Current (b.utterances u.id)

/-- In every run in which a reset goes through only while no stage of the recording is
midway, a recording that has been reset has nothing left of an earlier diarize stage. -/
theorem sinceReset_of_fencedOff {tr : List Label} (h : Run (step cfg) (FencedOff r) Sys.start tr s)
    (hreset : 0 < (notes (step cfg) (origins r) Sys.start Origins.start tr).gen) :
    SinceReset r (notes (step cfg) (origins r) Sys.start Origins.start tr) s.db.content := by
  have htraced := (traced_run h).2
  exact ⟨htraced.turns, htraced.speakers, htraced.utterances hreset⟩

/-- A rediarize comes while the first diarize stage is at work; the new run goes through to
`ready`, and then the old stage stores its turns. -/
def outlivedRun : List Label :=
  [Label.request 0 (.create 7)] ++ steps 0 1 ++ [Label.request 1 (.complete 7 none none)] ++ steps 1 4 ++
  [Label.claim 2 1 [.transcode] 1] ++ steps 2 8 ++
  [Label.claim 3 1 [.diarize] 2, .claim 4 2 [.transcribe] 3] ++ steps 3 1 ++ steps 4 4 ++
  [Label.request 5 (.setParticipants 7 (some 3))] ++ steps 5 1 ++
  [Label.request 6 (.rediarize 7)] ++ steps 6 4 ++
  [Label.claim 7 2 [.diarize] 4] ++ steps 7 8 ++ [Label.claim 8 2 [.merge] 5] ++ steps 8 10 ++
  [Label.claim 9 2 [.embed] 6] ++ steps 9 5 ++ [Label.claim 10 2 [.summarize] 7] ++ steps 10 6 ++
  steps 3 3

def outlivedState : Sys := (exec (step {}) Sys.start outlivedRun).get (by decide +kernel)

theorem not_sinceReset :
    ¬ ∀ (tr : List Label) (s : Sys) (r : Uuid), Run (step {}) anyStep Sys.start tr s →
      s.db.status r = some .ready → (∀ k, ¬ Live s r k) →
      0 < (notes (step {}) (origins r) Sys.start Origins.start tr).gen →
      SinceReset r (notes (step {}) (origins r) Sys.start Origins.start tr) s.db.content := by
  intro h
  have hstate : outlivedState.db.status 7 = some .ready ∧
      (outlivedState.db.content.diarization 7).isSome = true ∧
      ∀ k ∈ JobKind.all, outlivedState.db.jobs.has 7 k Job.isLive = false := by decide +kernel
  have hlive (k : JobKind) : ¬ Live outlivedState 7 k := by
    rw [Live, hstate.2.2 k (by cases k <;> decide)]
    exact Bool.false_ne_true
  -- the one reset has happened, and the turns are those of a stage from before it
  have hstale : (notes (step {}) (origins 7) Sys.start Origins.start outlivedRun).gen = 1 ∧
      (notes (step {}) (origins 7) Sys.start Origins.start outlivedRun).turns =
        some ⟨0, none⟩ := by decide +kernel
  have hsince := h outlivedRun outlivedState 7 (run_of_isSome _) hstate.1 hlive
    (by rw [hstale.1]; decide)
  rcases hsince.turns hstate.2.1 with ⟨expected, -, horigin⟩
  rw [hstale.1, hstale.2] at horigin
  cases horigin

/-- A rediarize comes between the stages. -/
def rediarizedRun : List Label :=
  [Label.request 0 (.create 7)] ++ steps 0 1 ++ [Label.request 1 (.complete 7 none none)] ++ steps 1 4 ++
  [Label.claim 2 1 [.transcode] 1] ++ steps 2 8 ++
  [Label.claim 3 1 [.diarize] 2, .claim 4 2 [.transcribe] 3] ++ steps 3 7 ++ steps 4 3 ++
  [Label.request 5 (.setParticipants 7 (some 3))] ++ steps 5 1 ++
  [Label.request 6 (.rediarize 7)] ++ steps 6 4 ++
  [Label.claim 7 2 [.diarize] 4] ++ steps 7 1 ++ [Label.step 7 { turns := [⟨0, 0, 900⟩] }] ++ steps 7 3

def Proc.midway (r : Uuid) : Proc → Bool
  | .stage _ body => decide (Midway r body)
  | _ => false

/-- The test of a reset between the stages, looking at the first `n` processes. -/
def between (n : ℕ) (r : Uuid) (s : Sys) : Label → Bool
  | .step i _ =>
    match s.procs i with
    | .todo (c :: _) => !c.resetsNow s.db r || (List.range n).all fun j => !(s.procs j).midway r
    | _ => true
  | _ => true

theorem fencedOff_of_between {n : ℕ} (hs : s.Within n) (h : between n r s a = true) :
    FencedOff r s a := by
  cases a with
  | step i x =>
    intro c rest hproc hreset j job body hj
    simp only [between, hproc, hreset, decide_true, Bool.not_true, Bool.false_or, List.all_eq_true,
      List.mem_range] at h
    by_cases hjn : j < n
    · simpa [Proc.midway, hj] using h j hjn
    · rw [hs j (by omega)] at hj
      cases hj
  | _ => trivial

def rediarizedState : Sys :=
  (exec (guarded (step {}) (amid 8 (between 8 7))) Sys.start rediarizedRun).get (by decide +kernel)

theorem sinceReset_of_fencedOff_rediarizedState :
    (rediarizedState.db.content.diarization 7).isSome = true ∧
      SinceReset 7 (notes (step {}) (origins 7) Sys.start Origins.start rediarizedRun)
        rediarizedState.db.content :=
  ⟨by decide +kernel, sinceReset_of_fencedOff
    (run_of_amid _ fun _ _ => fencedOff_of_between) (by decide +kernel)⟩

end ScribeLocal.Server
