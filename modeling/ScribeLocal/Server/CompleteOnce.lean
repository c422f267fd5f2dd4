import ScribeLocal.Server.Accepted

/-!
# One complete for each recording

A complete request reads the status, stores what it was sent, writes the status and
enqueues, each in a statement of its own. A second request that reads before the first has
written is let past the check as well.
-/
namespace ScribeLocal.Server
open Table Jobs Transition

variable {cfg : Config} {r : Uuid} {s s' : Sys} {a : Label} {x : Heard} {c : Cmd} {i j : ℕ}
  {rest : List Cmd} {d : Option ℤ} {m : Option (List ℤ)}

/-- What the complete requests of a recording have done so far. -/
structure CompleteLog where
  /-- The bodies they were sent with, by process. -/
  calls : ℕ → Option (Option ℤ × Option (List ℤ)) := fun _ => none
  /-- The first that was let past the status check. -/
  winner : Option ℕ := none
  /-- The durations and marks they have stored. -/
  stored : List Stmt := []
  /-- How many transcode jobs have been inserted. -/
  inserted : ℕ := 0

def CompleteLog.note (r : Uuid) (s : Sys) (a : Label) (l : CompleteLog) : CompleteLog where
  calls :=
    match a with
    | .request i (.complete r' d m) =>
      if r' = r then Function.update l.calls i (some (d, m)) else l.calls
    | _ => l.calls
  winner :=
    match a with
    | .step i _ => if accepts r s a = 1 then l.winner.or (some i) else l.winner
    | _ => l.winner
  stored :=
    match a with
    | .step i _ =>
      match s.procs i with
      | .todo (.content st :: _) => if (l.calls i).isSome then l.stored ++ [st] else l.stored
      | _ => l.stored
    | _ => l.stored
  inserted := l.inserted + insertions r .transcode s a

variable {l : CompleteLog}

/-- A complete of `r` stands between its read of the status and its write. -/
def InBetween (r : Uuid) (s : Sys) : Prop :=
  ∃ j cs, s.procs j = .todo cs ∧ Cmd.markProcessing r ∈ cs

/-- No user edits `r` and no complete of it is cut short. The recording is uploading until a
complete is let past the check, and none reads the status while another stands between its read
and its write. -/
def OneAtATime (r : Uuid) (p : Sys × CompleteLog) : Label → Prop
  | .request _ q => q.spares r
  | .stop i => ∀ cs, p.1.procs i = .todo cs → p.2.calls i = none
  | .step i _ => ∀ d m rest, p.1.procs i = .todo (.completeRead r d m :: rest) →
    (p.2.winner = none → p.1.db.status r = some .uploading) ∧ ¬ InBetween r p.1
  | _ => True

/-- The statements by which a complete stores what it was sent. -/
def completeStores (r : Uuid) (d : Option ℤ) (m : Option (List ℤ)) : List Stmt :=
  d.toList.map (Stmt.setDuration r) ++ m.toList.map (Stmt.setMarks r)

def Proc.isOver : Proc → Bool
  | .ended _ _ => true
  | _ => false

/-- Once all complete requests are over, one has succeeded, the others got their conflict, what
is stored is what the one was sent, and the recording has been enqueued once. -/
def CompletedOnce (r : Uuid) (p : Sys × CompleteLog) : Prop :=
  (∃ i, (p.2.calls i).isSome = true) →
    (∀ i, (p.2.calls i).isSome = true → (p.1.procs i).isOver = true) →
    ∃ w d m, p.2.calls w = some (d, m) ∧ p.1.procs w = .ended (some 200) [] ∧
      (∀ i ≠ w, (p.2.calls i).isSome = true → p.1.procs i = .ended (some 409) []) ∧
      p.2.stored = completeStores r d m ∧ p.2.inserted = 1

/-! ## What is noted -/

theorem note_winner_of_some (h : l.winner = some j) : (l.note r s a).winner = some j := by
  cases a <;> simp [CompleteLog.note, h]

theorem note_winner_of_ne (h : l.winner ≠ some i)
    (hno : ∀ x, a = .step i x → accepts r s (.step i x) ≠ 1) : (l.note r s a).winner ≠ some i := by
  cases a with
  | step j x =>
    simp only [CompleteLog.note]
    split
    · next haccept =>
      have hj : j ≠ i := by
        rintro rfl
        exact hno x rfl haccept
      cases hw : l.winner with
      | none => simpa using hj
      | some w => simpa [hw] using h
    · exact h
  | _ => exact h

theorem note_winner_accept (h : l.winner = none)
    (hproc : s.procs i = .todo (.completeRead r d m :: rest))
    (hst : s.db.status r = some .uploading) : (l.note r s (.step i x)).winner = some i := by
  simp [CompleteLog.note, accepts, hproc, hst, h]

theorem note_calls {v : Option ℤ × Option (List ℤ)} (hcall : (l.note r s a).calls i = some v) :
    l.calls i = some v ∨ a = .request i (.complete r v.1 v.2) := by
  simp only [CompleteLog.note] at hcall
  split at hcall
  · next j r' d m =>
    split at hcall
    · next hr =>
      subst hr
      by_cases hi : i = j
      · subst hi
        rw [Function.update_self] at hcall
        cases hcall
        exact .inr rfl
      · rw [Function.update_of_ne hi] at hcall
        exact .inl hcall
    · exact .inl hcall
  · exact .inl hcall

theorem note_calls_of_some (hmoved : Moved cfg s a s') (hproc : s.procs i ≠ .idle) :
    (l.note r s a).calls i = l.calls i := by
  simp only [CompleteLog.note]
  split
  · next j r' d m =>
    split
    · have hi : i ≠ j := by
        rintro rfl
        cases hmoved with
        | request q hidle => exact hproc hidle
      exact Function.update_of_ne hi _ _
    · rfl
  · rfl

theorem note_stored_of_quiet (h : ∀ j x st rest, a = .step j x →
    s.procs j = .todo (.content st :: rest) → l.calls j = none) :
    (l.note r s a).stored = l.stored := by
  simp only [CompleteLog.note]
  split
  · next j x =>
    split
    · next st rest hproc => simp [h j x st rest rfl hproc]
    · rfl
  · rfl

theorem note_inserted_of_quiet (h : ∀ j x payload strict rest, a = .step j x →
    s.procs j ≠ .todo (.insertJob r .transcode payload strict :: rest)) :
    (l.note r s a).inserted = l.inserted := by
  have hzero : insertions r .transcode s a = 0 := by
    unfold insertions
    split
    · next j x =>
      split
      · next r' k payload strict rest hproc =>
        rw [if_neg]
        rintro ⟨rfl, rfl, -⟩
        exact h j x payload strict rest rfl hproc
      · rfl
    · rfl
  simp [CompleteLog.note, hzero]

/-! ## Where a complete stands -/

/-- A complete that has not got past the check, or the one that has. -/
inductive CompletePhase (r : Uuid) (l : CompleteLog) (s : Sys) (i : ℕ) (d : Option ℤ)
    (m : Option (List ℤ)) : Prop
  | reading (hwinner : l.winner ≠ some i) (hproc : s.procs i = .todo [.completeRead r d m])
  | refused {w : ℕ} (hwinner : l.winner = some w) (hne : w ≠ i)
      (hproc : s.procs i = .ended (some 409) [])
  | storing {sts : List Stmt} (hwinner : l.winner = some i)
      (hproc : s.procs i = .todo (sts.map .content ++ [.markProcessing r]))
      (hstored : l.stored ++ sts = completeStores r d m) (hinserted : l.inserted = 0)
  | entering (hwinner : l.winner = some i)
      (hproc : s.procs i = .todo [enqueue r .transcode {}, .reply 200])
      (hstored : l.stored = completeStores r d m) (hinserted : l.inserted = 0)
      (hwritten : s.db.status r ≠ some .uploading)
  | replying (hwinner : l.winner = some i) (hproc : s.procs i = .todo [.reply 200])
      (hstored : l.stored = completeStores r d m) (hinserted : l.inserted = 1)
      (hwritten : s.db.status r ≠ some .uploading)
  | won (hwinner : l.winner = some i) (hproc : s.procs i = .ended (some 200) [])
      (hstored : l.stored = completeStores r d m) (hinserted : l.inserted = 1)
      (hwritten : s.db.status r ≠ some .uploading)

structure Completes (r : Uuid) (l : CompleteLog) (s : Sys) : Prop where
  noEdits : NoEdits r s
  entering : ∀ i cs, s.procs i = .todo cs → ∀ c ∈ cs, c.enters r .transcode → l.winner = some i
  reads : ∀ i cs, s.procs i = .todo cs → ∀ c ∈ cs, ∀ d m, c = .completeRead r d m →
    (l.calls i).isSome = true
  phase : ∀ i v, l.calls i = some v → CompletePhase r l s i v.1 v.2
  fresh : l.winner = none → l.stored = [] ∧ l.inserted = 0
  winner : ∀ w, l.winner = some w → (l.calls w).isSome = true ∧ (s.db.status r).isSome = true
  inserted : HasTranscode r s → l.inserted ≠ 0

theorem completes_start : Completes r {} Sys.start where
  noEdits _ _ h := nomatch h
  entering _ _ h := nomatch h
  reads _ _ h := nomatch h
  phase _ _ h := nomatch h
  fresh _ := ⟨rfl, rfl⟩
  winner _ h := nomatch h
  inserted h := by
    rcases hasTranscode_iff.mp h with ⟨row, hrow, -⟩
    cases hrow

theorem CompletePhase.not_idle {i : ℕ} (h : CompletePhase r l s i d m) : s.procs i ≠ .idle := by
  cases h with
  | reading _ hproc | refused _ _ hproc | storing _ hproc | entering _ hproc | replying _ hproc
  | won _ hproc => simp [hproc]

/-- Only the one that got past the check stores anything. -/
theorem Completes.winner_of_content (h : Completes r l s) {st : Stmt}
    (hproc : s.procs j = .todo (.content st :: rest)) (hcall : l.calls j ≠ none) :
    l.winner = some j := by
  rcases Option.ne_none_iff_exists'.mp hcall with ⟨v, hv⟩
  cases h.phase j v hv with
  | storing hwinner | entering hwinner | replying hwinner | won hwinner => exact hwinner
  | reading _ hproc' | refused _ _ hproc' => cases hproc.symm.trans hproc'

theorem transcode_not_live (hno : ¬HasTranscode r s) :
    s.db.jobs.has r .transcode Job.isLive = false := by
  rw [Bool.eq_false_iff]
  intro hlive
  rcases has_iff.mp hlive with ⟨row, hrow, hk, -⟩
  exact hno (hasTranscode_iff.mpr ⟨row, hrow, hk⟩)

/-- A process at the insert of the transcode job is the winner, and no such job exists yet. -/
theorem Completes.at_insert (h : Completes r l s) {payload : Payload} {strict : Bool}
    (hproc : s.procs j = .todo (.insertJob r .transcode payload strict :: rest)) :
    l.winner = some j ∧ (s.db.status r).isSome = true ∧ l.inserted = 0 ∧ ¬ HasTranscode r s := by
  have hwinner : l.winner = some j := h.entering j _ hproc _ List.mem_cons_self ⟨rfl, rfl⟩
  have hknown := h.winner j hwinner
  rcases Option.isSome_iff_exists.mp hknown.1 with ⟨v, hv⟩
  have hzero : l.inserted = 0 := by
    cases h.phase j v hv with
    | entering _ _ _ hzero | storing _ _ _ hzero => exact hzero
    | reading _ hproc' | refused _ _ hproc' | replying _ hproc' | won _ hproc' =>
      cases hproc.symm.trans hproc'
  exact ⟨hwinner, hknown.2, hzero, fun hhas => h.inserted hhas hzero⟩

/-! ## One step -/

/-- No recording is forgotten. -/
theorem moved_known (hmoved : Moved cfg s a s') (h : (s.db.status r).isSome = true) :
    (s'.db.status r).isSome = true := by
  cases hmoved with
  | @cmd i c rest x hproc =>
    change ((c.exec cfg x s.db).1.status r).isSome = true
    rcases exec_status cfg x s.db c r with heq | ⟨-, -, hst⟩ | ⟨-, hst⟩ | ⟨-, hst⟩ | ⟨-, hst⟩
    · rw [heq]
      exact h
    all_goals simp [hst]
  | _ => exact h

/-- A recording that is no longer uploading is not so again. -/
theorem moved_written (hmoved : Moved cfg s a s') (hsome : (s.db.status r).isSome = true)
    (h : s.db.status r ≠ some .uploading) : s'.db.status r ≠ some .uploading := by
  cases hmoved with
  | @cmd i c rest x hproc =>
    change (c.exec cfg x s.db).1.status r ≠ some .uploading
    rcases exec_status cfg x s.db c r with heq | ⟨-, hnone, -⟩ | ⟨-, hst⟩ | ⟨-, hst⟩ | ⟨-, hst⟩
    · rwa [heq]
    · simp [hnone] at hsome
    all_goals simp [hst]
  | _ => exact h

/-- Where no complete stands in between, the recording is uploading for the first that reads the
status and for no other. -/
theorem Completes.uploading_iff (h : Completes r l s)
    (hfirst : l.winner = none → s.db.status r = some .uploading) (hclear : ¬ InBetween r s) :
    ∃ st, s.db.status r = some st ∧ (st = .uploading ↔ l.winner = none) := by
  cases hw : l.winner with
  | none => exact ⟨.uploading, hfirst hw, iff_of_true rfl rfl⟩
  | some w =>
    obtain ⟨hcall, hknown⟩ := h.winner w hw
    rcases Option.isSome_iff_exists.mp hknown with ⟨st, hst⟩
    rcases Option.isSome_iff_exists.mp hcall with ⟨v, hv⟩
    have hwritten : s.db.status r ≠ some .uploading := by
      cases h.phase w v hv with
      | reading hwinner => exact absurd hw hwinner
      | refused hwinner hne => exact absurd (Option.some.inj (hwinner.symm.trans hw)) hne
      | storing _ hproc => exact absurd ⟨w, _, hproc, by simp⟩ hclear
      | entering _ _ _ _ hwritten | replying _ _ _ _ hwritten | won _ _ _ _ hwritten =>
        exact hwritten
    refine ⟨st, hst, iff_of_false ?_ (Option.some_ne_none w)⟩
    rintro rfl
    exact hwritten hst

/-- What is noted about the winner changes only where it stores or inserts. -/
theorem Completes.note_of_quiet (h : Completes r l s) (hwinner : l.winner = some i)
    (hquiet : ∀ x c rest, a = .step i x → s.procs i = .todo (c :: rest) →
      (∀ st, c ≠ .content st) ∧ ∀ payload strict, c ≠ .insertJob r .transcode payload strict) :
    (l.note r s a).stored = l.stored ∧ (l.note r s a).inserted = l.inserted := by
  constructor
  · apply note_stored_of_quiet
    rintro j x st rest rfl hproc
    by_contra hcall
    cases hwinner.symm.trans (h.winner_of_content hproc hcall)
    exact (hquiet x _ rest rfl hproc).1 st rfl
  · apply note_inserted_of_quiet
    rintro j x payload strict rest rfl hproc
    cases hwinner.symm.trans (h.at_insert hproc).1
    exact (hquiet x _ rest rfl hproc).2 payload strict rfl

/-- The read of the status lets one complete past, and turns the others away. -/
theorem phase_read (h : Completes r l s) (hwinner : l.winner ≠ some i)
    (hproc : s.procs i = .todo [.completeRead r d m]) {st : RecordingStatus}
    (hst : s.db.status r = some st) (hfirst : st = .uploading ↔ l.winner = none) :
    CompletePhase r (l.note r s (.step i x)) (s.after cfg x i (.completeRead r d m) []) i d m := by
  have hnext : (s.after cfg x i (.completeRead r d m) []).procs i =
      advance [] (Cmd.exec cfg x s.db (.completeRead r d m)).2 := after_procs_self
  have hstored : (l.note r s (.step i x)).stored = l.stored :=
    note_stored_of_quiet fun j x st rest ha hproc' => by
      cases ha
      cases hproc.symm.trans hproc'
  have hinserted : (l.note r s (.step i x)).inserted = l.inserted :=
    note_inserted_of_quiet fun j x payload strict rest ha hproc' => by
      cases ha
      cases hproc.symm.trans hproc'
  by_cases huploading : st = .uploading
  · have hnone := hfirst.mp huploading
    have hnext' : (s.after cfg x i (.completeRead r d m) []).procs i =
        .todo ((completeStores r d m).map .content ++ [.markProcessing r]) := by
      rw [hnext]
      simp [Cmd.exec, fetched, hst, huploading, advance, completeStores, Function.comp_def]
    apply CompletePhase.storing (note_winner_accept hnone hproc (huploading ▸ hst)) hnext'
    · rw [hstored, (h.fresh hnone).1, List.nil_append]
    · rw [hinserted, (h.fresh hnone).2]
  · rcases Option.ne_none_iff_exists'.mp fun hnone => huploading (hfirst.mpr hnone) with ⟨w, hw⟩
    apply CompletePhase.refused (note_winner_of_some hw)
    · rintro rfl
      exact hwinner hw
    · rw [hnext]
      simp [Cmd.exec, fetched, hst, huploading, advance]

/-- The winner stores the next thing it was sent, or writes the status. -/
theorem phase_store (h : Completes r l s) (hwinner : l.winner = some i) {sts : List Stmt}
    (hproc : s.procs i = .todo (c :: rest)) (hlist : c :: rest = sts.map .content ++ [.markProcessing r])
    (hcall : (l.calls i).isSome = true)
    (hstored : l.stored ++ sts = completeStores r d m) (hinserted : l.inserted = 0) :
    CompletePhase r (l.note r s (.step i x)) (s.after cfg x i c rest) i d m := by
  have hwinner' : (l.note r s (.step i x)).winner = some i := note_winner_of_some hwinner
  have hinserted' : (l.note r s (.step i x)).inserted = 0 := by
    rw [note_inserted_of_quiet, hinserted]
    rintro j x payload strict rest' ⟨rfl, -⟩ hproc'
    cases hproc.symm.trans hproc'
    cases sts <;> cases hlist
  cases sts with
  | nil =>
    cases hlist
    have hknown := (h.winner i hwinner).2
    apply CompletePhase.entering hwinner' _ _ hinserted'
    · change (Cmd.exec cfg x s.db (.markProcessing r)).1.status r ≠ some .uploading
      simp [Cmd.exec, hknown]
    · rw [after_procs_self]
      simp [Cmd.exec, hknown, advance]
    · rw [note_stored_of_quiet, ← hstored, List.append_nil]
      rintro j x st rest' ⟨rfl, -⟩ hproc'
      cases hproc.symm.trans hproc'
  | cons st sts =>
    cases hlist
    have hmem : st ∈ completeStores r d m := by
      rw [← hstored]
      simp
    refine CompletePhase.storing hwinner'
      (?_ : _ = Proc.todo (sts.map .content ++ [.markProcessing r])) ?_ hinserted'
    · rw [after_procs_self]
      rcases List.mem_append.mp hmem with hmem | hmem
      all_goals
        rcases List.mem_map.mp hmem with ⟨ms, -, rfl⟩
        rfl
    · have hnote : (l.note r s (.step i x)).stored = l.stored ++ [st] := by
        simp [CompleteLog.note, hproc, hcall]
      rw [hnote, List.append_assoc]
      exact hstored

/-- The winner inserts the transcode job. -/
theorem phase_insert (h : Completes r l s) (hwinner : l.winner = some i)
    (hproc : s.procs i = .todo [enqueue r .transcode {}, .reply 200])
    (hstored : l.stored = completeStores r d m) (hinserted : l.inserted = 0)
    (hwritten : (s.after cfg x i (enqueue r .transcode {}) [.reply 200]).db.status r ≠
      some .uploading) :
    CompletePhase r (l.note r s (.step i x)) (s.after cfg x i (enqueue r .transcode {}) [.reply 200])
      i d m := by
  rcases h.at_insert hproc with ⟨-, hknown, -, hno⟩
  have hlive := transcode_not_live hno
  apply CompletePhase.replying (note_winner_of_some hwinner)
  · rw [after_procs_self, (exec_enqueue cfg x .transcode hknown).2, hlive]
    rfl
  · rw [note_stored_of_quiet, hstored]
    rintro j x st rest' ⟨rfl, -⟩ hproc'
    cases hproc.symm.trans hproc'
  · simp [CompleteLog.note, insertions, hproc, enqueue, hknown, hlive, hinserted]
  · exact hwritten

theorem phase_moved (h : Completes r l s) (hok : OneAtATime r (s, l) a) (hmoved : Moved cfg s a s')
    (hcall : l.calls i = some (d, m)) : CompletePhase r (l.note r s a) s' i d m := by
  have hrunning (cs : List Cmd) (hproc : s.procs i = .todo cs) : a ≠ .stop i := by
    rintro rfl
    simpa [hcall] using hok cs hproc
  have hother (hmove : a.proc ≠ some i) (x : Heard) : a ≠ .step i x := by
    rintro rfl
    exact hmove rfl
  cases h.phase i (d, m) hcall with
  | refused hwinner hne hproc =>
    exact .refused (note_winner_of_some hwinner) hne (moved_ended hmoved hproc)
  | reading hwinner hproc =>
    rcases moved_todo_by hmoved hproc with ⟨hmove, hsame⟩ | ⟨x, rfl, rfl⟩ | ⟨hstop, -⟩
    · apply CompletePhase.reading _ (hsame.trans hproc)
      exact note_winner_of_ne hwinner fun x ha => absurd ha (hother hmove x)
    · obtain ⟨hfirst, hclear⟩ := hok d m [] hproc
      obtain ⟨st, hst, huploading⟩ := h.uploading_iff hfirst hclear
      exact phase_read h hwinner hproc hst huploading
    · exact absurd hstop (hrunning _ hproc)
  | @storing sts hwinner hproc hstored hinserted =>
    rcases hlist : sts.map Cmd.content ++ [.markProcessing r] with _ | ⟨c, rest⟩
    · simp at hlist
    rw [hlist] at hproc
    rcases moved_todo_by hmoved hproc with ⟨hmove, hsame⟩ | ⟨x, rfl, rfl⟩ | ⟨hstop, -⟩
    · rcases h.note_of_quiet hwinner fun x c rest ha => absurd ha (hother hmove x) with ⟨hst, hin⟩
      exact .storing (note_winner_of_some hwinner) (hlist ▸ hsame.trans hproc) (hst ▸ hstored)
        (hin.trans hinserted)
    · exact phase_store h hwinner hproc hlist.symm (by simp [hcall]) hstored hinserted
    · exact absurd hstop (hrunning _ hproc)
  | entering hwinner hproc hstored hinserted hwritten =>
    have hwritten' := moved_written hmoved (h.winner i hwinner).2 hwritten
    rcases moved_todo_by hmoved hproc with ⟨hmove, hsame⟩ | ⟨x, rfl, rfl⟩ | ⟨hstop, -⟩
    · rcases h.note_of_quiet hwinner fun x c rest ha => absurd ha (hother hmove x) with ⟨hst, hin⟩
      exact .entering (note_winner_of_some hwinner) (hsame.trans hproc) (hst.trans hstored)
        (hin.trans hinserted) hwritten'
    · exact phase_insert h hwinner hproc hstored hinserted hwritten'
    · exact absurd hstop (hrunning _ hproc)
  | replying hwinner hproc hstored hinserted hwritten =>
    have hwritten' := moved_written hmoved (h.winner i hwinner).2 hwritten
    have hnote : (l.note r s a).stored = l.stored ∧ (l.note r s a).inserted = l.inserted := by
      apply h.note_of_quiet hwinner
      intro x c rest _ hproc'
      cases hproc.symm.trans hproc'
      exact ⟨nofun, nofun⟩
    rcases moved_todo_by hmoved hproc with ⟨hmove, hsame⟩ | ⟨x, rfl, rfl⟩ | ⟨hstop, -⟩
    · exact .replying (note_winner_of_some hwinner) (hsame.trans hproc) (hnote.1.trans hstored)
        (hnote.2.trans hinserted) hwritten'
    · exact .won (note_winner_of_some hwinner) after_procs_self (hnote.1.trans hstored)
        (hnote.2.trans hinserted) hwritten'
    · exact absurd hstop (hrunning _ hproc)
  | won hwinner hproc hstored hinserted hwritten =>
    have hnote : (l.note r s a).stored = l.stored ∧ (l.note r s a).inserted = l.inserted := by
      apply h.note_of_quiet hwinner
      intro x c rest _ hproc'
      cases hproc.symm.trans hproc'
    exact .won (note_winner_of_some hwinner) (moved_ended hmoved hproc) (hnote.1.trans hstored)
      (hnote.2.trans hinserted) (moved_written hmoved (h.winner i hwinner).2 hwritten)

theorem winner_moved (h : Completes r l s) (hok : OneAtATime r (s, l) a) (hmoved : Moved cfg s a s')
    {w : ℕ} (hw : (l.note r s a).winner = some w) :
    ((l.note r s a).calls w).isSome = true ∧ (s'.db.status r).isSome = true := by
  have hkeep {i : ℕ} (hcall : (l.calls i).isSome = true) : ((l.note r s a).calls i).isSome = true := by
    rcases Option.isSome_iff_exists.mp hcall with ⟨v, hv⟩
    rwa [note_calls_of_some hmoved (h.phase i v hv).not_idle]
  cases hold : l.winner with
  | some w' =>
    have heq : w' = w := Option.some.inj ((note_winner_of_some hold).symm.trans hw)
    subst heq
    have hknown := h.winner w' hold
    exact ⟨hkeep hknown.1, moved_known hmoved hknown.2⟩
  | none =>
    by_contra hno
    apply note_winner_of_ne (l := l) (r := r) (s := s) (a := a) (i := w) (by simp [hold]) _ hw
    rintro x rfl haccept
    cases hmoved with
    | @cmd _ c rest _ hproc =>
      cases c with
      | completeRead r' d m =>
        simp only [accepts, hproc] at haccept
        split at haccept
        · next hup =>
          obtain ⟨rfl, hst⟩ := hup
          have hcall := h.reads w _ hproc _ List.mem_cons_self d m rfl
          apply hno
          refine ⟨hkeep hcall, ?_⟩
          apply moved_known (Moved.cmd x hproc)
          simp [hst]
        · cases haccept
      | _ => simp [accepts, hproc] at haccept
    | stmt _ hproc | stmtErr _ hproc | bodyDone _ hproc => simp [accepts, hproc] at haccept

theorem inserted_moved (h : Completes r l s) (hmoved : Moved cfg s a s') (hhas : HasTranscode r s') :
    (l.note r s a).inserted ≠ 0 := by
  rcases hasTranscode_iff.mp hhas with ⟨row, hrow, hr, hk⟩
  rcases moved_rows hmoved hrow with ⟨old, hold, hcont⟩ |
    ⟨i, x, r', k, payload, strict, rest, rfl, hproc, rfl⟩
  · have hbefore := h.inserted (hasTranscode_iff.mpr
      ⟨old, hold, hcont.recordingId.symm.trans hr, hcont.kind.symm.trans hk⟩)
    simp [CompleteLog.note, hbefore]
  · cases Option.some.inj hr
    cases hk
    rcases h.at_insert hproc with ⟨-, hknown, -, hno⟩
    have hlive := transcode_not_live hno
    simp [CompleteLog.note, insertions, hproc, hknown, hlive]

theorem completes_moved (h : Completes r l s) (hok : OneAtATime r (s, l) a)
    (hmoved : Moved cfg s a s') : Completes r (l.note r s a) s' where
  noEdits := noEdits_moved h.noEdits (fun i q ha => by subst ha; exact hok) hmoved
  entering := by
    apply moved_todo_told (P := fun i c => c.enters r .transcode → (l.note r s a).winner = some i)
      hmoved
    · intro i cs hproc c hc hin
      exact note_winner_of_some (h.entering i cs hproc c hc hin)
    · rintro i x c rest c' rfl hproc hfollow hin
      have hedit := h.noEdits i _ hproc c List.mem_cons_self
      rcases follows_enters hfollow hin rfl hedit with hc | ⟨d, m, rfl, hst, -⟩ | ⟨job, -, -, hy⟩
      · exact note_winner_of_some (h.entering i _ hproc c List.mem_cons_self hc)
      · obtain ⟨hfirst, hclear⟩ := hok d m rest hproc
        obtain ⟨st, hst', huploading⟩ := h.uploading_iff hfirst hclear
        exact note_winner_accept (huploading.mp (Option.some.inj (hst'.symm.trans hst))) hproc hst
      · cases hk : job.kind <;> rw [hk] at hy <;> simp [JobKind.successors] at hy
    · intro i q _ hin
      cases q <;> cases hin
    · exact fun _ => False.elim
    · exact fun _ _ _ => False.elim
    · exact fun _ _ _ _ _ _ => False.elim
    · exact fun _ _ _ _ _ _ => False.elim
  reads := by
    apply moved_todo_told (P := fun i c => ∀ d m, c = .completeRead r d m →
      ((l.note r s a).calls i).isSome = true) hmoved
    · intro i cs hproc c hc d m heq
      have hcall := h.reads i cs hproc c hc d m heq
      rwa [note_calls_of_some hmoved (by simp [hproc])]
    · rintro i x c rest c' rfl hproc hfollow d m rfl
      cases hfollow
    · rintro i q rfl d m heq
      cases q <;> cases heq
      simp [CompleteLog.note]
    · intro _ _ _ heq
      cases heq
    · intro _ _ _ _ _ heq
      cases heq
    · intro _ _ _ _ _ _ _ _ heq
      cases heq
    · intro _ _ _ _ _ _ _ _ heq
      cases heq
  phase i v hv := by
    rcases note_calls hv with hold | rfl
    · exact phase_moved h hok hmoved hold
    · cases hmoved with
      | request q hidle =>
        apply CompletePhase.reading
        · intro hw
          rcases Option.isSome_iff_exists.mp (h.winner i hw).1 with ⟨v', hv'⟩
          exact (h.phase i v' hv').not_idle hidle
        · exact Sys.setProc_self
  fresh hnone := by
    have hold : l.winner = none := by
      cases hw : l.winner with
      | none => rfl
      | some w =>
        rw [note_winner_of_some hw] at hnone
        cases hnone
    rw [note_stored_of_quiet, note_inserted_of_quiet]
    · exact h.fresh hold
    · rintro j x payload strict rest rfl hproc
      cases hold.symm.trans (h.at_insert hproc).1
    · rintro j x st rest rfl hproc
      by_contra hcall
      cases hold.symm.trans (h.winner_of_content hproc hcall)
  winner _ hw := winner_moved h hok hmoved hw
  inserted hhas := inserted_moved h hmoved hhas

/-- Where no complete reads the status between another one's read and its write, a recording is
completed once. -/
theorem completedOnce_of_oneAtATime {tr : List Label} {p : Sys × CompleteLog}
    (h : Run (withNotes (step cfg) (CompleteLog.note r)) (OneAtATime r) (Sys.start, {}) tr p) :
    CompletedOnce r p := by
  have hinv : Completes r p.2 p.1 := by
    apply h.invariant (I := fun p => Completes r p.2 p.1) completes_start
    intro p a p' hp hok hs
    rcases withNotes_eq_some.mp hs with ⟨hstep, hnote⟩
    rw [hnote]
    exact completes_moved hp hok (step_moved hstep)
  rintro ⟨i, hi⟩ hover
  have hcalled {i : ℕ} (hi : (p.2.calls i).isSome = true) :
      (p.1.procs i = .ended (some 409) [] ∧ ∃ w ≠ i, p.2.winner = some w) ∨
        p.2.winner = some i ∧ ∃ d m, p.2.calls i = some (d, m) ∧ p.1.procs i = .ended (some 200) [] ∧
          p.2.stored = completeStores r d m ∧ p.2.inserted = 1 := by
    rcases Option.isSome_iff_exists.mp hi with ⟨v, hv⟩
    have hend := hover i hi
    cases hinv.phase i v hv with
    | refused hwinner hne hproc => exact .inl ⟨hproc, _, hne, hwinner⟩
    | won hwinner hproc hstored hinserted =>
      exact .inr ⟨hwinner, v.1, v.2, hv, hproc, hstored, hinserted⟩
    | reading _ hproc | storing _ hproc | entering _ hproc | replying _ hproc =>
      simp [hproc, Proc.isOver] at hend
  have hwinner : ∃ w, p.2.winner = some w := by
    rcases hcalled hi with ⟨-, w, -, hw⟩ | ⟨hw, -⟩
    · exact ⟨w, hw⟩
    · exact ⟨i, hw⟩
  rcases hwinner with ⟨w, hw⟩
  rcases hcalled (hinv.winner w hw).1 with ⟨-, w', hne, hw'⟩ | ⟨-, d, m, hv, hproc, hstored, hinserted⟩
  · exact absurd (Option.some.inj (hw'.symm.trans hw)) hne
  · refine ⟨w, d, m, hv, hproc, fun i hne hi => ?_, hstored, hinserted⟩
    rcases hcalled hi with ⟨hproc, -⟩ | ⟨hw', -⟩
    · exact hproc
    · exact absurd (Option.some.inj (hw'.symm.trans hw)) hne

/-! ## Two completes at once -/

theorem moved_not_idle (hmoved : Moved cfg s a s') (h : s.procs i ≠ .idle) : s'.procs i ≠ .idle := by
  by_cases hi : a.proc = some i
  · cases hmoved with
    | tick => cases hi
    | heartbeat => exact h
    | @stop j =>
      cases hi
      rw [Sys.setProc_self]
      cases hproc : s.procs i with
      | idle => exact absurd hproc h
      | _ => simp [Proc.stopped]
    | @cmd j c rest x =>
      cases hi
      rw [Sys.setProc_self]
      cases (c.exec cfg x s.db).2 <;> simp [advance]
    | _ =>
      cases hi
      rw [Sys.setProc_self]
      simp
  · rwa [moved_procs_of_ne hmoved hi]

/-- A process that has not moved handles no complete. -/
theorem uncalled_moved (hmoved : Moved cfg s a s') (h : ∀ i, s.procs i = .idle → l.calls i = none)
    (hidle : s'.procs i = .idle) : (l.note r s a).calls i = none := by
  have hbefore : s.procs i = .idle := by
    by_contra hne
    exact moved_not_idle hmoved hne hidle
  by_contra hcall
  rcases Option.ne_none_iff_exists'.mp hcall with ⟨v, hv⟩
  rcases note_calls hv with hold | rfl
  · simp [h i hbefore] at hold
  · cases hmoved with
    | request q => simp at hidle

/-- Two completes of recording 7 read the status before either writes it. -/
def twoCompletes : List Label :=
  [Label.request 0 (.create 7)] ++ steps 0 1 ++
  [Label.request 1 (.complete 7 (some 1000) none), .request 2 (.complete 7 (some 2000) none)] ++
  steps 1 1 ++ steps 2 1 ++ steps 1 4 ++ steps 2 5

def twoState : Sys × CompleteLog :=
  (exec (guarded (withNotes (step {}) (CompleteLog.note 7)) (amid 3 fun _ _ => true))
    (Sys.start, {}) twoCompletes).get (by decide +kernel)

theorem run_twoState :
    Run (withNotes (step {}) (CompleteLog.note 7)) anyStep (Sys.start, {}) twoCompletes twoState ∧
      twoState.1.Within 3 :=
  run_of_amid_notes _ fun _ _ _ _ => trivial

theorem twoState_over (i : ℕ) (h : (twoState.2.calls i).isSome = true) :
    (twoState.1.procs i).isOver = true := by
  by_cases hi : i < 3
  · have hall : ∀ i < 3, (twoState.2.calls i).isSome = true →
        (twoState.1.procs i).isOver = true := by decide +kernel
    exact hall i hi h
  · have hidle : twoState.1.procs i = .idle := run_twoState.2 i (Nat.le_of_not_lt hi)
    have hun : ∀ i, twoState.1.procs i = .idle → twoState.2.calls i = none := by
      apply run_twoState.1.invariant (I := fun p => ∀ i, p.1.procs i = .idle → p.2.calls i = none)
      · exact fun _ _ => rfl
      · intro p a p' hp _ hs i
        rcases withNotes_eq_some.mp hs with ⟨hstep, hnote⟩
        rw [hnote]
        exact uncalled_moved (step_moved hstep) hp
    simp [hun i hidle] at h

/-- Both succeed, and the second one's duration replaces the first one's. -/
theorem not_completedOnce : ∃ p,
    Run (withNotes (step {}) (CompleteLog.note 7)) anyStep (Sys.start, {}) twoCompletes p ∧
      (p.1.procs 1 = .ended (some 200) [] ∧ p.1.procs 2 = .ended (some 200) []) ∧
        ¬ CompletedOnce 7 p := by
  have hboth : (twoState.1.procs 1 = .ended (some 200) [] ∧
      twoState.1.procs 2 = .ended (some 200) []) ∧
      (twoState.2.calls 1).isSome = true ∧ (twoState.2.calls 2).isSome = true := by decide +kernel
  refine ⟨twoState, run_twoState.1, hboth.1, ?_⟩
  intro h
  rcases h ⟨1, hboth.2.1⟩ twoState_over with ⟨w, d, m, -, -, hothers, -⟩
  by_cases hw : w = 1
  · have hlost := hothers 2 (by omega) hboth.2.2
    rw [hboth.1.2] at hlost
    cases hlost
  · have hlost := hothers 1 (Ne.symm hw) hboth.2.1
    rw [hboth.1.1] at hlost
    cases hlost

/-- The test of a complete that reads the status in time, looking at the first `n` processes. -/
def inTurn (n : ℕ) (r : Uuid) (p : Sys × CompleteLog) : Label → Bool
  | .request _ (.create _) | .request _ (.complete _ _ _) => true
  | .request _ _ => false
  | .stop _ => false
  | .step i _ =>
    match p.1.procs i with
    | .todo (.completeRead _ _ _ :: _) =>
      decide (p.2.winner = none → p.1.db.status r = some .uploading) &&
        (List.range n).all fun j => match p.1.procs j with
          | .todo cs => cs.all fun c => c ≠ .markProcessing r
          | _ => true
    | _ => true
  | _ => true

theorem oneAtATime_of_inTurn {n : ℕ} {p : Sys × CompleteLog} (hs : p.1.Within n)
    (h : inTurn n r p a = true) : OneAtATime r p a := by
  cases a with
  | request i q =>
    cases q with
    | create | complete => trivial
    | _ => simp [inTurn] at h
  | stop i => simp [inTurn] at h
  | step i x =>
    intro d m rest hproc
    simp only [inTurn, hproc, Bool.and_eq_true, decide_eq_true_eq, List.all_eq_true,
      List.mem_range] at h
    refine ⟨h.1, ?_⟩
    rintro ⟨j, cs, hj, hmem⟩
    by_cases hjn : j < n
    · have hall := h.2 j hjn
      simp only [hj, List.all_eq_true, decide_eq_true_eq] at hall
      exact hall _ hmem rfl
    · rw [hs j (Nat.le_of_not_lt hjn)] at hj
      cases hj
  | _ => trivial

/-- The phone retries its complete while the first one is at its enqueue. -/
def retriedComplete : List Label :=
  [Label.request 0 (.create 7)] ++ steps 0 1 ++
  [Label.request 1 (.complete 7 (some 1000) none), .request 2 (.complete 7 (some 1000) none)] ++
  steps 1 3 ++ steps 2 1 ++ steps 1 2

def repeatedState : Sys × CompleteLog :=
  (exec (guarded (withNotes (step {}) (CompleteLog.note 7)) (amid 3 (inTurn 3 7)))
    (Sys.start, {}) retriedComplete).get (by decide +kernel)

theorem completedOnce_repeatedState :
    (repeatedState.1.procs 1 = .ended (some 200) [] ∧ repeatedState.1.procs 2 = .ended (some 409) []) ∧
      CompletedOnce 7 repeatedState :=
  ⟨by decide +kernel, completedOnce_of_oneAtATime
    (run_of_amid_notes _ fun _ _ => oneAtATime_of_inTurn).1⟩

end ScribeLocal.Server
