import ScribeLocal.Server.Moves
import ScribeLocal.Server.Stages

/-! # The live drain

A `PUT` inserts its segment and then enqueues a live pass; the enqueue does nothing
while a live job exists. A pass lists, transcribes, completes its job and only then
counts what is still untranscribed. No order of these statements leaves a segment
behind with nobody to transcribe it.
-/
namespace ScribeLocal.Server
open Table Jobs Transition

variable {cfg : Config} {r : Uuid} {s s' : Sys} {a : Label} {x : Heard} {db : Db} {c : Cmd}
  {i : ℕ} {rest : List Cmd}

/-- Commands that see to it that there is a live job. -/
def Cmd.wakes (r : Uuid) : Cmd → Prop
  | .insertJob r' k _ _ => r' = r ∧ k = .transcribeSegment
  | .liveRequeue r' | .liveRequeueCount r' => r' = r
  | _ => False

/-- The first of the two steps of a `PUT`. -/
def Cmd.stores (r : Uuid) : Cmd → Prop
  | .content (.insertSegment r' _ _ _) => r' = r
  | _ => False

/-- No process stops between its two steps, and no live job is given up. -/
def Draining (cfg : Config) (r : Uuid) (s : Sys) : Label → Prop
  | .stop i => ∀ c ∈ (s.procs i).pending false, ¬ c.wakes r
  | .step i _ =>
    (∀ job error n rest, s.procs i = .todo (.failUpdate job error n :: rest) →
      job.recordingId = some r → job.kind = .transcribeSegment → n < cfg.maxAttempts) ∧
    (∀ rest, s.procs i = .todo (.reapStuck :: rest) → ∀ row ∈ s.db.jobs.rows,
      row.recordingId = some r → row.kind = .transcribeSegment →
      stuck s.db.now cfg.lease row = true → exhausted cfg.maxAttempts row = false)
  | _ => True

/-- The recording has left `uploading`. -/
def Closed (s : Sys) (r : Uuid) : Prop :=
  (s.db.status r).isSome = true ∧ s.db.status r ≠ some .uploading

/-- The command has nothing to do with the drain of `r`, nor has what follows it. -/
def Cmd.idles (r : Uuid) (c : Cmd) : Prop :=
  ¬ c.wakes r ∧ ¬ c.stores r ∧ c ≠ .succ r .transcribeSegment

/-- The lists of commands a process can be left with, as far as the drain of `r` goes. -/
inductive Waker (s : Sys) (r : Uuid) : List Cmd → Prop
  | quiet {cs : List Cmd} (h : ∀ c ∈ cs, c.idles r) : Waker s r cs
  | wake {c : Cmd} {cs : List Cmd} (hc : c.wakes r)
      (h : ∀ c ∈ cs, c.idles r) : Waker s r (c :: cs)
  | put {c c' : Cmd} {cs : List Cmd} (hc : c.stores r) (hc' : c'.wakes r)
      (hsome : (s.db.status r).isSome = true) (h : ∀ c ∈ cs, c.idles r) : Waker s r (c :: c' :: cs)
  | late {c : Cmd} {cs : List Cmd} (hc : c.stores r) (hclosed : Closed s r)
      (h : ∀ c ∈ cs, c.idles r) : Waker s r (c :: cs)

/-- A segment of the recording is not transcribed. -/
def Owing (c : Content) (r : Uuid) : Prop :=
  ∃ g ∈ c.segments, g.recordingId = r ∧ g.transcribedAt = none

theorem owing_iff {c : Content} : Owing c r ↔ c.untranscribed r ≠ [] := by
  constructor
  · rintro ⟨g, hg, hr, hnone⟩ hnil
    have hin := mem_untranscribed.mpr ⟨hg, hr, hnone⟩
    rw [hnil] at hin
    cases hin
  · intro hne
    rcases List.exists_mem_of_ne_nil _ hne with ⟨g, hg⟩
    exact ⟨g, mem_untranscribed.mp hg⟩

/-- Only an insert leaves a recording with more to transcribe than it had. -/
theorem owing_exec {now : Time} {status : Uuid → Option RecordingStatus} {st : Stmt}
    {c c' : Content} {sts : List Stmt} (h : st.exec now status x c = some (c', sts))
    (howing : Owing c' r) : Owing c r ∨ ∃ seq a b, st = .insertSegment r seq a b := by
  cases st with
  | insertSegment r' seq a b =>
    cases h
    by_cases hr : r' = r
    · exact .inr ⟨seq, a, b, by rw [hr]⟩
    · left
      rcases howing with ⟨g, hg, hgr, hnone⟩
      unfold Content.insertSegment at hg
      split at hg
      · rcases mem_updateWhere.mp hg with ⟨g₀, hg₀, rfl⟩
        unfold updateRow at hgr hnone
        by_cases hp : (g₀.recordingId == r' && g₀.seq == seq) = true
        · rw [if_pos hp] at hgr hnone
          exact ⟨g₀, hg₀, hgr, hnone⟩
        · rw [if_neg hp] at hgr hnone
          exact ⟨g₀, hg₀, hgr, hnone⟩
      · rcases List.mem_append.mp hg with hg | hg
        · exact ⟨g, hg, hgr, hnone⟩
        · rw [List.mem_singleton.mp hg] at hgr
          exact absurd hgr hr
  | liveMark r' id offset ms =>
    cases h
    left
    rcases howing with ⟨g, hg, hgr, hnone⟩
    rcases mem_updateWhere.mp hg with ⟨g₀, hg₀, rfl⟩
    unfold updateRow at hgr hnone
    split at hnone
    · cases hnone
    · rename_i hne
      rw [if_neg hne] at hgr
      exact ⟨g₀, hg₀, hgr, hnone⟩
  | liveInsert r' offset segments =>
    left
    cases segments with
    | nil =>
      cases h
      exact howing
    | cons g gs =>
      simp only [Stmt.exec] at h
      split at h <;> cases h <;> exact howing
  | _ =>
    left
    simp only [Stmt.exec] at h
    repeat' split at h
    all_goals (try cases h)
    all_goals exact howing

/-! ## The lists -/

theorem isSome_exec (h : (db.status r).isSome = true) :
    ((c.exec cfg x db).1.status r).isSome = true := by
  rcases exec_status cfg x db c r with heq | ⟨-, -, hst⟩ | ⟨-, hst⟩ | ⟨-, hst⟩ | ⟨-, hst⟩
  · rwa [heq]
  all_goals simp [hst]

theorem isSome_moved (h : Moved cfg s a s') (hsome : (s.db.status r).isSome = true) :
    (s'.db.status r).isSome = true := by
  cases h with
  | cmd => exact isSome_exec hsome
  | _ => exact hsome

/-- What is closed stays closed. -/
theorem closed_exec (h : (db.status r).isSome = true ∧ db.status r ≠ some .uploading) :
    ((c.exec cfg x db).1.status r).isSome = true ∧
      (c.exec cfg x db).1.status r ≠ some .uploading := by
  rcases exec_status cfg x db c r with heq | ⟨-, hnone, -⟩ | ⟨-, hst⟩ | ⟨-, hst⟩ | ⟨-, hst⟩
  · rwa [heq]
  · simp [hnone] at h
  all_goals simp [hst]

theorem closed_moved (h : Moved cfg s a s') (hclosed : Closed s r) : Closed s' r := by
  cases h with
  | cmd => exact closed_exec hclosed
  | _ => exact hclosed

theorem waker_closed {cs : List Cmd} (h : Moved cfg s a s') (hw : Waker s r cs) :
    Waker s' r cs := by
  cases hw with
  | quiet h' => exact .quiet h'
  | wake hc h' => exact .wake hc h'
  | put hc hc' hsome h' => exact .put hc hc' (isSome_moved h hsome) h'
  | late hc hclosed h' => exact .late hc (closed_moved h hclosed) h'

/-- What follows an idle command is idle, but for a segment to store and a pass to end. -/
theorem follows_idle {c' : Cmd} (h : Follows cfg db c c') (hc : c.idles r)
    (hput : ∀ seq a b, c ≠ .putSegmentRead r seq a b)
    (hdone : ∀ job, c = .completeJob job → job.recordingId = some r →
      job.kind ≠ .transcribeSegment) : c'.idles r := by
  have hinsert {r' : Uuid} {k : JobKind} {payload : Payload} {strict : Bool}
      (hk : k ≠ .transcribeSegment) : (Cmd.insertJob r' k payload strict).idles r :=
    ⟨fun hw => hk hw.2, id, by simp⟩
  have hother {c : Cmd} (hw : ¬ c.wakes r) (hst : ¬ c.stores r)
      (hsucc : c ≠ .succ r .transcribeSegment) : c.idles r := ⟨hw, hst, hsucc⟩
  cases h with
  | @content st st' hrec hst hsome =>
    refine hother id (fun hstore => ?_) (by simp)
    cases st' with
    | insertSegment => cases hsome
    | _ => exact hstore
  | segment =>
    refine hother id ?_ (by simp)
    rintro rfl
    exact hput _ _ _ rfl
  | live =>
    refine hother ?_ id (by simp)
    rintro ⟨rfl, -⟩
    exact hput _ _ _ rfl
  | @drain job r' hr hk =>
    refine hother ?_ id (by simp)
    rintro rfl
    exact hdone job rfl hr hk
  | @succ job r' y hr hy =>
    refine hother id id fun heq => ?_
    have hlive : y = .transcribeSegment := (Cmd.succ.inj heq).2
    rw [hlive] at hy
    cases hk : job.kind <;> simp [hk, JobKind.successors] at hy
  | @gate r' k =>
    refine hother (fun hw => ?_) id (by simp [enqueue])
    exact hc.2.2 (by rw [hw.1, hw.2])
  | recount => exact hother hc.1 id (by simp)
  | requeue => exact hother (fun hw => hc.1 hw.1) id (by simp [enqueue])
  | process | restart | redo | summarize | reembed | resummarize => exact hinsert (by simp)
  | _ => exact hother id id (by simp)

theorem waker_first {q : Request} : Waker s r [q.first] := by
  apply Waker.quiet
  intro c hc
  rw [List.mem_singleton.mp hc]
  cases q <;> exact ⟨id, id, by simp [Request.first]⟩

/-- A list of the drain is one after its first command, too. -/
theorem waker_next {cs : List Cmd} (hw : Waker s r (c :: rest))
    (hflow : (c.exec cfg x s.db).2 = .next cs) : Waker s r (cs ++ rest) := by
  generalize hlist : c :: rest = l at hw
  cases hw with
  | quiet h =>
    subst hlist
    have hc := h c List.mem_cons_self
    have hrest : ∀ c' ∈ rest, c'.idles r := fun c' hc' => h c' (List.mem_cons_of_mem _ hc')
    by_cases hput : ∃ seq a b, c = .putSegmentRead r seq a b
    · rcases hput with ⟨seq, a, b, rfl⟩
      simp only [Cmd.exec, fetched] at hflow
      split at hflow
      · cases hflow
      · rename_i st hst
        cases hflow
        by_cases huploading : st = .uploading
        · rw [if_pos huploading]
          refine .put rfl ⟨rfl, rfl⟩ (by simp [hst]) fun c' hc' => ?_
          rcases List.mem_cons.mp hc' with rfl | hc'
          · exact ⟨id, id, by simp⟩
          · exact hrest c' hc'
        · rw [if_neg huploading]
          refine .late rfl ⟨by simp [hst], by simpa [hst] using huploading⟩ fun c' hc' => ?_
          rcases List.mem_cons.mp hc' with rfl | hc'
          · exact ⟨id, id, by simp⟩
          · exact hrest c' hc'
    · by_cases hdone : ∃ job, c = .completeJob job ∧ job.recordingId = some r ∧
          job.kind = .transcribeSegment
      · rcases hdone with ⟨job, rfl, hr, hk⟩
        cases hflow
        rw [postSteps_live hr hk]
        exact .wake rfl hrest
      · apply Waker.quiet
        intro c' hc'
        rcases List.mem_append.mp hc' with hc' | hc'
        · apply follows_idle (exec_follows hflow hc') hc
          · exact fun seq a b heq => hput ⟨seq, a, b, heq⟩
          · exact fun job heq hr hk => hdone ⟨job, heq, hr, hk⟩
        · exact hrest c' hc'
  | wake hc h =>
    cases hlist
    cases c with
    | insertJob r' k payload strict =>
      apply Waker.quiet
      intro c' hc'
      rcases List.mem_append.mp hc' with hc' | hc'
      · cases exec_follows hflow hc' <;> exact ⟨id, id, by simp⟩
      · exact h c' hc'
    | liveRequeue r' | liveRequeueCount r' =>
      simp only [Cmd.exec] at hflow
      repeat' split at hflow
      all_goals cases hflow
      all_goals first
        | exact .quiet h
        | exact .wake hc h
        | exact .wake ⟨hc, rfl⟩ h
    | _ => exact hc.elim
  | put hc hc' _ h =>
    cases hlist
    cases c with
    | content st =>
      cases st with
      | insertSegment =>
        cases hflow
        exact .wake hc' h
      | _ => exact hc.elim
    | _ => exact hc.elim
  | late hc hclosed h =>
    cases hlist
    cases c with
    | content st =>
      cases st with
      | insertSegment =>
        cases hflow
        exact .quiet h
      | _ => exact hc.elim
    | _ => exact hc.elim

def Wakers (s : Sys) (r : Uuid) : Prop := ∀ i cs, s.procs i = .todo cs → Waker s r cs

theorem wakers_moved (hw : Wakers s r) (h : Moved cfg s a s') : Wakers s' r := by
  intro k cs hproc
  apply waker_closed h
  have hset {i : ℕ} {p : Proc} {s₁ : Sys} (hprocs : s₁.procs = s.procs)
      (hp : ∀ cs, p = .todo cs → Waker s r cs) (hk : (s₁.setProc i p).procs k = .todo cs) :
      Waker s r cs := by
    by_cases hki : k = i
    · rw [hki, Sys.setProc_self] at hk
      exact hp cs hk
    · rw [Sys.setProc_of_ne hki, hprocs] at hk
      exact hw k cs hk
  have hone {c : Cmd} (hc : c.idles r) : ∀ cs, Proc.todo [c] = .todo cs → Waker s r cs := by
    rintro cs ⟨⟩
    refine .quiet fun c' hc' => ?_
    rwa [List.mem_singleton.mp hc']
  cases h with
  | tick | heartbeat => exact hw k cs hproc
  | request q =>
    refine hset rfl ?_ hproc
    rintro cs ⟨⟩
    exact waker_first
  | reaper | stmtErr | bodyDone | stageErr | windowClosed =>
    exact hset rfl (hone ⟨id, id, by simp⟩) hproc
  | @claim i w kinds id j t =>
    exact hset (show (s.setJobs t).procs = s.procs from rfl) (by intro cs hcs; cases hcs) hproc
  | @stmt i job st body c sts =>
    have hprocs : ({ s with db := { s.db with content := c } } : Sys).procs = s.procs := rfl
    exact hset hprocs (by intro cs hcs; cases hcs) hproc
  | @stop i =>
    refine hset rfl ?_ hproc
    intro cs hcs
    cases hp : s.procs i <;> rw [hp] at hcs <;> cases hcs
  | @cmd i c rest x hproc' =>
    have hprocs : ({ s with db := (c.exec cfg x s.db).1 } : Sys).procs = s.procs := rfl
    refine hset hprocs ?_ hproc
    intro cs hcs
    cases hflow : (c.exec cfg x s.db).2 with
    | reply code => simp [hflow, advance] at hcs
    | abort => simp [hflow, advance] at hcs
    | next cs' =>
      rw [hflow] at hcs
      cases hcs
      exact waker_next (hw i _ hproc') hflow

/-! ## The drain -/

/-- While a recording uploads, something sees to each segment it has left. -/
structure Awake (s : Sys) (r : Uuid) : Prop where
  wakers : Wakers s r
  unborn : s.db.status r = none → ¬ Owing s.db.content r
  seen : s.db.status r = some .uploading → Owing s.db.content r →
    Live s r .transcribeSegment ∨ ∃ c, c.wakes r ∧ Pending false s c

/-- A segment is left that was not before only where a `PUT` stores it. -/
theorem owing_moved (hst : Staged s) (h : Moved cfg s a s') (howing : Owing s'.db.content r) :
    Owing s.db.content r ∨ ∃ i x c rest, a = .step i x ∧ s.procs i = .todo (c :: rest) ∧
      c.stores r ∧ (c.exec cfg x s.db).2 = .next [] := by
  cases h with
  | @stmt i job st body c sts x hproc hexec =>
    rcases owing_exec hexec howing with hold | ⟨seq, a, b, rfl⟩
    · exact .inl hold
    · cases (hst.body i job _ hproc _ List.mem_cons_self).2
  | @cmd i c rest x hproc =>
    cases c with
    | content st =>
      cases hexec : st.exec s.db.now s.db.status x s.db.content with
      | none =>
        simp only [Sys.setProc_db, Cmd.exec, hexec] at howing
        exact .inl howing
      | some y =>
        rcases y with ⟨c', sts⟩
        simp only [Sys.setProc_db, Cmd.exec, hexec] at howing
        rcases owing_exec hexec howing with hold | ⟨seq, a, b, rfl⟩
        · exact .inl hold
        · exact .inr ⟨i, x, _, rest, rfl, hproc, rfl, rfl⟩
    | _ =>
      left
      simp only [Sys.setProc_db, Cmd.exec, fetched] at howing
      repeat' split at howing
      all_goals exact howing
  | _ => exact .inl howing

theorem reset_status (cfg : Config) (x : Heard) (db : Db) (hc : c.resets r) :
    (c.exec cfg x db).1 = db ∨ (c.exec cfg x db).1.status r = some .processing := by
  cases c with
  | resetForReprocess r' =>
    cases hc
    simp only [Cmd.exec]
    split
    · exact .inr (by simp [Db.setStatus])
    · exact .inl rfl
  | resetForRediarize r' =>
    cases hc
    simp only [Cmd.exec]
    split
    · exact .inl rfl
    · split
      · exact .inr (by simp [Db.setStatus])
      · exact .inl rfl
  | _ => exact hc.elim

/-- The live job ends only where a pass completes, while the recording uploads. -/
theorem live_moved (hs : Snapshot s) (hok : Draining cfg r s a) (h : Moved cfg s a s')
    (hup : s'.db.status r = some .uploading) (hlive : Live s r .transcribeSegment) :
    Live s' r .transcribeSegment ∨ ∃ c, c.wakes r ∧ Pending false s' c := by
  rcases moved_live hs h hlive with hkept | ⟨i, x, c, rest, rfl, hproc, hends⟩
  · exact .inl hkept
  · obtain rfl := next_of_todo h hproc
    cases hends with
    | @complete job hr hk =>
      right
      refine ⟨.liveRequeue r, rfl, i, ?_⟩
      rw [Sys.setProc_self]
      simp only [Cmd.exec, postSteps_live hr hk]
      exact List.mem_cons_self
    | @park job error n hr hk hn => exact absurd (hok.1 job error n rest hproc hr hk) (by omega)
    | @reap row hrow hr hk hstuck hex =>
      have hno := hok.2 rest hproc row hrow hr hk hstuck
      simp [hex] at hno
    | reset hreset =>
      rcases reset_status cfg x s.db hreset with heq | hst
      · left
        rw [Live, Sys.setProc_db]
        change (c.exec cfg x s.db).1.jobs.has r _ _ = true
        rw [heq]
        exact hlive
      · rw [Sys.setProc_db] at hup
        cases hst.symm.trans hup

/-- A command that wakes hands on to the next, or leaves a live job. -/
theorem wakes_executed (hc : c.wakes r) (hup : s.db.status r = some .uploading)
    (howing : Owing s.db.content r) :
    Live (s.after cfg x i c rest) r .transcribeSegment ∨
      ∃ c', c'.wakes r ∧ Pending false (s.after cfg x i c rest) c' := by
  have hpending (c' : Cmd) (hc' : c'.wakes r)
      (hflow : (c.exec cfg x s.db).2 = .next [c']) :
      ∃ c', c'.wakes r ∧ Pending false (s.after cfg x i c rest) c' := by
    refine ⟨c', hc', i, ?_⟩
    rw [after_procs_self, hflow]
    exact List.mem_cons_self
  cases c with
  | insertJob r' k payload strict =>
    left
    obtain ⟨rfl, rfl⟩ := hc
    rcases exec_insertJob cfg x .transcribeSegment payload strict
      (by rw [hup]; rfl : (s.db.status r').isSome = true) with ⟨cs, hexec⟩
    have hins : JobsFrame r' s.db.jobs
        (s.db.jobs.insert s.db.now r' .transcribeSegment payload 0).2 (fun _ => False) ∧ _ :=
      jobsFrame_insert
    rw [Live, after_db, hexec]
    exact hins.2
  | liveRequeue r' =>
    have hr : r' = r := hc
    right
    apply hpending (.liveRequeueCount r') hc
    simp [Cmd.exec, hr, hup]
  | liveRequeueCount r' =>
    have hr : r' = r := hc
    right
    apply hpending (enqueue r' .transcribeSegment {}) ⟨hc, rfl⟩
    rw [← hr] at howing
    simp [Cmd.exec, owing_iff.mp howing]
  | _ => exact hc.elim

/-- Something sees to the segment before the step, and so after it. -/
theorem seen_moved (hs : Snapshot s) (hawake : Awake s r) (hok : Draining cfg r s a)
    (h : Moved cfg s a s') (hup : s.db.status r = some .uploading)
    (hup' : s'.db.status r = some .uploading) (howing : Owing s.db.content r) :
    Live s' r .transcribeSegment ∨ ∃ c, c.wakes r ∧ Pending false s' c := by
  rcases hawake.seen hup howing with hlive | ⟨c, hc, hpend⟩
  · exact live_moved hs hok h hup' hlive
  · rcases moved_pending h hpend with hkept | ⟨i, x, c', rest, rfl, hproc, hout⟩ | ⟨i, rfl, hmem⟩
    · exact .inr ⟨c, hc, hkept⟩
    · rcases hout with rfl | ⟨hmem, hflow⟩
      · obtain rfl := next_of_todo h hproc
        exact wakes_executed hc hup howing
      -- what comes before a command that wakes is a segment to store, and that goes on
      · generalize hlist : c' :: rest = l at hproc
        cases hawake.wakers i l hproc with
        | quiet hq =>
          rw [← hlist] at hq
          exact absurd hc (hq c (List.mem_cons_of_mem _ hmem)).1
        | wake _ hq | late _ _ hq =>
          cases hlist
          exact absurd hc (hq c hmem).1
        | put hst _ _ _ =>
          cases hlist
          cases c' with
          | content st =>
            cases st with
            | insertSegment => exact absurd rfl (hflow [])
            | _ => exact hst.elim
          | _ => exact hst.elim
    · exact absurd hc (hok c hmem)

/-- A segment is stored for a known recording, with a command that wakes next in line
unless the recording is closed. -/
theorem stores_next (hw : Waker s r (c :: rest)) (hc : c.stores r) :
    (s.db.status r).isSome = true ∧ ((∃ c' ∈ rest, c'.wakes r) ∨ Closed s r) := by
  generalize hlist : c :: rest = l at hw
  cases hw with
  | quiet hq =>
    rw [← hlist] at hq
    exact absurd hc (hq c List.mem_cons_self).2.1
  | wake hwakes _ =>
    cases hlist
    cases c <;> first | exact hwakes.elim | exact hc.elim
  | put _ hwakes hsome _ =>
    cases hlist
    exact ⟨hsome, .inl ⟨_, List.mem_cons_self, hwakes⟩⟩
  | late _ hclosed _ =>
    cases hlist
    exact ⟨hclosed.1, .inr hclosed⟩

theorem awake_moved (hs : Snapshot s) (hst : Staged s) (hawake : Awake s r)
    (hok : Draining cfg r s a) (h : Moved cfg s a s') : Awake s' r := by
  have hunborn (hbefore : s.db.status r = none) : ¬ Owing s'.db.content r := by
    intro howing
    rcases owing_moved hst h howing with hold | ⟨i, x, c, rest, -, hproc, hstore, -⟩
    · exact hawake.unborn hbefore hold
    · have hsome := (stores_next (hawake.wakers i _ hproc) hstore).1
      simp [hbefore] at hsome
  constructor
  · exact wakers_moved hawake.wakers h
  · intro hnone
    apply hunborn
    by_contra hsome
    have hsome' := isSome_moved h (Option.isSome_iff_ne_none.mpr hsome)
    simp [hnone] at hsome'
  · intro hup' howing
    have hup : s.db.status r = some .uploading := by
      by_contra hup
      by_cases hnone : s.db.status r = none
      · exact hunborn hnone howing
      · exact (closed_moved h ⟨Option.isSome_iff_ne_none.mpr hnone, hup⟩).2 hup'
    rcases owing_moved hst h howing with hold | ⟨i, x, c, rest, rfl, hproc, hstore, hflow⟩
    · exact seen_moved hs hawake hok h hup hup' hold
    · rcases (stores_next (hawake.wakers i _ hproc) hstore).2 with ⟨c', hmem, hwakes⟩ | hclosed
      · refine .inr ⟨c', hwakes, i, ?_⟩
        obtain rfl := next_of_todo h hproc
        rw [Sys.setProc_self, hflow]
        exact hmem
      · exact absurd hup hclosed.2

theorem awake_start : Awake Sys.start r where
  wakers _ _ h := nomatch h
  unborn _ := fun ⟨_, h, _⟩ => nomatch h
  seen h := nomatch h

theorem awake_run {tr : List Label} (h : Run (step cfg) (Draining cfg r) Sys.start tr s) :
    Snapshot s ∧ Staged s ∧ Awake s r := by
  apply h.invariant (I := fun s => Snapshot s ∧ Staged s ∧ Awake s r)
  · exact ⟨snapshot_start, staged_start, awake_start⟩
  · rintro s a s' ⟨hs, hst, hawake⟩ hok hstep
    have hmoved := step_moved hstep
    exact ⟨snapshot_moved hs hmoved, staged_moved hst hmoved, awake_moved hs hst hawake hok hmoved⟩

/-- No live job, no `PUT` between its two steps and no worker in its post-completion steps. -/
structure Drained (s : Sys) (r : Uuid) : Prop where
  live : ¬ Live s r .transcribeSegment
  wakes : ∀ c, c.wakes r → ¬ Pending false s c

/-- In every run in which no live job is given up and no process stops between its two
steps, a recording that still uploads and has nothing more to do has all its segments
transcribed. -/
theorem transcribed_of_drained {tr : List Label}
    (h : Run (step cfg) (Draining cfg r) Sys.start tr s)
    (hup : s.db.status r = some .uploading) (hdrained : Drained s r) :
    ∀ g ∈ s.db.content.segments, g.recordingId = r → g.transcribedAt.isSome = true := by
  intro g hg hr
  by_contra hnone
  have howing : Owing s.db.content r := ⟨g, hg, hr, by simpa using hnone⟩
  rcases (awake_run h).2.2.seen hup howing with hlive | ⟨c, hc, hpend⟩
  · exact hdrained.live hlive
  · exact hdrained.wakes c hc hpend

/-- The second segment arrives while a pass over the first is under way; the pass
re-enqueues itself for it. -/
def drainRun : List Label :=
  [Label.request 0 (.create 7)] ++ steps 0 1 ++ [Label.request 1 (.putSegment 7 0 none none)] ++ steps 1 4 ++
  [Label.claim 2 1 [.transcribeSegment] 1] ++ steps 2 3 ++
  [Label.request 3 (.putSegment 7 1 none none)] ++ steps 3 5 ++ steps 2 8 ++
  [Label.claim 4 1 [.transcribeSegment] 3] ++ steps 4 10

def drains (s : Sys) : Label → Bool
  | .stop _ => false
  | .step i _ =>
    match s.procs i with
    | .todo (.failUpdate _ _ _ :: _) | .todo (.reapStuck :: _) => false
    | _ => true
  | _ => true

theorem draining_of_drains (h : drains s a = true) : Draining {} r s a := by
  cases a with
  | step i x =>
    constructor
    · intro job error n rest hproc
      simp [drains, hproc] at h
    · intro rest hproc
      simp [drains, hproc] at h
  | stop i => cases h
  | _ => trivial

def drainedState : Sys :=
  (exec (guarded (step {}) drains) Sys.start drainRun).get (by decide +kernel)

theorem pending_drainedState (i : ℕ) : (drainedState.procs i).pending false = [] := by
  match i with
  | 0 | 1 | 2 | 3 | 4 => decide +kernel
  | n + 5 => rfl

theorem drained_drainedState : Drained drainedState 7 := by
  constructor
  · have hlive : drainedState.db.jobs.has 7 .transcribeSegment Job.isLive = false := by
      decide +kernel
    rw [Live, hlive]
    exact Bool.false_ne_true
  · rintro c - ⟨i, hc⟩
    rw [pending_drainedState i] at hc
    cases hc

theorem transcribed_of_drained_drainedState :
    drainedState.db.content.segments.length = 2 ∧
      ∀ g ∈ drainedState.db.content.segments, g.recordingId = 7 → g.transcribedAt.isSome = true :=
  ⟨by decide +kernel, transcribed_of_drained (run_of_guarded _ fun _ _ => draining_of_drains)
    (by decide +kernel) drained_drainedState⟩

end ScribeLocal.Server
