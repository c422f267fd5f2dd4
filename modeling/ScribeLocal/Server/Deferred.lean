import ScribeLocal.Schedule.Policy
import ScribeLocal.Server.Moves

/-!
# Jobs that a closed window put back

A job goes back with the delay its worker read off the schedule. Until it has run out no
worker can claim the job, whatever the schedule says by then.
-/
namespace ScribeLocal.Server
open Table Jobs Transition Schedule

variable {cfg : Config} {s s' : Sys} {a : Label} {c : Cmd} {x : Heard} {db : Db} {t t' : Jobs}

/-- When each job was last put back, and for how long, if that is how it last came back to the
queue. -/
abbrev PutBack := JobId → Option (Time × Time)

variable {b b' : PutBack}

/-- What a statement means for it. -/
def PutBack.exec (cfg : Config) (db : Db) (b : PutBack) : Cmd → PutBack
  | .deferJob job delay =>
    if (db.jobs.row job.id).isSome ∧ (db.jobs.defer db.now job.id windowClosed delay).isSome then
      Function.update b job.id (some (db.now, delay))
    else b
  | .failUpdate job error n =>
    if (db.jobs.failWrite db.now job.id error n cfg.maxAttempts cfg.backoff).isSome then
      Function.update b job.id none
    else b
  | .reapStuck => fun id =>
    if (db.jobs.row id).any (stuck db.now cfg.lease) then none else b id
  | _ => b

def PutBack.note (cfg : Config) (s : Sys) (a : Label) (b : PutBack) : PutBack :=
  match a with
  | .step i _ =>
    match s.procs i with
    | .todo (c :: _) => b.exec cfg s.db c
    | _ => b
  | _ => b

/-- A worker puts a job back only when the schedule it reads is closed, and for as long as that
schedule says. -/
def ByTheSchedule (p : Sys × PutBack) : Label → Prop
  | .windowClosed _ delay => ∃ (sched : ProcessingSchedule) (nowLocal : ℤ),
    (sched.decide nowLocal p.1.db.now).allowed = false ∧
      delay = retryDelay (sched.decide nowLocal p.1.db.now)
  | _ => True

/-! ## What a row waits for -/

/-- A row that was put back waits until its delay has run out. -/
structure Waiting (b : PutBack) (t : Jobs) : Prop where
  runAfter : ∀ row ∈ t.rows, ∀ v, b row.id = some v → row.runAfter = v.1 + v.2
  fresh : ∀ id, t.nextId ≤ id → b id = none

theorem waiting_mono (h : Waiting b t) (hle : ∀ id v, b' id = some v → b id = some v) :
    Waiting b' t where
  runAfter row hrow v hv := h.runAfter row hrow v (hle _ v hv)
  fresh id hid := by
    by_contra hsome
    rcases Option.ne_none_iff_exists'.mp hsome with ⟨v, hv⟩
    have hb := hle id v hv
    rw [h.fresh id hid] at hb
    cases hb

theorem waiting_update {p : Job → Bool} {f : Job → Job} (h : Waiting b t) (hf : Keeps f)
    (hkeep : ∀ j, (f j).runAfter = j.runAfter) (hrows : t'.rows = updateWhere p f t.rows)
    (hnext : t'.nextId = t.nextId) : Waiting b t' where
  runAfter row hrow v hv := by
    rw [hrows] at hrow
    rcases mem_updateWhere.mp hrow with ⟨old, hold, rfl⟩
    rw [column_updateRow hf.id] at hv
    rw [column_updateRow hkeep]
    exact h.runAfter old hold v hv
  fresh id hid := h.fresh id (hnext ▸ hid)

theorem waiting_delete {p : Job → Bool} (h : Waiting b t) : Waiting b (t.delete p) where
  runAfter row hrow := h.runAfter row (mem_deleteWhere.mp hrow).1
  fresh id hid := h.fresh id hid

theorem waiting_insert {now : Time} {r : Uuid} {k : JobKind} {payload : Payload} {priority : ℤ}
    (h : Waiting b t) : Waiting b (t.insert now r k payload priority).2 := by
  unfold Jobs.insert
  split
  · exact ⟨h.runAfter, fun id hid => h.fresh id (Nat.le_of_succ_le hid)⟩
  · refine ⟨fun row hrow v hv => ?_, fun id hid => h.fresh id (Nat.le_of_succ_le hid)⟩
    rcases List.mem_append.mp hrow with hold | hnew
    · exact h.runAfter row hold v hv
    · rw [List.mem_singleton.mp hnew] at hv
      have hnone : b (newJob now t.nextId r k payload priority).id = none := h.fresh _ le_rfl
      rw [hnone] at hv
      cases hv

/-- The row `id` is rewritten, and so is what is known of it. -/
theorem waiting_rewrite {id : JobId} {f : Job → Job} {o : Option (Time × Time)} (h : Waiting b t)
    (hf : Keeps f) (ho : ∀ j v, o = some v → (f j).runAfter = v.1 + v.2)
    (hknown : o ≠ none → id < t.nextId)
    (hrows : t'.rows = updateWhere (fun j => j.id == id) f t.rows) (hnext : t'.nextId = t.nextId) :
    Waiting (Function.update b id o) t' where
  runAfter row hrow v hv := by
    rw [hrows] at hrow
    rcases mem_updateWhere.mp hrow with ⟨old, hold, rfl⟩
    rw [column_updateRow hf.id] at hv
    by_cases hid : old.id = id
    · rw [hid, Function.update_self] at hv
      rw [updateRow_of_pos (by simpa using hid)]
      exact ho old v hv
    · rw [Function.update_of_ne hid] at hv
      rw [updateRow_of_neg (by simpa using hid)]
      exact h.runAfter old hold v hv
  fresh id' hid := by
    rw [hnext] at hid
    by_cases heq : id' = id
    · rw [heq, Function.update_self]
      by_contra hsome
      exact Nat.not_lt.mpr hid (heq ▸ hknown hsome)
    · rw [Function.update_of_ne heq]
      exact h.fresh id' hid

theorem waiting_exec (h : Waiting b db.jobs) : Waiting (b.exec cfg db c) (c.exec cfg x db).1.jobs := by
  cases c with
  | deferJob job delay =>
    simp only [Cmd.exec, PutBack.exec]
    cases hdefer : db.jobs.defer db.now job.id windowClosed delay with
    | none => simpa using h
    | some t' =>
      have hrows := tryUpdate_rows hdefer
      cases hrow : db.jobs.row job.id with
      | none =>
        -- nothing to put back: the statement finds no row
        have hnone : ∀ j ∈ db.jobs.rows, (j.id == job.id) = false := by
          simpa [Jobs.row, List.find?_eq_none] using hrow
        simp only [Option.isSome_none, Bool.false_eq_true, false_and, if_false]
        refine ⟨?_, fun id hid => h.fresh id (hrows.2 ▸ hid)⟩
        rw [hrows.1, updateWhere_of_forall_neg hnone]
        exact h.runAfter
      | some j =>
        have hlt : job.id < db.jobs.nextId := by
          have hj := row_eq_some.mp hrow
          exact hj.2 ▸ db.jobs.id_lt j hj.1
        simp only [Option.isSome_some, and_self, if_true]
        refine waiting_rewrite h keeps_deferred ?_ (fun _ => hlt) hrows.1 hrows.2
        rintro j v ⟨rfl⟩
        rfl
  | failUpdate job error n =>
    simp only [Cmd.exec, PutBack.exec]
    cases hwrite : db.jobs.failWrite db.now job.id error n cfg.maxAttempts cfg.backoff with
    | none => simpa using h
    | some p =>
      rcases p with ⟨requeued, t'⟩
      have hrows := failWrite_eq_some hwrite
      have hw : Waiting (Function.update b job.id none) t' :=
        waiting_rewrite h keeps_failed (by rintro _ _ ⟨⟩) (fun hne => absurd rfl hne) hrows.2.2 hrows.2.1
      cases requeued <;> simpa using hw
  | reapStuck =>
    have hw : Waiting b (db.jobs.reapStuck db.now cfg.lease cfg.maxAttempts) :=
      waiting_update h keeps_reaped (fun _ => rfl) rfl rfl
    apply waiting_mono hw
    intro id v hv
    simp only [PutBack.exec] at hv
    split at hv
    · cases hv
    · exact hv
  | insertJob r k payload strict =>
    simp only [Cmd.exec, PutBack.exec]
    split
    · exact h
    · have hins : Waiting _ (db.jobs.insert db.now r k payload 0).2 := waiting_insert h
      rcases hp : db.jobs.insert db.now r k payload 0 with ⟨_ | j, t⟩ <;> rw [hp] at hins <;> exact hins
  | completeJob job => exact waiting_update h keeps_completed (fun _ => rfl) rfl rfl
  | _ =>
    simp only [Cmd.exec, PutBack.exec, fetched]
    repeat' split
    all_goals first | exact h | exact waiting_delete h

theorem waiting_moved (h : Waiting b s.db.jobs) (hmoved : Moved cfg s a s') :
    Waiting (b.note cfg s a) s'.db.jobs := by
  cases hmoved with
  | cmd x hproc =>
    simp only [PutBack.note, hproc]
    exact waiting_exec h
  | @claim i w kinds id j t hidle hclaim =>
    unfold claimOne at hclaim
    split at hclaim
    · cases hclaim
    · split at hclaim
      · cases hclaim
        exact waiting_update h keeps_claimed (fun _ => rfl) rfl rfl
      · cases hclaim
  | heartbeat => exact waiting_update h keeps_renewed (fun _ => rfl) rfl rfl
  | stmt _ hproc | stmtErr _ hproc | bodyDone _ hproc =>
    simp only [PutBack.note, hproc]
    exact h
  | _ => exact h

theorem waiting_start : Waiting (fun _ => none) Sys.start.db.jobs where
  runAfter _ hrow := nomatch hrow
  fresh _ _ := rfl

/-! ## Delays are a minute at least -/

/-- Every delay there is. -/
structure Delays (b : PutBack) (s : Sys) : Prop where
  todo : ∀ i cs, s.procs i = .todo cs → ∀ c ∈ cs, ∀ job delay, c = .deferJob job delay →
    minDefer ≤ delay
  noted : ∀ id v, b id = some v → minDefer ≤ v.2

/-- What is known of a row was known before, or it has just been put back. -/
theorem exec_putBack {id : JobId} {v : Time × Time} (h : b.exec cfg db c id = some v) :
    b id = some v ∨ ∃ job delay, c = .deferJob job delay ∧ v = (db.now, delay) := by
  cases c with
  | deferJob job delay =>
    simp only [PutBack.exec] at h
    split at h
    · by_cases hid : id = job.id
      · rw [hid, Function.update_self] at h
        exact .inr ⟨job, delay, rfl, (Option.some.inj h).symm⟩
      · rw [Function.update_of_ne hid] at h
        exact .inl h
    · exact .inl h
  | failUpdate job error n =>
    simp only [PutBack.exec] at h
    split at h
    · by_cases hid : id = job.id
      · rw [hid, Function.update_self] at h
        cases h
      · rw [Function.update_of_ne hid] at h
        exact .inl h
    · exact .inl h
  | reapStuck =>
    simp only [PutBack.exec] at h
    split at h
    · cases h
    · exact .inl h
  | _ => exact .inl h

theorem delays_moved (h : Delays b s) (hok : ByTheSchedule (s, b) a) (hmoved : Moved cfg s a s') :
    Delays (b.note cfg s a) s' where
  todo := by
    apply moved_todo_told (P := fun _ c => ∀ job delay, c = .deferJob job delay → minDefer ≤ delay)
      hmoved h.todo
    · rintro i x c rest c' _ hproc hfollow job delay rfl
      cases hfollow
    · intro i q _ job delay heq
      cases q <;> cases heq
    · exact fun _ _ _ => nofun
    · exact fun _ _ _ _ => nofun
    · exact fun _ _ _ _ _ _ _ _ => nofun
    · rintro i job body delay rfl hproc job' delay' ⟨rfl⟩
      rcases hok with ⟨sched, nowLocal, -, hdelay⟩
      rw [hdelay]
      exact minDefer_le_retryDelay _
  noted id v hv := by
    have hsame (heq : b.note cfg s a = b) : minDefer ≤ v.2 := h.noted id v (heq ▸ hv)
    cases hmoved with
    | @cmd i c rest x hproc =>
      simp only [PutBack.note, hproc] at hv
      rcases exec_putBack hv with hold | ⟨job, delay, rfl, rfl⟩
      · exact h.noted id v hold
      · exact h.todo i _ hproc _ List.mem_cons_self job delay rfl
    | stmt _ hproc | stmtErr _ hproc | bodyDone _ hproc =>
      exact hsame (by simp only [PutBack.note, hproc])
    | _ => exact hsame rfl

theorem delays_start : Delays (fun _ => none) Sys.start where
  todo _ _ hproc := nomatch hproc
  noted _ _ hv := nomatch hv

/-! ## Process now -/

theorem claimableKinds_run {sched : ProcessingSchedule} {o : ScheduleOverride}
    (hover : sched.activeOverride = some o) (hrun : o.mode = .run) {now : Time}
    (hlive : now < o.expires) (configured : List JobKind) (nowLocal : ℤ) :
    claimableKinds configured (sched.decide nowLocal now) = configured := by
  have hall : (sched.decide nowLocal now).allowed = true := by
    rw [ProcessingSchedule.decide, live_eq_some.mpr ⟨hover, hlive⟩]
    simpa using hrun
  rw [claimableKinds, if_pos hall]

/-- While the user asks for processing now, a job that a closed window put back can be claimed
exactly when the delay of a minute or more that it was put back with has run out. -/
theorem claimCandidate_iff_delayOver {tr : List Label} {p : Sys × PutBack}
    (h : Run (withNotes (step cfg) (PutBack.note cfg)) ByTheSchedule (Sys.start, fun _ => none) tr p)
    {row : Job} (hrow : row ∈ p.1.db.jobs.rows) (hqueued : row.state = .queued) {v : Time × Time}
    (hback : p.2 row.id = some v) {sched : ProcessingSchedule} {o : ScheduleOverride}
    (hover : sched.activeOverride = some o) (hrun : o.mode = .run)
    (hlive : p.1.db.now < o.expires) (nowLocal : ℤ) {configured : List JobKind}
    (hkind : row.kind ∈ configured) :
    minDefer ≤ v.2 ∧ (claimCandidate p.1.db.now
      (claimableKinds configured (sched.decide nowLocal p.1.db.now)) row = true ↔
        v.1 + v.2 ≤ p.1.db.now) := by
  have hinv : Waiting p.2 p.1.db.jobs ∧ Delays p.2 p.1 := by
    refine h.invariant (I := fun p => Waiting p.2 p.1.db.jobs ∧ Delays p.2 p.1) ?_ ?_
    · exact ⟨waiting_start, delays_start⟩
    · rintro p a p' ⟨hw, hd⟩ hok hs
      rcases withNotes_eq_some.mp hs with ⟨hstep, hnote⟩
      rw [hnote]
      exact ⟨waiting_moved hw (step_moved hstep), delays_moved hd hok (step_moved hstep)⟩
  refine ⟨hinv.2.noted _ v hback, ?_⟩
  rw [claimableKinds_run hover hrun hlive, claimCandidate, hinv.1.runAfter row hrow v hback]
  simp [hqueued, hkind]

/-- Nine to five from Monday to Friday. -/
def officeHours : ProcessingSchedule := { ProcessingSchedule.default with enabled := true }

/-- The worker reads the office hours, and its wall clock shows UTC. -/
def byOfficeHours (p : Sys × PutBack) : Label → Bool
  | .windowClosed _ delay =>
    !(officeHours.decide p.1.db.now p.1.db.now).allowed &&
      delay == retryDelay (officeHours.decide p.1.db.now p.1.db.now)
  | _ => true

theorem byTheSchedule_of_officeHours {p : Sys × PutBack} (h : byOfficeHours p a = true) :
    ByTheSchedule p a := by
  cases a with
  | windowClosed i delay =>
    simp only [byOfficeHours, Bool.and_eq_true, Bool.not_eq_true', beq_iff_eq] at h
    exact ⟨officeHours, _, h⟩
  | _ => trivial

/-- The transcode job of recording 7 is put back on a Monday at ten past five, and after a while
the user asks for processing now. -/
def processNowRun (wait : Time) : List Label :=
  [.tick (4 * day + 1030 * minute), .request 0 (.create 7)] ++ steps 0 1 ++
  [.request 1 (.complete 7 none none)] ++ steps 1 4 ++
  [.claim 2 1 [.transcode] 1, .windowClosed 2 (950 * minute)] ++ steps 2 1 ++ [.tick wait]

/-- Asked for at `now`, for an hour. -/
def processNow (now : Time) : ProcessingSchedule :=
  { officeHours with activeOverride := some ⟨.run, now + 60 * minute⟩ }

/-- Ten minutes after the job was put back no worker can claim it, whatever its kinds. -/
theorem not_claimable_processNow : ∃ p,
    Run (withNotes (step {}) (PutBack.note {})) ByTheSchedule (Sys.start, fun _ => none)
        (processNowRun (10 * minute)) p ∧
      ∃ row ∈ p.1.db.jobs.rows, row.state = .queued ∧ (p.2 row.id).isSome = true ∧
        row.kind ∈ JobKind.all ∧
        claimCandidate p.1.db.now (claimableKinds JobKind.all
          ((processNow p.1.db.now).decide p.1.db.now p.1.db.now)) row = false := by
  refine ⟨_, run_of_guarded (b := byOfficeHours) (by decide +kernel)
    fun _ _ => byTheSchedule_of_officeHours, ?_⟩
  decide +kernel

/-- Sixteen hours after, any can. -/
theorem claimCandidate_iff_delayOver_processNow : ∃ (p : Sys × PutBack) (row : Job) (v : Time × Time),
    claimCandidate p.1.db.now [.transcode] row = true ∧
      minDefer ≤ v.2 ∧ (claimCandidate p.1.db.now (claimableKinds [.transcode]
        ((processNow p.1.db.now).decide p.1.db.now p.1.db.now)) row = true ↔
          v.1 + v.2 ≤ p.1.db.now) := by
  have hany : (exec (guarded (withNotes (step {}) (PutBack.note {})) byOfficeHours)
      (Sys.start, fun _ => none) (processNowRun (960 * minute))).any (fun p =>
        p.1.db.jobs.rows.any fun row => row.state == .queued && row.kind == .transcode &&
          (p.2 row.id).isSome && claimCandidate p.1.db.now [.transcode] row) = true := by
    decide +kernel
  rcases (Option.any_eq_true _ _).mp hany with ⟨p, hp, hrows⟩
  rcases List.any_eq_true.mp hrows with ⟨row, hmem, hrow⟩
  simp only [Bool.and_eq_true, beq_iff_eq] at hrow
  rcases hrow with ⟨⟨⟨hqueued, hkind⟩, hsome⟩, hcan⟩
  rcases Option.isSome_iff_exists.mp hsome with ⟨v, hv⟩
  have hrun : Run (withNotes (step {}) (PutBack.note {})) ByTheSchedule (Sys.start, fun _ => none)
      (processNowRun (960 * minute)) p :=
    (run_of_exec hp).of_guarded fun _ _ => byTheSchedule_of_officeHours
  exact ⟨p, row, v, hcan, claimCandidate_iff_delayOver hrun hmem hqueued hv rfl rfl
    (Nat.lt_add_of_pos_right (by decide)) _ (hkind ▸ List.mem_singleton_self _)⟩

end ScribeLocal.Server
