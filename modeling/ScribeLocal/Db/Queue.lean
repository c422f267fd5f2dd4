import ScribeLocal.Core.Types
import ScribeLocal.Table

/-!
# The work queue: one definition for each SQL statement

`Jobs` is the `jobs` table with the constraints the schema declares: the serial
primary key and the partial unique index over live rows. A statement that would
break the index is refused, as Postgres refuses it.
-/
namespace ScribeLocal
open Table

/-- The `jobs` table. -/
structure Jobs where
  rows : List Job
  nextId : JobId
  id_lt : ∀ j ∈ rows, j.id < nextId
  id_nodup : (rows.map Job.id).Nodup
  live_unique : rows.Pairwise fun a b => ¬ a.Collides b

namespace Jobs

def empty : Jobs where
  rows := []
  nextId := 1
  id_lt := by simp
  id_nodup := by simp
  live_unique := by simp

/-- The row with this id. -/
def row (t : Jobs) (id : JobId) : Option Job := t.rows.find? fun j => j.id == id

/-- Some row of recording `r` and kind `k` is in a state `p` accepts. -/
def has (t : Jobs) (r : Uuid) (k : JobKind) (p : Job → Bool) : Bool :=
  t.rows.any fun j => j.isOf r k && p j

/-- An assignment that leaves the key columns alone. -/
structure Keeps (f : Job → Job) : Prop where
  id : ∀ j, (f j).id = j.id
  recordingId : ∀ j, (f j).recordingId = j.recordingId
  kind : ∀ j, (f j).kind = j.kind

/-- An update that makes no row live that was not live before. -/
def update (t : Jobs) (p : Job → Bool) (f : Job → Job) (hf : Keeps f)
    (hlive : ∀ j, p j = true → (f j).isLive = true → j.isLive = true) : Jobs where
  rows := updateWhere p f t.rows
  nextId := t.nextId
  id_lt := by
    intro j hj
    obtain ⟨j₀, hj₀, rfl⟩ := mem_updateWhere.mp hj
    rw [column_updateRow hf.id]
    exact t.id_lt j₀ hj₀
  id_nodup := by rw [column_updateWhere hf.id]; exact t.id_nodup
  live_unique := by
    have hback (j : Job) (h : (updateRow p f j).isLive = true) : j.isLive = true := by
      cases hp : p j with
      | true => exact hlive j hp (by rwa [updateRow_of_pos hp] at h)
      | false => rwa [updateRow_of_neg hp] at h
    refine pairwise_updateWhere t.live_unique fun a _ b _ hab hcol => hab ?_
    obtain ⟨ha, hb, hk, r, har, hbr⟩ := hcol
    rw [column_updateRow hf.kind, column_updateRow hf.kind] at hk
    rw [column_updateRow hf.recordingId] at har hbr
    exact ⟨hback a ha, hback b hb, hk, r, har, hbr⟩

/-- An update the unique index may refuse. -/
def tryUpdate (t : Jobs) (p : Job → Bool) (f : Job → Job) (hf : Keeps f) : Option Jobs :=
  if h : (updateWhere p f t.rows).Pairwise fun a b => ¬ a.Collides b then
    some
      { rows := updateWhere p f t.rows
        nextId := t.nextId
        id_lt := by
          intro j hj
          obtain ⟨j₀, hj₀, rfl⟩ := mem_updateWhere.mp hj
          rw [column_updateRow hf.id]
          exact t.id_lt j₀ hj₀
        id_nodup := by rw [column_updateWhere hf.id]; exact t.id_nodup
        live_unique := h }
  else none

def delete (t : Jobs) (p : Job → Bool) : Jobs where
  rows := deleteWhere p t.rows
  nextId := t.nextId
  id_lt j hj := t.id_lt j (mem_deleteWhere.mp hj).1
  id_nodup := nodup_column_deleteWhere t.id_nodup
  live_unique := t.live_unique.sublist List.filter_sublist

end Jobs

/-- A job the reaper took back from a worker that stopped renewing its lease. -/
structure ReapedJob where
  id : JobId
  recordingId : Option Uuid
  exhausted : Bool
  deriving DecidableEq, Repr

/-! ## The statements -/

namespace Jobs

/-- The row a fresh `INSERT` writes, with the column defaults. -/
def newJob (now : Time) (id : JobId) (r : Uuid) (k : JobKind) (payload : Payload)
    (priority : ℤ) : Job where
  id := id
  recordingId := some r
  kind := k
  state := .queued
  priority := priority
  attempts := 0
  runAfter := now
  lockedBy := none
  lockedAt := none
  payload := payload
  error := none
  createdAt := now
  updatedAt := now

/-- `INSERT … ON CONFLICT DO NOTHING RETURNING`: the new row, or none when a live
job of the recording and kind exists. The sequence moves on either way. -/
def insert (now : Time) (r : Uuid) (k : JobKind) (payload : Payload) (priority : ℤ)
    (t : Jobs) : Option Job × Jobs :=
  if h : t.has r k Job.isLive = true then
    (none,
      { t with nextId := t.nextId + 1, id_lt := fun j hj => Nat.lt_succ_of_lt (t.id_lt j hj) })
  else
    (some (newJob now t.nextId r k payload priority),
      { rows := t.rows ++ [newJob now t.nextId r k payload priority]
        nextId := t.nextId + 1
        id_lt := by
          intro j hj
          rcases List.mem_append.mp hj with hj | hj
          · exact Nat.lt_succ_of_lt (t.id_lt j hj)
          · rw [List.mem_singleton.mp hj]; exact Nat.lt_succ_self _
        id_nodup := by
          rw [List.map_append, List.nodup_append]
          refine ⟨t.id_nodup, by simp, ?_⟩
          intro a ha b hb hab
          obtain ⟨j, hj, rfl⟩ := List.mem_map.mp ha
          have hnew : b = t.nextId := by simpa [newJob] using hb
          exact Nat.lt_irrefl _ ((hab.trans hnew) ▸ t.id_lt j hj)
        live_unique := by
          rw [List.pairwise_append]
          refine ⟨t.live_unique, List.pairwise_singleton _ _, ?_⟩
          intro a ha b hb hcol
          rw [List.mem_singleton.mp hb] at hcol
          obtain ⟨hla, -, hk, r', har, hbr⟩ := hcol
          obtain rfl : r = r' := by simpa [newJob] using hbr
          refine h (List.any_eq_true.mpr ⟨a, ha, ?_⟩)
          simp [Job.isOf, har, hk, hla, newJob] })

/-- The `SELECT` of the live job that an insert met. -/
def liveJob (t : Jobs) (r : Uuid) (k : JobKind) : Option Job :=
  t.rows.find? fun j => j.isOf r k && j.isLive

/-- `enqueue_with_priority` as one step. -/
def enqueueWithPriority (now : Time) (r : Uuid) (k : JobKind) (payload : Payload) (priority : ℤ)
    (t : Jobs) : Option Job × Jobs :=
  match t.insert now r k payload priority with
  | (some j, t') => (some j, t')
  | (none, t') => (t'.liveJob r k, t')

/-- The `WHERE` clause of the claim query. -/
def claimCandidate (now : Time) (kinds : List JobKind) (j : Job) : Bool :=
  j.state == .queued && kinds.contains j.kind && decide (j.runAfter ≤ now)

/-- `a` sorts strictly before `b` under `ORDER BY priority DESC, created_at`. -/
def claimBefore (a b : Job) : Bool :=
  decide (b.priority < a.priority) || (a.priority == b.priority && decide (a.createdAt < b.createdAt))

/-- The row `id` is one the claim query may return: rows that tie in the order are
returned in any order. -/
def claimable (now : Time) (kinds : List JobKind) (t : Jobs) (j : Job) : Bool :=
  claimCandidate now kinds j &&
    t.rows.all fun j' => !(claimCandidate now kinds j' && claimBefore j' j)

def claimed (now : Time) (worker : WorkerId) (j : Job) : Job :=
  { j with state := .running, lockedBy := some worker, lockedAt := some now, updatedAt := now }

theorem keeps_claimed {now : Time} {w : WorkerId} : Keeps (claimed now w) := by
  constructor <;> exact fun _ => rfl

/-- `claim_one`, returning the row `id`. -/
def claimOne (now : Time) (worker : WorkerId) (kinds : List JobKind) (id : JobId) (t : Jobs) :
    Option (Job × Jobs) :=
  match t.row id with
  | none => none
  | some j =>
    if claimable now kinds t j then
      some (claimed now worker j,
        t.update (fun j => j.id == id && j.state == .queued) (claimed now worker)
          keeps_claimed
          fun _ h _ => Job.isLive_of_queued (eq_of_beq (Bool.and_eq_true_iff.mp h).2))
    else none

def renewed (now : Time) (j : Job) : Job := { j with lockedAt := some now, updatedAt := now }

theorem keeps_renewed {now : Time} : Keeps (renewed now) := by
  constructor <;> exact fun _ => rfl

/-- `heartbeat`: guarded by the worker and by `running`. -/
def heartbeat (now : Time) (id : JobId) (worker : WorkerId) (t : Jobs) : Jobs :=
  t.update (fun j => j.id == id && j.lockedBy == some worker && j.state == .running)
    (renewed now) keeps_renewed
    fun _ h _ => Job.isLive_of_running (eq_of_beq (Bool.and_eq_true_iff.mp h).2)

def completed (now : Time) (j : Job) : Job :=
  { j with state := .done, lockedBy := none, lockedAt := none, error := none, updatedAt := now }

theorem keeps_completed {now : Time} : Keeps (completed now) := by
  constructor <;> exact fun _ => rfl

/-- `complete`: `WHERE id = $1`, with no guard on the worker. -/
def complete (now : Time) (id : JobId) (t : Jobs) : Jobs :=
  t.update (fun j => j.id == id) (completed now) keeps_completed
    fun _ _ hlive => absurd hlive (Job.not_isLive_of_done rfl)

def requeued (now : Time) (error : String) (nextAttempts : ℕ) (backoff : Time) (j : Job) : Job :=
  { j with state := .queued, attempts := nextAttempts, error := some error, lockedBy := none,
           lockedAt := none, runAfter := now + backoff * 2 ^ (nextAttempts - 1),
           updatedAt := now }

theorem keeps_requeued {now : Time} {error : String} {n : ℕ} {backoff : Time} :
    Keeps (requeued now error n backoff) := by
  constructor <;> exact fun _ => rfl

/-- The first branch of `fail`: requeue with exponential backoff. -/
def failRequeue (now : Time) (id : JobId) (error : String) (nextAttempts : ℕ) (backoff : Time)
    (t : Jobs) : Option Jobs :=
  t.tryUpdate (fun j => j.id == id) (requeued now error nextAttempts backoff)
    keeps_requeued

def parked (now : Time) (error : String) (nextAttempts : ℕ) (j : Job) : Job :=
  { j with state := .failed, attempts := nextAttempts, error := some error, lockedBy := none,
           lockedAt := none, updatedAt := now }

theorem keeps_parked {now : Time} {error : String} {n : ℕ} : Keeps (parked now error n) := by
  constructor <;> exact fun _ => rfl

/-- The second branch of `fail`: park the job. -/
def failPark (now : Time) (id : JobId) (error : String) (nextAttempts : ℕ) (t : Jobs) : Jobs :=
  t.update (fun j => j.id == id) (parked now error nextAttempts)
    keeps_parked
    fun _ _ hlive => absurd hlive (Job.not_isLive_of_failed rfl)

/-- The `UPDATE` of `fail`, after its `SELECT` gave `nextAttempts - 1`; `true` if requeued. -/
def failWrite (now : Time) (id : JobId) (error : String) (nextAttempts maxAttempts : ℕ)
    (backoff : Time) (t : Jobs) : Option (Bool × Jobs) :=
  if nextAttempts < maxAttempts then
    (t.failRequeue now id error nextAttempts backoff).map (true, ·)
  else some (false, t.failPark now id error nextAttempts)

/-- `fail` as one step; none where it returns an error. -/
def fail (now : Time) (id : JobId) (error : String) (maxAttempts : ℕ) (backoff : Time)
    (t : Jobs) : Option (Bool × Jobs) :=
  (t.row id).bind fun j => t.failWrite now id error (j.attempts + 1) maxAttempts backoff

def deferred (now : Time) (note : String) (delay : Time) (j : Job) : Job :=
  { j with state := .queued, lockedBy := none, lockedAt := none, error := some note,
           runAfter := now + delay, updatedAt := now }

theorem keeps_deferred {now : Time} {note : String} {delay : Time} :
    Keeps (deferred now note delay) := by
  constructor <;> exact fun _ => rfl

/-- `defer`: back to the queue, no attempt counted. -/
def defer (now : Time) (id : JobId) (note : String) (delay : Time) (t : Jobs) : Option Jobs :=
  t.tryUpdate (fun j => j.id == id) (deferred now note delay)
    keeps_deferred

def leaseExpired : String :=
  "worker lease expired: the worker stopped renewing it (crashed, killed, or lost the database)"

def windowClosed : String :=
  "paused: the processing window closed while this stage was running; it will be retried when the next window opens"

/-- The `WHERE` clause of `reap_stuck`: `locked_at < now() - older_than`. -/
def stuck (now : Time) (olderThan : Time) (j : Job) : Bool :=
  j.state == .running && j.lockedAt.any fun at' => decide (at' + olderThan < now)

/-- This reap is the job's last attempt. -/
def exhausted (maxAttempts : ℕ) (j : Job) : Bool := decide (maxAttempts ≤ j.attempts + 1)

def reaped (now : Time) (maxAttempts : ℕ) (j : Job) : Job :=
  { j with attempts := j.attempts + 1
           state := if exhausted maxAttempts j then .failed else .queued
           error := some leaseExpired, lockedBy := none, lockedAt := none, updatedAt := now }

theorem keeps_reaped {now : Time} {maxAttempts : ℕ} : Keeps (reaped now maxAttempts) := by
  constructor <;> exact fun _ => rfl

/-- `reap_stuck`: the table afterwards. -/
def reapStuck (now : Time) (olderThan : Time) (maxAttempts : ℕ) (t : Jobs) : Jobs :=
  t.update (stuck now olderThan) (reaped now maxAttempts)
    keeps_reaped
    fun _ h _ => Job.isLive_of_running (eq_of_beq (Bool.and_eq_true_iff.mp h).1)

/-- What `reap_stuck` returns for each job taken back. -/
def reapedJob (maxAttempts : ℕ) (j : Job) : ReapedJob where
  id := j.id
  recordingId := j.recordingId
  exhausted := exhausted maxAttempts j

/-- `reap_stuck`: the jobs it returns. -/
def reapedJobs (now : Time) (olderThan : Time) (maxAttempts : ℕ) (t : Jobs) : List ReapedJob :=
  (t.rows.filter (stuck now olderThan)).map (reapedJob maxAttempts)

/-- `predecessors_done`: each predecessor kind has a `done` row. -/
def predecessorsDone (t : Jobs) (r : Uuid) (k : JobKind) : Bool :=
  k.predecessors.all fun p => t.has r p fun j => j.state == .done

/-- `embed_and_summarize_done`. -/
def embedAndSummarizeDone (t : Jobs) (r : Uuid) : Bool :=
  t.has r .embed (fun j => j.state == .done) && t.has r .summarize fun j => j.state == .done

/-! ## What a statement does to one row -/

variable {t t' : Jobs} {id : JobId} {j : Job} {p : Job → Bool} {f : Job → Job} {now : Time}

theorem row_eq_some : t.row id = some j ↔ j ∈ t.rows ∧ j.id = id := by
  constructor
  · intro h
    exact ⟨List.mem_of_find?_eq_some h, by simpa using List.find?_some h⟩
  · rintro ⟨hj, rfl⟩
    have hsome : (t.row j.id).isSome = true := by
      rw [row, List.find?_isSome]
      exact ⟨j, hj, by simp⟩
    obtain ⟨j', hj'⟩ := Option.isSome_iff_exists.mp hsome
    have hid : j'.id = j.id := by simpa using List.find?_some hj'
    rw [hj', List.inj_on_of_nodup_map t.id_nodup (List.mem_of_find?_eq_some hj') hj hid]

theorem row_update (hf : Keeps f)
    (hlive : ∀ j, p j = true → (f j).isLive = true → j.isLive = true) :
    (t.update p f hf hlive).row id = (t.row id).map (updateRow p f) :=
  find?_updateWhere hf.id id

/-- An assignment to row `id'` leaves every other row as it was. -/
theorem map_updateRow_of_ne {id' : JobId} (hp : ∀ j, p j = true → j.id = id') (hid : id' ≠ id) :
    (t.row id).map (updateRow p f) = t.row id := by
  cases hrow : t.row id with
  | none => rfl
  | some j =>
    have hj : p j = false := by
      by_contra hpj
      exact hid ((hp j (by simpa using hpj)).symm.trans (row_eq_some.mp hrow).2)
    rw [Option.map_some, updateRow_of_neg hj]

theorem tryUpdate_rows {hf : Keeps f} (h : t.tryUpdate p f hf = some t') :
    t'.rows = updateWhere p f t.rows ∧ t'.nextId = t.nextId := by
  unfold tryUpdate at h
  split at h
  · cases h
    exact ⟨rfl, rfl⟩
  · cases h

theorem row_tryUpdate {hf : Keeps f} (h : t.tryUpdate p f hf = some t') (id : JobId) :
    t'.row id = (t.row id).map (updateRow p f) := by
  rw [row, (tryUpdate_rows h).1]
  exact find?_updateWhere hf.id id

theorem row_eq_none_of_le (h : t.nextId ≤ id) : t.row id = none := by
  rw [row, List.find?_eq_none]
  intro j hj hid
  have hlt := t.id_lt j hj
  rw [beq_iff_eq] at hid
  exact absurd (hid ▸ hlt) (Nat.not_lt.mpr h)

theorem row_insert_conflict {r : Uuid} {k : JobKind} {payload : Payload} {priority : ℤ}
    (h : t.insert now r k payload priority = (none, t')) : t'.row id = t.row id := by
  unfold insert at h
  split at h
  · cases h
    rfl
  · simp at h

theorem row_insert {r : Uuid} {k : JobKind} {payload : Payload} {priority : ℤ}
    (h : t.insert now r k payload priority = (some j, t')) (id : JobId) :
    j = newJob now t.nextId r k payload priority ∧
      t'.row id = if id = t.nextId then some j else t.row id := by
  unfold insert at h
  split at h
  · simp at h
  · cases h
    refine ⟨rfl, ?_⟩
    simp only [row, List.find?_append]
    by_cases hid : id = t.nextId
    · subst hid
      have hnone : t.rows.find? (fun j => j.id == t.nextId) = none := row_eq_none_of_le le_rfl
      simp [hnone, newJob]
    · simp [Ne.symm hid, hid, newJob]

/-- What `claim_one` returns was queued and of a wanted kind; no other row changes. -/
theorem claimOne_eq_some {w : WorkerId} {kinds : List JobKind} {x : Job × Jobs}
    (h : t.claimOne now w kinds id = some x) :
    ∃ j, t.row id = some j ∧ j.state = .queued ∧ x.1 = claimed now w j ∧
      ∀ id', x.2.row id' = if id' = id then some (claimed now w j) else t.row id' := by
  unfold claimOne at h
  split at h
  · cases h
  · rename_i j hrow
    split at h
    · rename_i hj
      cases h
      have hqueued : j.state = .queued := by
        simp only [claimable, claimCandidate, Bool.and_eq_true, beq_iff_eq] at hj
        exact hj.1.1.1
      refine ⟨j, hrow, hqueued, rfl, fun id' => ?_⟩
      rw [row_update]
      by_cases hid : id' = id
      · subst hid
        have hjid := (row_eq_some.mp hrow).2
        rw [if_pos rfl, hrow, Option.map_some, updateRow_of_pos (by simp [hjid, hqueued])]
      · rw [if_neg hid, map_updateRow_of_ne (by simp +contextual) (Ne.symm hid)]
    · cases h

/-- What `fail` writes to its row: the attempts it was given, and a state decided by them. -/
def failed (now : Time) (error : String) (n m : ℕ) (backoff : Time) (j : Job) : Job :=
  if n < m then requeued now error n backoff j else parked now error n j

theorem keeps_failed {error : String} {n m : ℕ} {backoff : Time} :
    Keeps (failed now error n m backoff) := by
  constructor <;> (intro j; unfold failed; split <;> rfl)

theorem failed_attempts {error : String} {n m : ℕ} {backoff : Time} :
    (failed now error n m backoff j).attempts = n := by
  unfold failed
  split <;> rfl

theorem failed_state {error : String} {n m : ℕ} {backoff : Time} :
    (failed now error n m backoff j).state = if n < m then .queued else .failed := by
  unfold failed
  split <;> rfl

theorem failWrite_eq_some {error : String} {n m : ℕ} {backoff : Time} {x : Bool × Jobs}
    (h : t.failWrite now id error n m backoff = some x) :
    x.1 = decide (n < m) ∧ x.2.nextId = t.nextId ∧
      x.2.rows = updateWhere (fun j => j.id == id) (failed now error n m backoff) t.rows := by
  unfold failWrite at h
  by_cases hlt : n < m
  · rw [if_pos hlt] at h
    rcases Option.map_eq_some_iff.mp h with ⟨t', ht', rfl⟩
    have hf : failed now error n m backoff = requeued now error n backoff := by
      funext j
      exact if_pos hlt
    rw [hf]
    exact ⟨by simp [hlt], (tryUpdate_rows ht').2, (tryUpdate_rows ht').1⟩
  · rw [if_neg hlt] at h
    cases h
    have hf : failed now error n m backoff = parked now error n := by
      funext j
      exact if_neg hlt
    rw [hf]
    exact ⟨by simp [hlt], rfl, rfl⟩

theorem row_of_rows {t' : Jobs} (hf : Keeps f) (hrows : t'.rows = updateWhere p f t.rows)
    (id : JobId) : t'.row id = (t.row id).map (updateRow p f) := by
  rw [row, hrows]
  exact find?_updateWhere hf.id id

/-- A failure report charges one attempt, requeues below the cap and parks at it. -/
theorem fail_eq_some {error : String} {m : ℕ} {backoff : Time} {x : Bool × Jobs}
    (h : t.fail now id error m backoff = some x) :
    ∃ j j', t.row id = some j ∧ x.2.row id = some j' ∧ j'.attempts = j.attempts + 1 ∧
      (j'.state = if j'.attempts < m then .queued else .failed) ∧
      ∀ id', id' ≠ id → x.2.row id' = t.row id' := by
  rcases Option.bind_eq_some_iff.mp h with ⟨j, hrow, hwrite⟩
  have hjid := (row_eq_some.mp hrow).2
  have hrows := row_of_rows keeps_failed (failWrite_eq_some hwrite).2.2
  refine ⟨j, failed now error (j.attempts + 1) m backoff j, hrow, ?_, failed_attempts, ?_, ?_⟩
  · rw [hrows, hrow, Option.map_some, updateRow_of_pos (by simpa using hjid)]
  · rw [failed_attempts, failed_state]
  · intro id' hid
    rw [hrows, map_updateRow_of_ne (by simp) (Ne.symm hid)]

theorem has_iff {r : Uuid} {k : JobKind} {q : Job → Bool} :
    t.has r k q = true ↔ ∃ j ∈ t.rows, (j.recordingId = some r ∧ j.kind = k) ∧ q j = true := by
  simp [has, Job.isOf_iff]

/-- The partial unique index. -/
theorem eq_of_collides {a b : Job} (t : Jobs) (ha : a ∈ t.rows) (hb : b ∈ t.rows)
    (h : a.Collides b) : a = b := by
  by_contra hne
  have hsymm : Std.Symm fun a b : Job => ¬a.Collides b := ⟨fun _ _ h h' => h h'.symm⟩
  exact t.live_unique.forall ha hb hne h

/-- An update keeps a live job that it does not end. -/
theorem live_of_update {t t' : Jobs} {p : Job → Bool} {f : Job → Job} {r : Uuid} {k : JobKind}
    (hf : Keeps f) (hrows : t'.rows = updateWhere p f t.rows)
    (h : ∀ j ∈ t.rows, p j = true → j.recordingId = some r → j.kind = k → j.isLive = true →
      (f j).isLive = true)
    (hlive : t.has r k Job.isLive = true) : t'.has r k Job.isLive = true := by
  rcases has_iff.mp hlive with ⟨j, hj, hk, hl⟩
  refine has_iff.mpr ⟨updateRow p f j, ?_, ?_, ?_⟩
  · rw [hrows]
    exact mem_updateWhere.mpr ⟨j, hj, rfl⟩
  · rwa [column_updateRow hf.recordingId, column_updateRow hf.kind]
  · by_cases hp : p j = true
    · rw [updateRow_of_pos hp]
      exact h j hj hp hk.1 hk.2 hl
    · rwa [updateRow_of_neg (by simpa using hp)]

end Jobs

end ScribeLocal
