import ScribeLocal.Db.Queue
import ScribeLocal.Transition

/-! # Retries are bounded: attempts as a potential over runs of the queue's methods

Each method of the queue is one step here. A queued row may still be claimed once
for itself and once for every attempt it has left, and only `defer` gives a claim
back without charging an attempt.
-/
namespace ScribeLocal.RetryBound
open Table Transition

/-- The queue and the database's clock. -/
structure Queue where
  now : Time
  jobs : Jobs

def start (t₀ : Time) : Queue := ⟨t₀, Jobs.empty⟩

/-- A call of one of the queue's methods; `claim` carries the row it returned. -/
inductive Call where
  | tick (d : Time)
  | enqueue (r : Uuid) (k : JobKind) (payload : Payload) (priority : ℤ)
  | claim (w : WorkerId) (kinds : List JobKind) (id : Option JobId)
  | heartbeat (id : JobId) (w : WorkerId)
  | complete (id : JobId)
  | fail (id : JobId) (error : String) (backoff : Time)
  | defer (id : JobId) (note : String) (delay : Time)
  | reap (olderThan : Time)

/-- One call. A call the database refuses leaves the queue as it was. -/
def step (m : ℕ) (q : Queue) : Call → Option Queue
  | .tick d => some { q with now := q.now + d }
  | .enqueue r k payload priority =>
    some { q with jobs := (q.jobs.enqueueWithPriority q.now r k payload priority).2 }
  | .claim w kinds (some id) =>
    (q.jobs.claimOne q.now w kinds id).map fun p => { q with jobs := p.2 }
  | .claim _ kinds none =>
    if q.jobs.rows.any (Jobs.claimCandidate q.now kinds) then none else some q
  | .heartbeat id w => some { q with jobs := q.jobs.heartbeat q.now id w }
  | .complete id => some { q with jobs := q.jobs.complete q.now id }
  | .fail id error backoff =>
    some { q with jobs := ((q.jobs.fail q.now id error m backoff).map Prod.snd).getD q.jobs }
  | .defer id note delay =>
    some { q with jobs := (q.jobs.defer q.now id note delay).getD q.jobs }
  | .reap olderThan => some { q with jobs := q.jobs.reapStuck q.now olderThan m }

/-- The claims of row `id`. -/
def claimsOf (id : JobId) (_ : Queue) : Call → ℕ
  | .claim _ _ (some id') => if id' = id then 1 else 0
  | _ => 0

/-- The `defer` calls that take effect on row `id`. -/
def defersOf (id : JobId) (q : Queue) : Call → ℕ
  | .defer id' note delay =>
    if id' = id ∧ (q.jobs.row id).isSome ∧ (q.jobs.defer q.now id note delay).isSome then 1 else 0
  | _ => 0

/-- A failure report or a reap that takes effect on row `j`. -/
def takesBack (m : ℕ) (q : Queue) (j : Job) : Call → Bool
  | .fail id error backoff => id == j.id && (q.jobs.fail q.now id error m backoff).isSome
  | .reap olderThan => Jobs.stuck q.now olderThan j
  | _ => false

/-! ## What one call does to one row -/

/-- How a call may move a row. -/
inductive RowMove (m : ℕ) (id : JobId) (q : Queue) (c : Call) : Option Job → Option Job → Prop
  | same {x : Option Job} (hc : claimsOf id q c = 0)
      (hback : ∀ j, x = some j → takesBack m q j c = false) : RowMove m id q c x x
  | inserted {j : Job} (hc : claimsOf id q c = 0) (hs : j.state = .queued)
      (ha : j.attempts = 0) : RowMove m id q c none (some j)
  | claimed {j j' : Job} (hc : claimsOf id q c = 1) (hs : j.state = .queued)
      (hs' : j'.state = .running) (ha : j'.attempts = j.attempts)
      (hback : takesBack m q j c = false) : RowMove m id q c (some j) (some j')
  | renewed {j j' : Job} (hc : claimsOf id q c = 0)
      (hs : j'.state = j.state ∨ j'.state = .done) (ha : j'.attempts = j.attempts)
      (hback : takesBack m q j c = false) : RowMove m id q c (some j) (some j')
  | deferred {j j' : Job} (hc : claimsOf id q c = 0) (hd : defersOf id q c = 1)
      (ha : j'.attempts = j.attempts) (hback : takesBack m q j c = false) :
      RowMove m id q c (some j) (some j')
  | takenBack {j j' : Job} (hc : claimsOf id q c = 0) (ha : j'.attempts = j.attempts + 1)
      (hs : j'.state = if j'.attempts < m then .queued else .failed) :
      RowMove m id q c (some j) (some j')

variable {m : ℕ} {id : JobId} {q q' : Queue} {c : Call}

private theorem enqueue_rowMove {r : Uuid} {k : JobKind} {payload : Payload} {priority : ℤ} :
    RowMove m id q (.enqueue r k payload priority) (q.jobs.row id)
      ((q.jobs.enqueueWithPriority q.now r k payload priority).2.row id) := by
  rcases hins : q.jobs.insert q.now r k payload priority with ⟨_ | j, t'⟩
  · have hrow : t'.row id = q.jobs.row id := Jobs.row_insert_conflict hins
    simp only [Jobs.enqueueWithPriority, hins, hrow]
    exact .same rfl fun _ _ => rfl
  · have hj : j = Jobs.newJob q.now q.jobs.nextId r k payload priority :=
      (Jobs.row_insert hins id).1
    have hrow : t'.row id = if id = q.jobs.nextId then some j else q.jobs.row id :=
      (Jobs.row_insert hins id).2
    simp only [Jobs.enqueueWithPriority, hins, hrow]
    by_cases hid : id = q.jobs.nextId
    · rw [if_pos hid, Jobs.row_eq_none_of_le hid.ge, hj]
      exact .inserted rfl rfl rfl
    · rw [if_neg hid]
      exact .same rfl fun _ _ => rfl

private theorem claim_rowMove {w : WorkerId} {kinds : List JobKind} {id' : JobId}
    {p : Job × Jobs} (h : q.jobs.claimOne q.now w kinds id' = some p) :
    RowMove m id q (.claim w kinds (some id')) (q.jobs.row id) (p.2.row id) := by
  rcases Jobs.claimOne_eq_some h with ⟨j, hrow, hqueued, -, hp⟩
  by_cases hid : id' = id
  · subst hid
    rw [hp, hrow, if_pos rfl]
    exact .claimed (by simp [claimsOf]) hqueued rfl rfl rfl
  · rw [hp, if_neg (Ne.symm hid)]
    exact .same (by simp [claimsOf, hid]) fun _ _ => rfl

private theorem heartbeat_rowMove {id' : JobId} {w : WorkerId} :
    RowMove m id q (.heartbeat id' w) (q.jobs.row id) ((q.jobs.heartbeat q.now id' w).row id) := by
  rw [Jobs.heartbeat, Jobs.row_update]
  cases q.jobs.row id with
  | none => exact .same rfl fun _ _ => rfl
  | some j =>
    apply RowMove.renewed rfl _ _ rfl
    · unfold updateRow
      split <;> exact .inl rfl
    · unfold updateRow
      split <;> rfl

private theorem complete_rowMove {id' : JobId} :
    RowMove m id q (.complete id') (q.jobs.row id) ((q.jobs.complete q.now id').row id) := by
  rw [Jobs.complete, Jobs.row_update]
  cases q.jobs.row id with
  | none => exact .same rfl fun _ _ => rfl
  | some j =>
    apply RowMove.renewed rfl _ _ rfl
    · unfold updateRow
      split
      · exact .inr rfl
      · exact .inl rfl
    · unfold updateRow
      split <;> rfl

private theorem fail_rowMove {id' : JobId} {error : String} {backoff : Time} :
    RowMove m id q (.fail id' error backoff) (q.jobs.row id)
      (((q.jobs.fail q.now id' error m backoff).map Prod.snd).getD q.jobs |>.row id) := by
  cases hfail : q.jobs.fail q.now id' error m backoff with
  | none => exact .same rfl fun j _ => by simp [takesBack, hfail]
  | some p =>
    rcases Jobs.fail_eq_some hfail with ⟨j, j', hrow, hrow', ha, hs, hne⟩
    by_cases hid : id' = id
    · subst hid
      change RowMove m id' q _ (q.jobs.row id') (p.2.row id')
      rw [hrow, hrow']
      exact .takenBack rfl ha hs
    · change RowMove m id q _ (q.jobs.row id) (p.2.row id)
      rw [hne id (Ne.symm hid)]
      apply RowMove.same rfl
      intro j hj
      simp [takesBack, (Jobs.row_eq_some.mp hj).2, hid]

private theorem defer_rowMove {id' : JobId} {note : String} {delay : Time} :
    RowMove m id q (.defer id' note delay) (q.jobs.row id)
      (((q.jobs.defer q.now id' note delay).getD q.jobs).row id) := by
  cases hdefer : q.jobs.defer q.now id' note delay with
  | none => exact .same rfl fun _ _ => rfl
  | some t' =>
    have hrow := Jobs.row_tryUpdate hdefer id
    rw [Option.getD_some, hrow]
    by_cases hid : id' = id
    · subst hid
      cases hj : q.jobs.row id' with
      | none => exact .same rfl fun _ _ => rfl
      | some j =>
        have hjid := (Jobs.row_eq_some.mp hj).2
        rw [Option.map_some, updateRow_of_pos (by simpa using hjid)]
        exact .deferred rfl (by simp [defersOf, hj, hdefer]) rfl rfl
    · rw [Jobs.map_updateRow_of_ne (by simp) hid]
      exact .same rfl fun _ _ => rfl

private theorem reap_rowMove {olderThan : Time} :
    RowMove m id q (.reap olderThan) (q.jobs.row id)
      ((q.jobs.reapStuck q.now olderThan m).row id) := by
  rw [Jobs.reapStuck, Jobs.row_update]
  cases q.jobs.row id with
  | none => exact .same rfl fun _ h => nomatch h
  | some j =>
    rw [Option.map_some]
    by_cases hstuck : Jobs.stuck q.now olderThan j = true
    · rw [updateRow_of_pos hstuck]
      apply RowMove.takenBack rfl rfl
      by_cases hm : j.attempts + 1 < m
      · simp [Jobs.reaped, Jobs.exhausted, hm]
      · simp [Jobs.reaped, Jobs.exhausted, hm, Nat.le_of_not_lt hm]
    · rw [updateRow_of_neg (by simpa using hstuck)]
      apply RowMove.same rfl
      rintro _ ⟨rfl⟩
      simpa [takesBack] using hstuck

/-- Everything a call can do to row `id`. -/
theorem step_rowMove (h : step m q c = some q') :
    RowMove m id q c (q.jobs.row id) (q'.jobs.row id) := by
  cases c with
  | tick d => cases h; exact .same rfl fun _ _ => rfl
  | enqueue r k payload priority => cases h; exact enqueue_rowMove
  | claim w kinds id' =>
    cases id' with
    | none =>
      simp only [step] at h
      split at h
      · cases h
      · cases h; exact .same rfl fun _ _ => rfl
    | some id' =>
      rcases Option.map_eq_some_iff.mp h with ⟨p, hp, rfl⟩
      exact claim_rowMove hp
  | heartbeat id' w => cases h; exact heartbeat_rowMove
  | complete id' => cases h; exact complete_rowMove
  | fail id' error backoff => cases h; exact fail_rowMove
  | defer id' note delay => cases h; exact defer_rowMove
  | reap olderThan => cases h; exact reap_rowMove

/-! ## The bound -/

/-- Claims a row has left: the one it is queued for and one for each attempt. -/
def rowPotential (m : ℕ) : Option Job → ℕ
  | none => m
  | some j => (if j.state = .queued then 1 else 0) + (m - 1 - j.attempts)

theorem RowMove.pays {x x' : Option Job} (hm : 1 ≤ m) (h : RowMove m id q c x x') :
    claimsOf id q c + rowPotential m x' ≤ rowPotential m x + defersOf id q c := by
  cases h with
  | same hc => omega
  | inserted hc hs ha => simp only [rowPotential, hc, hs, ha, if_true]; omega
  | claimed hc hs hs' ha => simp [rowPotential, hc, hs, hs', ha]
  | renewed hc hs ha =>
    rcases hs with hs | hs
    · simp only [rowPotential, hc, hs, ha]; omega
    · simp [rowPotential, hc, hs, ha]; omega
  | deferred hc hd ha =>
    simp only [rowPotential, hc, hd, ha]
    split <;> split <;> omega
  | @takenBack j j' hc ha hs =>
    by_cases hlt : j'.attempts < m
    · rw [if_pos hlt] at hs
      simp only [rowPotential, hc, hs, if_true]
      omega
    · rw [if_neg hlt] at hs
      simp only [rowPotential, hc, hs, reduceCtorEq, if_false]
      omega

/-- What row `id` can still cost. -/
def potential (m : ℕ) (id : JobId) (q : Queue) : ℕ := rowPotential m (q.jobs.row id)

theorem step_pays (hm : 1 ≤ m) (h : step m q c = some q') :
    claimsOf id q c + potential m id q' ≤ potential m id q + defersOf id q c :=
  (step_rowMove h).pays hm

theorem step_attempts {j : Job} (h : step m q c = some q') (hrow : q.jobs.row id = some j) :
    ∃ j', q'.jobs.row id = some j' ∧ j.attempts ≤ j'.attempts := by
  have hmove : RowMove m id q c (q.jobs.row id) (q'.jobs.row id) := step_rowMove h
  rw [hrow] at hmove
  generalize q'.jobs.row id = x' at hmove
  cases hmove with
  | same => exact ⟨j, rfl, le_rfl⟩
  | claimed _ _ _ ha => exact ⟨_, rfl, ha.ge⟩
  | renewed _ _ ha => exact ⟨_, rfl, ha.ge⟩
  | deferred _ _ ha => exact ⟨_, rfl, ha.ge⟩
  | takenBack _ ha => exact ⟨_, rfl, by omega⟩

theorem run_attempts {ok : Queue → Call → Prop} {tr : List Call} {j : Job}
    (h : Run (step m) ok q tr q') (hrow : q.jobs.row id = some j) :
    ∃ j', q'.jobs.row id = some j' ∧ j.attempts ≤ j'.attempts := by
  induction h with
  | nil => exact ⟨j, hrow, le_rfl⟩
  | snoc c _ _ hstep ih =>
    rcases ih with ⟨j₁, hrow₁, hle₁⟩
    rcases step_attempts hstep hrow₁ with ⟨j₂, hrow₂, hle₂⟩
    exact ⟨j₂, hrow₂, hle₁.trans hle₂⟩

theorem step_takesBack {j : Job} (h : step m q c = some q') (hrow : q.jobs.row id = some j)
    (hback : takesBack m q j c = true) :
    ∃ j', q'.jobs.row id = some j' ∧ j'.attempts = j.attempts + 1 ∧
      j'.state = if j'.attempts < m then .queued else .failed := by
  have hmove : RowMove m id q c (q.jobs.row id) (q'.jobs.row id) := step_rowMove h
  rw [hrow] at hmove
  generalize q'.jobs.row id = x' at hmove
  cases hmove with
  | same _ hno => simp [hno j rfl] at hback
  | claimed _ _ _ _ hno => simp [hno] at hback
  | renewed _ _ _ hno => simp [hno] at hback
  | deferred _ _ _ hno => simp [hno] at hback
  | takenBack _ ha hs => exact ⟨_, rfl, ha, hs⟩

/-- In every run from an empty queue: attempts never decrease; a failure or a reap
charges one and requeues exactly below the cap; and a row is claimed at most
`m` times more often than it is deferred. -/
theorem retry_bound (hm : 1 ≤ m) {t₀ : Time} {tr : List Call}
    (h : Run (step m) anyStep (start t₀) tr q) (id : JobId) :
    (∀ tr' q' j, Run (step m) anyStep q tr' q' → q.jobs.row id = some j →
      ∃ j', q'.jobs.row id = some j' ∧ j.attempts ≤ j'.attempts) ∧
    (∀ c q' j, step m q c = some q' → q.jobs.row id = some j → takesBack m q j c = true →
      ∃ j', q'.jobs.row id = some j' ∧ j'.attempts = j.attempts + 1 ∧
        j'.state = if j'.attempts < m then .queued else .failed) ∧
    tally (step m) (claimsOf id) (start t₀) tr ≤
      m + tally (step m) (defersOf id) (start t₀) tr := by
  refine ⟨fun _ _ _ => run_attempts, fun _ _ _ => step_takesBack, ?_⟩
  have hle : tally (step m) (claimsOf id) (start t₀) tr + potential m id q ≤
      m + tally (step m) (defersOf id) (start t₀) tr :=
    h.tally_le fun _ _ _ _ => step_pays hm
  omega

/-- Two attempts: a failure, a deferral, a reap that parks the row, and a stale deferral. -/
def retryCalls : List Call :=
  [.enqueue 7 .transcode {} 0, .claim 1 JobKind.all (some 1), .fail 1 "decode" 10, .tick 10,
    .claim 2 JobKind.all (some 1), .defer 1 "paused" 5, .tick 5,
    .claim 1 JobKind.all (some 1), .tick 50, .reap 45, .defer 1 "paused" 0,
    .claim 1 JobKind.all (some 1)]

theorem retry_bound_retryCalls :
    tally (step 2) (claimsOf 1) (start 0) retryCalls ≤
      2 + tally (step 2) (defersOf 1) (start 0) retryCalls :=
  (retry_bound (by decide)
    (run_of_isSome (by decide : (exec (step 2) (start 0) retryCalls).isSome = true)) 1).2.2

example : tally (step 2) (claimsOf 1) (start 0) retryCalls = 4 := by decide

end ScribeLocal.RetryBound
