import ScribeLocal.Db.Queue

/-!
# Enqueueing beside other calls

`enqueue_with_priority` is two statements: an `INSERT` that does nothing where a live job
exists, and a `SELECT` of that job. Between them stand statements of other calls.
-/
namespace ScribeLocal.Enqueue
open Table Jobs

/-! ## A flag over a run -/

section Flag
variable {σ ε : Type*}

/-- Every step of a run that takes the flag down is followed by one that puts it up. -/
def Answered (step : σ → ε → σ) (Down Up : σ → ε → Prop) (s : σ) (steps : List ε) : Prop :=
  ∀ xs e ys, steps = xs ++ e :: ys → Down (xs.foldl step s) e →
    ∃ us e' vs, ys = us ++ e' :: vs ∧ Up ((xs ++ e :: us).foldl step s) e'

/-- What the steps do to the flag. -/
structure Flag (step : σ → ε → σ) (Set : σ → Prop) (Down Up : σ → ε → Prop) : Prop where
  stays : ∀ s e, Set s → ¬Down s e → Set (step s e)
  falls : ∀ s e, Down s e → ¬Set (step s e)
  rises : ∀ s e, Up s e → Set (step s e)
  up_of : ∀ s e, ¬Set s → Set (step s e) → Up s e

variable {step : σ → ε → σ} {Set : σ → Prop} {Down Up : σ → ε → Prop} {s : σ}

/-- A flag that is up in the end, but not now, is put up. -/
theorem Flag.exists_up (h : Flag step Set Down Up) {steps : List ε} (hnot : ¬Set s)
    (hset : Set (steps.foldl step s)) :
    ∃ us e vs, steps = us ++ e :: vs ∧ Up (us.foldl step s) e := by
  induction steps generalizing s with
  | nil => exact absurd hset hnot
  | cons e steps ih =>
    by_cases hnext : Set (step s e)
    · exact ⟨[], e, steps, rfl, h.up_of s e hnot hnext⟩
    · obtain ⟨us, e', vs, heq, hup⟩ := ih hnext hset
      exact ⟨e :: us, e', vs, by rw [heq]; rfl, hup⟩

theorem Answered.tail {e : ε} {steps : List ε} (h : Answered step Down Up s (e :: steps)) :
    Answered step Down Up (step s e) steps := by
  rintro xs e' ys rfl hdown
  exact h (e :: xs) e' ys rfl hdown

theorem Answered.drop {steps later : List ε} (h : Answered step Down Up s (steps ++ later)) :
    Answered step Down Up (steps.foldl step s) later := by
  induction steps generalizing s with
  | nil => exact h
  | cons e steps ih => exact ih h.tail

/-- The flag is up after a run exactly if every fall is answered. -/
theorem Flag.foldl_iff (h : Flag step Set Down Up) {steps : List ε} (hset : Set s) :
    Set (steps.foldl step s) ↔ Answered step Down Up s steps := by
  constructor
  · rintro hend xs e ys rfl hdown
    have hnot := h.falls _ _ hdown
    rw [List.foldl_append, List.foldl_cons] at hend
    obtain ⟨us, e', vs, heq, hup⟩ := h.exists_up hnot hend
    refine ⟨us, e', vs, heq, ?_⟩
    rwa [List.foldl_append, List.foldl_cons]
  · intro hanswered
    induction hn : steps.length using Nat.strong_induction_on generalizing s steps with
    | _ n ih =>
      cases steps with
      | nil => exact hset
      | cons e steps =>
        rw [List.length_cons] at hn
        by_cases hdown : Down s e
        · -- go on behind the step that answers this one
          obtain ⟨us, e', vs, rfl, hup⟩ := hanswered [] e steps rfl hdown
          have hsplit : e :: (us ++ e' :: vs) = (e :: us ++ [e']) ++ vs := by simp
          rw [hsplit] at hanswered ⊢
          rw [List.foldl_append]
          have hup' : Set ((e :: us ++ [e']).foldl step s) := by
            rw [List.foldl_append]
            exact h.rises _ _ hup
          have hlen : vs.length < n := by
            rw [List.length_append, List.length_cons] at hn
            omega
          exact ih _ hlen hup' hanswered.drop rfl
        · rw [List.foldl_cons]
          exact ih steps.length (by omega) (h.stays s e hset hdown) hanswered.tail rfl

end Flag

/-! ## The call and the others -/

/-- A statement of another call. The update of `fail` has the attempts that its `SELECT` read
before, plus one. -/
inductive Other
  | claim (now : Time) (worker : WorkerId) (kinds : List JobKind) (id : JobId)
  | complete (now : Time) (id : JobId)
  | failWrite (now : Time) (id : JobId) (error : String) (nextAttempts maxAttempts : ℕ)
      (backoff : Time)
  | defer (now : Time) (id : JobId) (note : String) (delay : Time)
  | reap (now : Time) (olderThan : Time) (maxAttempts : ℕ)
  | insert (now : Time) (r : Uuid) (k : JobKind) (payload : Payload) (priority : ℤ)

/-- A statement that the database refuses leaves the table as it was. -/
def step (t : Jobs) : Other → Jobs
  | .claim now worker kinds id => ((t.claimOne now worker kinds id).map Prod.snd).getD t
  | .complete now id => t.complete now id
  | .failWrite now id error n m backoff =>
    ((t.failWrite now id error n m backoff).map Prod.snd).getD t
  | .defer now id note delay => (t.defer now id note delay).getD t
  | .reap now olderThan m => t.reapStuck now olderThan m
  | .insert now r k payload priority => (t.insert now r k payload priority).2

variable (now : Time) (r : Uuid) (k : JobKind) (payload : Payload) (priority : ℤ)

/-- `enqueue_with_priority`, with what comes between its statements where it makes two. None is
the error of `fetch_one` without a row. -/
def enqueueWithPriority (between : List Other) (t : Jobs) : Option Job :=
  match t.insert now r k payload priority with
  | (some job, _) => some job
  | (none, t') => (between.foldl step t').liveJob r k

/-- The call returns a job of the recording and kind that was live while it ran. -/
def Returns (between : List Other) (t : Jobs) : Prop :=
  ∃ job, enqueueWithPriority now r k payload priority between t = some job ∧
    job.isOf r k = true ∧ job.isLive = true ∧
    ∃ xs, xs <+: between ∧ job ∈ (xs.foldl step (t.insert now r k payload priority).2).rows

/-- A statement that ends the live job of the recording and kind. -/
def Ends (t : Jobs) : Other → Prop
  | .complete _ id => ∃ j ∈ t.rows, j.id = id ∧ j.isOf r k = true ∧ j.isLive = true
  | .failWrite _ id _ n m _ =>
    m ≤ n ∧ ∃ j ∈ t.rows, j.id = id ∧ j.isOf r k = true ∧ j.isLive = true
  | .reap now olderThan m =>
    ∃ j ∈ t.rows, j.isOf r k = true ∧ stuck now olderThan j = true ∧ exhausted m j = true
  | _ => False

/-- A statement that leaves a live job of the recording and kind: an insert, or a job that goes
back to the queue. -/
def Starts (t : Jobs) : Other → Prop
  | .insert _ r' k' _ _ => r' = r ∧ k' = k
  | .failWrite now id error n m backoff =>
    n < m ∧ (t.failRequeue now id error n backoff).isSome ∧
      ∃ j ∈ t.rows, j.id = id ∧ j.isOf r k = true
  | .defer now id note delay =>
    (t.defer now id note delay).isSome ∧ ∃ j ∈ t.rows, j.id = id ∧ j.isOf r k = true
  | _ => False

/-! ## One statement -/

variable {r k} {t t' : Jobs} {p : Job → Bool} {f : Job → Job} {j j' : Job} {id : JobId}

/-- A live job of the recording and kind stands in the table. -/
def Live (r : Uuid) (k : JobKind) (t : Jobs) : Prop := t.has r k Job.isLive = true

theorem live_iff : Live r k t ↔ ∃ j ∈ t.rows, j.isOf r k = true ∧ j.isLive = true := by
  simp [Live, has]

theorem eq_of_live (hj : j ∈ t.rows) (hj' : j' ∈ t.rows) (hof : j.isOf r k = true)
    (hof' : j'.isOf r k = true) (hlive : j.isLive = true) (hlive' : j'.isLive = true) : j = j' := by
  rw [Job.isOf_iff] at hof hof'
  exact t.eq_of_collides hj hj' ⟨hlive, hlive', hof.2.trans hof'.2.symm, r, hof.1, hof'.1⟩

theorem isOf_updateRow (hf : Keeps f) : (updateRow p f j).isOf r k = j.isOf r k := by
  rw [Job.isOf, Job.isOf, column_updateRow hf.recordingId, column_updateRow hf.kind]

theorem live_updateWhere_iff (hf : Keeps f) (hrows : t'.rows = updateWhere p f t.rows) :
    Live r k t' ↔ ∃ j ∈ t.rows, j.isOf r k = true ∧ (updateRow p f j).isLive = true := by
  rw [live_iff, hrows]
  constructor
  · rintro ⟨j', hj', hof, hlive⟩
    obtain ⟨j, hj, rfl⟩ := mem_updateWhere.mp hj'
    rw [isOf_updateRow hf] at hof
    exact ⟨j, hj, hof, hlive⟩
  · rintro ⟨j, hj, hof, hlive⟩
    exact ⟨_, mem_updateWhere.mpr ⟨j, hj, rfl⟩, by rwa [isOf_updateRow hf], hlive⟩

/-- An update that makes nothing live takes away the live job that it ends. -/
theorem not_live_of_ends (hf : Keeps f) (hrows : t'.rows = updateWhere p f t.rows)
    (hback : ∀ j, p j = true → (f j).isLive = true → j.isLive = true) (hj : j ∈ t.rows)
    (hof : j.isOf r k = true) (hlive : j.isLive = true) (hp : p j = true)
    (hdead : ¬(f j).isLive = true) : ¬Live r k t' := by
  rw [live_updateWhere_iff hf hrows]
  rintro ⟨j', hj', hof', hlive'⟩
  have hbefore : j'.isLive = true := by
    rw [updateRow] at hlive'
    split at hlive'
    case isTrue hp' => exact hback j' hp' hlive'
    case isFalse => exact hlive'
  obtain rfl := eq_of_live hj hj' hof hof' hlive hbefore
  rw [updateRow_of_pos hp] at hlive'
  exact hdead hlive'

theorem live_of_live_update (hf : Keeps f) (hrows : t'.rows = updateWhere p f t.rows)
    (hback : ∀ j, p j = true → (f j).isLive = true → j.isLive = true) (h : Live r k t') :
    Live r k t := by
  obtain ⟨j, hj, hof, hlive⟩ := (live_updateWhere_iff hf hrows).mp h
  rw [updateRow] at hlive
  split at hlive
  case isTrue hp => exact live_iff.mpr ⟨j, hj, hof, hback j hp hlive⟩
  case isFalse => exact live_iff.mpr ⟨j, hj, hof, hlive⟩

theorem live_insert_iff {now : Time} {r' : Uuid} {k' : JobKind} {payload : Payload} {priority : ℤ} :
    Live r k (t.insert now r' k' payload priority).2 ↔ Live r k t ∨ r' = r ∧ k' = k := by
  unfold Jobs.insert
  split
  case isTrue hmet =>
    refine ⟨.inl, fun h => ?_⟩
    obtain h | ⟨rfl, rfl⟩ := h
    · exact h
    · exact hmet
  case isFalse =>
    rw [live_iff, live_iff]
    simp only [List.mem_append, List.mem_singleton]
    constructor
    · rintro ⟨j, hj | rfl, hof, hlive⟩
      · exact .inl ⟨j, hj, hof, hlive⟩
      · rw [Job.isOf_iff] at hof
        exact .inr ⟨Option.some.inj hof.1, hof.2⟩
    · rintro (⟨j, hj, hof, hlive⟩ | ⟨rfl, rfl⟩)
      · exact ⟨j, .inl hj, hof, hlive⟩
      · exact ⟨_, .inr rfl, by simp [Job.isOf, newJob], rfl⟩

/-! ## What each statement does to the live job -/

theorem live_claim {now : Time} {worker : WorkerId} {kinds : List JobKind} :
    Live r k (step t (.claim now worker kinds id)) ↔ Live r k t := by
  rw [step, claimOne]
  split
  · exact Iff.rfl
  · split
    · have hkept : ∀ j : Job, (j.id == id && j.state == .queued) = true → j.isLive = true :=
        fun j hp => Job.isLive_of_queued (eq_of_beq (Bool.and_eq_true_iff.mp hp).2)
      constructor
      · exact live_of_live_update keeps_claimed rfl fun j hp _ => hkept j hp
      · exact live_of_update keeps_claimed rfl fun _ _ _ _ _ _ => Job.isLive_of_running rfl
    · exact Iff.rfl

theorem failWrite_of_lt {now : Time} {error : String} {n m : ℕ} {backoff : Time} (h : n < m) :
    step t (.failWrite now id error n m backoff) =
      (t.failRequeue now id error n backoff).getD t := by
  rw [step, Jobs.failWrite, if_pos h]
  cases t.failRequeue now id error n backoff <;> rfl

theorem failWrite_of_le {now : Time} {error : String} {n m : ℕ} {backoff : Time} (h : m ≤ n) :
    step t (.failWrite now id error n m backoff) = t.failPark now id error n := by
  rw [step, Jobs.failWrite, if_neg (not_lt.mpr h)]
  rfl

/-- A job that goes back to the queue is live, and the others stay what they are. -/
theorem live_tryUpdate (hf : Keeps f) (hqueued : ∀ j, (f j).isLive = true)
    (hrows : t.tryUpdate (fun j => j.id == id) f hf = some t') :
    Live r k t' ↔ Live r k t ∨ ∃ j ∈ t.rows, j.id = id ∧ j.isOf r k = true := by
  rw [live_updateWhere_iff hf (tryUpdate_rows hrows).1, live_iff]
  constructor
  · rintro ⟨j, hj, hof, hlive⟩
    rw [updateRow] at hlive
    split at hlive
    case isTrue hp => exact .inr ⟨j, hj, eq_of_beq hp, hof⟩
    case isFalse => exact .inl ⟨j, hj, hof, hlive⟩
  · rintro (⟨j, hj, hof, hlive⟩ | ⟨j, hj, hid, hof⟩)
    · refine ⟨j, hj, hof, ?_⟩
      rw [updateRow]
      split
      · exact hqueued j
      · exact hlive
    · refine ⟨j, hj, hof, ?_⟩
      rw [updateRow_of_pos (by simpa using hid)]
      exact hqueued j

theorem live_getD {x : Option Jobs} {P : Prop} (h : ∀ t', x = some t' → (Live r k t' ↔ Live r k t ∨ P)) :
    Live r k (x.getD t) ↔ Live r k t ∨ x.isSome = true ∧ P := by
  cases x with
  | none => simp
  | some t' => simpa using h t' rfl

theorem live_requeue {now : Time} {error : String} {n : ℕ} {backoff : Time} :
    Live r k ((t.failRequeue now id error n backoff).getD t) ↔
      Live r k t ∨ (t.failRequeue now id error n backoff).isSome = true ∧
        ∃ j ∈ t.rows, j.id = id ∧ j.isOf r k = true :=
  live_getD fun _ => live_tryUpdate keeps_requeued fun _ => rfl

theorem live_defer {now : Time} {note : String} {delay : Time} :
    Live r k ((t.defer now id note delay).getD t) ↔
      Live r k t ∨ (t.defer now id note delay).isSome = true ∧
        ∃ j ∈ t.rows, j.id = id ∧ j.isOf r k = true :=
  live_getD fun _ => live_tryUpdate keeps_deferred fun _ => rfl

/-- What an update of row `id` to a finished state does. -/
theorem finish_live (hf : Keeps f) (hrows : t'.rows = updateWhere (fun j => j.id == id) f t.rows)
    (hdead : ∀ j, ¬(f j).isLive = true) :
    Live r k t' ↔
      Live r k t ∧ ¬∃ j ∈ t.rows, j.id = id ∧ j.isOf r k = true ∧ j.isLive = true := by
  constructor
  · intro h
    refine ⟨live_of_live_update hf hrows (fun j _ hlive => absurd hlive (hdead j)) h, ?_⟩
    rintro ⟨j, hj, hid, hof, hlive⟩
    exact not_live_of_ends hf hrows (fun j _ hlive => absurd hlive (hdead j)) hj hof hlive
      (beq_iff_eq.mpr hid) (hdead j) h
  · rintro ⟨h, hnot⟩
    apply live_of_update hf hrows _ h
    intro j hj hp hr hk hlive
    exact absurd ⟨j, hj, eq_of_beq hp, Job.isOf_iff.mpr ⟨hr, hk⟩, hlive⟩ hnot

theorem live_complete {now : Time} : Live r k (t.complete now id) ↔
    Live r k t ∧ ¬∃ j ∈ t.rows, j.id = id ∧ j.isOf r k = true ∧ j.isLive = true :=
  finish_live keeps_completed rfl fun _ => Job.not_isLive_of_done rfl

theorem live_park {now : Time} {error : String} {n : ℕ} :
    Live r k (t.failPark now id error n) ↔
      Live r k t ∧ ¬∃ j ∈ t.rows, j.id = id ∧ j.isOf r k = true ∧ j.isLive = true :=
  finish_live keeps_parked rfl fun _ => Job.not_isLive_of_failed rfl

theorem isLive_of_stuck {now olderThan : Time} (h : stuck now olderThan j = true) :
    j.isLive = true :=
  Job.isLive_of_running (eq_of_beq (Bool.and_eq_true_iff.mp h).1)

theorem isLive_reaped {now : Time} {m : ℕ} :
    (reaped now m j).isLive = true ↔ exhausted m j = false := by
  rw [Job.isLive_iff, reaped]
  cases exhausted m j <;> simp

theorem live_reap {now olderThan : Time} {m : ℕ} : Live r k (t.reapStuck now olderThan m) ↔
    Live r k t ∧ ¬∃ j ∈ t.rows,
      j.isOf r k = true ∧ stuck now olderThan j = true ∧ exhausted m j = true := by
  have hback : ∀ j, stuck now olderThan j = true → (reaped now m j).isLive = true →
      j.isLive = true := fun j hstuck _ => isLive_of_stuck hstuck
  constructor
  · intro h
    refine ⟨live_of_live_update keeps_reaped rfl hback h, ?_⟩
    rintro ⟨j, hj, hof, hstuck, hex⟩
    have hdead : ¬(reaped now m j).isLive = true := by rw [isLive_reaped, hex]; simp
    exact not_live_of_ends keeps_reaped rfl hback hj hof (isLive_of_stuck hstuck) hstuck hdead h
  · rintro ⟨h, hnot⟩
    apply live_of_update keeps_reaped rfl _ h
    intro j hj hstuck hr hk _
    rw [isLive_reaped, ← Bool.not_eq_true]
    exact fun hex => hnot ⟨j, hj, Job.isOf_iff.mpr ⟨hr, hk⟩, hstuck, hex⟩

/-- The live job is taken away and put back by exactly the statements named. -/
theorem flag_live (r : Uuid) (k : JobKind) : Flag step (Live r k) (Ends r k) (Starts r k) where
  stays t e h hnot := by
    cases e with
    | claim => exact live_claim.mpr h
    | complete => exact live_complete.mpr ⟨h, hnot⟩
    | failWrite now id error n m backoff =>
      by_cases hlt : n < m
      · rw [failWrite_of_lt hlt, live_requeue]
        exact .inl h
      · rw [failWrite_of_le (not_lt.mp hlt), live_park]
        exact ⟨h, fun hj => hnot ⟨not_lt.mp hlt, hj⟩⟩
    | defer => exact live_defer.mpr (.inl h)
    | reap => exact live_reap.mpr ⟨h, hnot⟩
    | insert => exact live_insert_iff.mpr (.inl h)
  falls t e hends h := by
    cases e with
    | claim | defer | insert => exact hends
    | complete => exact (live_complete.mp h).2 hends
    | failWrite now id error n m backoff =>
      rw [failWrite_of_le hends.1, live_park] at h
      exact h.2 hends.2
    | reap => exact (live_reap.mp h).2 hends
  rises t e hstarts := by
    cases e with
    | claim | complete | reap => exact hstarts.elim
    | failWrite now id error n m backoff =>
      rw [failWrite_of_lt hstarts.1, live_requeue]
      exact .inr hstarts.2
    | defer => exact live_defer.mpr (.inr hstarts)
    | insert => exact live_insert_iff.mpr (.inr hstarts)
  up_of t e hnot h := by
    cases e with
    | claim => exact absurd (live_claim.mp h) hnot
    | complete => exact absurd (live_complete.mp h).1 hnot
    | failWrite now id error n m backoff =>
      by_cases hlt : n < m
      · rw [failWrite_of_lt hlt, live_requeue] at h
        exact ⟨hlt, h.resolve_left hnot⟩
      · rw [failWrite_of_le (not_lt.mp hlt), live_park] at h
        exact absurd h.1 hnot
    | defer => exact (live_defer.mp h).resolve_left hnot
    | reap => exact absurd (live_reap.mp h).1 hnot
    | insert => exact (live_insert_iff.mp h).resolve_left hnot

/-! ## The call -/

variable {now : Time} {payload : Payload} {priority : ℤ} {between : List Other}

theorem liveJob_spec {job : Job} (h : t.liveJob r k = some job) :
    job ∈ t.rows ∧ job.isOf r k = true ∧ job.isLive = true := by
  have hjob := List.find?_some h
  rw [Bool.and_eq_true] at hjob
  exact ⟨List.mem_of_find?_eq_some h, hjob.1, hjob.2⟩

theorem exists_liveJob (h : Live r k t) : ∃ job, t.liveJob r k = some job := by
  obtain ⟨j, hj, hof, hlive⟩ := live_iff.mp h
  rw [← Option.isSome_iff_exists, liveJob, List.find?_isSome]
  exact ⟨j, hj, by rw [hof, hlive]; rfl⟩

theorem insert_of_live (h : Live r k t) : (t.insert now r k payload priority).1 = none := by
  unfold Jobs.insert
  rw [dif_pos (show t.has r k Job.isLive = true from h)]

theorem insert_of_not_live (h : ¬Live r k t) : ∃ job,
    (t.insert now r k payload priority).1 = some job ∧ job.isOf r k = true ∧ job.isLive = true ∧
      job ∈ (t.insert now r k payload priority).2.rows := by
  unfold Jobs.insert
  rw [dif_neg (show ¬t.has r k Job.isLive = true from h)]
  exact ⟨_, rfl, by simp [Job.isOf, newJob], rfl, List.mem_append_right _ (List.mem_singleton_self _)⟩

theorem enqueueWithPriority_of_some {job : Job}
    (h : (t.insert now r k payload priority).1 = some job) :
    enqueueWithPriority now r k payload priority between t = some job := by
  rw [enqueueWithPriority]
  split
  case h_1 job' t' heq =>
    rw [heq] at h
    exact h
  case h_2 t' heq =>
    rw [heq] at h
    cases h

theorem enqueueWithPriority_of_none (h : (t.insert now r k payload priority).1 = none) :
    enqueueWithPriority now r k payload priority between t =
      (between.foldl step (t.insert now r k payload priority).2).liveJob r k := by
  rw [enqueueWithPriority]
  split
  case h_1 job' t' heq =>
    rw [heq] at h
    cases h
  case h_2 t' heq => rw [heq]

/-- The call returns a job exactly if it inserts one, or every statement that ends the live job
before its `SELECT` is followed by one that leaves another. -/
theorem returns_iff (now : Time) (r : Uuid) (k : JobKind) (payload : Payload) (priority : ℤ)
    (between : List Other) (t : Jobs) :
    Returns now r k payload priority between t ↔
      t.has r k Job.isLive = false ∨
        Answered step (Ends r k) (Starts r k) (t.insert now r k payload priority).2 between := by
  by_cases hlive : Live r k t
  · have hnone := @insert_of_live r k t now payload priority hlive
    have hmet : Live r k (t.insert now r k payload priority).2 := live_insert_iff.mpr (.inl hlive)
    have hflag := @(flag_live r k).foldl_iff _ _ _ _ _ _ _ between hmet
    rw [← hflag, show t.has r k Job.isLive = true from hlive]
    constructor
    · rintro ⟨job, hjob, -⟩
      rw [enqueueWithPriority_of_none hnone] at hjob
      exact .inr (live_iff.mpr ⟨job, liveJob_spec hjob⟩)
    · intro h
      obtain ⟨job, hjob⟩ := exists_liveJob (h.resolve_left (by simp))
      obtain ⟨hmem, hof, hjlive⟩ := liveJob_spec hjob
      exact ⟨job, (enqueueWithPriority_of_none hnone).trans hjob, hof, hjlive, between,
        List.prefix_refl _, hmem⟩
  · obtain ⟨job, hjob, hof, hjlive, hmem⟩ := @insert_of_not_live r k t now payload priority hlive
    apply iff_of_true
    · exact ⟨job, enqueueWithPriority_of_some hjob, hof, hjlive, [], List.nil_prefix, hmem⟩
    · exact .inl (Bool.eq_false_iff.mpr hlive)

/-- The live job finishes between the two statements. -/
theorem not_returns :
    ¬∀ (now : Time) (r : Uuid) (k : JobKind) (payload : Payload) (priority : ℤ)
      (between : List Other) (t : Jobs), Returns now r k payload priority between t := by
  intro h
  obtain ⟨job, hjob, -⟩ := h 3 1 .merge {} 0 [.complete 2 1] (Jobs.empty.insert 1 1 .merge {} 0).2
  have hnone : enqueueWithPriority 3 1 .merge {} 0 [.complete 2 1]
      (Jobs.empty.insert 1 1 .merge {} 0).2 = none := by decide
  rw [hnone] at hjob
  cases hjob

end ScribeLocal.Enqueue
