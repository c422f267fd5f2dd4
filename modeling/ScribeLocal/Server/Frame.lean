import ScribeLocal.Server.Snapshot

/-! # What one step means for one recording

Seen from one recording, a step does one of a few things to its jobs, to its status
and to the commands that still have to move it on. `Effect` lists them once; what
holds of the pipeline over whole runs is read off that list.
-/
namespace ScribeLocal.Server
open Table Jobs Transition

variable {cfg : Config} {keep : Bool} {r : Uuid} {s s' : Sys} {a : Label} {k : JobKind}

/-- A live job of this kind exists. -/
def Live (s : Sys) (r : Uuid) (k : JobKind) : Prop := s.db.jobs.has r k Job.isLive = true

/-- A done job of this kind exists. -/
def Done (s : Sys) (r : Uuid) (k : JobKind) : Prop :=
  s.db.jobs.has r k (fun j => j.state == .done) = true

/-- Commands that move a recording through the pipeline. -/
def Cmd.drives (r : Uuid) : Cmd → Prop
  | .insertJob r' _ _ _ | .succ r' _ | .maybeMarkReady r' | .markReady r' | .parkRecording r' =>
    r' = r
  | _ => False

/-- What a process still has to do; with `keep`, also what an ended one left undone. -/
def Proc.pending (keep : Bool) : Proc → List Cmd
  | .todo cs => cs
  | .ended _ left => if keep then left else []
  | _ => []

def Pending (keep : Bool) (s : Sys) (c : Cmd) : Prop := ∃ i, c ∈ (s.procs i).pending keep

/-- Nothing is lost but jobs of the kinds `x` and the commands `lost`. -/
structure Frame (keep : Bool) (r : Uuid) (s s' : Sys) (x : JobKind → Prop) (lost : Cmd → Prop) :
    Prop where
  live : ∀ k, Live s r k → Live s' r k ∨ x k
  done : ∀ k, Done s r k → Done s' r k ∨ Live s' r k
  done_new : ∀ k, Done s' r k → Done s r k ∨ x k
  pend : ∀ c, c.drives r → Pending keep s c → Pending keep s' c ∨ lost c

/-- What a step can mean for recording `r`. -/
inductive Effect (cfg : Config) (keep : Bool) (r : Uuid) (s : Sys) (a : Label) (s' : Sys) : Prop
  | quiet (hframe : Frame keep r s s' (fun _ => False) (fun _ => False))
      (hstatus : s'.db.status r = s.db.status r)
  | checked (k : JobKind) (hframe : Frame keep r s s' (fun _ => False) (· = .succ r k))
      (hstatus : s'.db.status r = s.db.status r)
      (hout : Pending keep s' (enqueue r k {}) ∨ ∃ p ∈ k.predecessors, ¬ Done s r p)
  | inserted (k : JobKind) (payload : Payload) (strict : Bool)
      (hframe : Frame keep r s s' (fun _ => False) (· = .insertJob r k payload strict))
      (hstatus : s'.db.status r = s.db.status r) (hlive : Live s' r k)
  | counted (hframe : Frame keep r s s' (fun _ => False) (· = .maybeMarkReady r))
      (hstatus : s'.db.status r = s.db.status r)
      (hout : Pending keep s' (.markReady r) ∨ ¬ (Done s r .embed ∧ Done s r .summarize))
  | readied (hframe : Frame keep r s s' (fun _ => False) (· = .markReady r))
      (hstatus : s'.db.status r = some .ready)
  | parked (hpend : Pending false s (.parkRecording r)) (hstatus : s'.db.status r = some .failed)
  | failed (hpend : Pending keep s' (.parkRecording r))
      (hstatus : s'.db.status r = s.db.status r)
  | completed (k : JobKind) (hframe : Frame keep r s s' (· = k) (fun _ => False))
      (hstatus : s'.db.status r = s.db.status r) (hdone : Done s' r k)
      (hsucc : ∀ y ∈ k.successors, Pending keep s' (.succ r y))
      (hready : k = .embed ∨ k = .summarize → Pending keep s' (.maybeMarkReady r))
  | restarted (hpend : Pending keep s' (enqueue r .transcode {}))
      (hstatus : s'.db.status r = some .processing)
  | rediarized (i : ℕ) (x : Heard) (rest : List Cmd) (hlabel : a = .step i x)
      (hproc : s.procs i = .todo (.resetForRediarize r :: rest))
      (htranscript : (s.db.content.transcript r).isSome = true)
      (hpend : Pending keep s' (enqueue r .diarize {}))
      (hstatus : s'.db.status r = some .processing)
      (hlive : ∀ k, k = .transcode ∨ k = .transcribe → Live s r k → Live s' r k)
      (hdone : ∀ k, k = .transcode ∨ k = .transcribe → Done s r k → Done s' r k)
  | cut (i : ℕ) (c : Cmd) (rest : List Cmd) (hproc : s.procs i = .todo (c :: rest))
      (hframe : Frame keep r s s' (fun _ => False) (fun c' => keep = false ∧ c' ∈ rest))
      (hstatus : s'.db.status r = s.db.status r)
      (hflow : ∃ x, ∀ cs, (c.exec cfg x s.db).2 ≠ .next cs)
  | unknown (hstatus : s.db.status r = none) (hstatus' : s'.db.status r ≠ some .processing)

/-! ## The jobs table -/

/-- What `Frame` says of the jobs table. -/
structure JobsFrame (r : Uuid) (t t' : Jobs) (x : JobKind → Prop) : Prop where
  live : ∀ k, t.has r k Job.isLive = true → t'.has r k Job.isLive = true ∨ x k
  done : ∀ k, t.has r k (fun j => j.state == .done) = true →
    t'.has r k (fun j => j.state == .done) = true ∨ t'.has r k Job.isLive = true
  done_new : ∀ k, t'.has r k (fun j => j.state == .done) = true →
    t.has r k (fun j => j.state == .done) = true ∨ x k

section Table
variable {t t' : Jobs} {p : Job → Bool} {f : Job → Job} {x : JobKind → Prop} {now : Time}

theorem jobsFrame_of_rows (h : t'.rows = t.rows) : JobsFrame r t t' x := by
  have heq (k : JobKind) (q : Job → Bool) : t'.has r k q = t.has r k q := by rw [has, h, has]
  constructor <;> intro k <;> rw [heq] <;> exact .inl

theorem jobsFrame_refl : JobsFrame r t t x := jobsFrame_of_rows rfl

theorem jobsFrame_update (hf : Keeps f) (hrows : t'.rows = updateWhere p f t.rows)
    (h : ∀ j ∈ t.rows, p j = true → j.recordingId = some r →
      (j.isLive = true → (f j).isLive = true ∨ x j.kind) ∧
      (j.state = .done → (f j).state = .done ∨ (f j).isLive = true) ∧
      ((f j).state = .done → j.state = .done ∨ x j.kind)) : JobsFrame r t t' x := by
  have hmem {j : Job} (hj : j ∈ t.rows) : updateRow p f j ∈ t'.rows := by
    rw [hrows]
    exact mem_updateWhere.mpr ⟨j, hj, rfl⟩
  have hcols {j : Job} {k : JobKind} (hk : j.recordingId = some r ∧ j.kind = k) :
      (updateRow p f j).recordingId = some r ∧ (updateRow p f j).kind = k :=
    ⟨(column_updateRow hf.recordingId j).trans hk.1, (column_updateRow hf.kind j).trans hk.2⟩
  constructor
  · intro k hlive
    rcases has_iff.mp hlive with ⟨j, hj, hk, hl⟩
    by_cases hp : p j = true
    · rcases (h j hj hp hk.1).1 hl with hl' | hx
      · exact .inl (has_iff.mpr ⟨_, hmem hj, hcols hk, by rwa [updateRow_of_pos hp]⟩)
      · exact .inr (hk.2 ▸ hx)
    · rw [Bool.not_eq_true] at hp
      exact .inl (has_iff.mpr ⟨_, hmem hj, hcols hk, by rwa [updateRow_of_neg hp]⟩)
  · intro k hdone
    rcases has_iff.mp hdone with ⟨j, hj, hk, hd⟩
    by_cases hp : p j = true
    · rcases (h j hj hp hk.1).2.1 (eq_of_beq hd) with hd' | hl'
      · exact .inl (has_iff.mpr ⟨_, hmem hj, hcols hk, by simp [updateRow_of_pos hp, hd']⟩)
      · exact .inr (has_iff.mpr ⟨_, hmem hj, hcols hk, by rwa [updateRow_of_pos hp]⟩)
    · rw [Bool.not_eq_true] at hp
      exact .inl (has_iff.mpr ⟨_, hmem hj, hcols hk, by rwa [updateRow_of_neg hp]⟩)
  · intro k hdone
    rcases has_iff.mp hdone with ⟨j', hj', hk', hd⟩
    rw [hrows] at hj'
    rcases mem_updateWhere.mp hj' with ⟨j, hj, rfl⟩
    rw [column_updateRow hf.recordingId, column_updateRow hf.kind] at hk'
    by_cases hp : p j = true
    · rw [updateRow_of_pos hp] at hd
      rcases (h j hj hp hk'.1).2.2 (eq_of_beq hd) with hd' | hx
      · exact .inl (has_iff.mpr ⟨j, hj, hk', by simp [hd']⟩)
      · exact .inr (hk'.2 ▸ hx)
    · rw [Bool.not_eq_true] at hp
      rw [updateRow_of_neg hp] at hd
      exact .inl (has_iff.mpr ⟨j, hj, hk', hd⟩)

/-- A row that goes back to the queue takes nothing from the recording. -/
theorem jobsFrame_requeue (hf : Keeps f) (hrows : t'.rows = updateWhere p f t.rows)
    (h : ∀ j ∈ t.rows, p j = true → j.recordingId = some r → (f j).state = .queued) :
    JobsFrame r t t' x := by
  apply jobsFrame_update hf hrows
  intro j hj hp hr
  have hq := h j hj hp hr
  exact ⟨fun _ => .inl (Job.isLive_of_queued hq), fun _ => .inr (Job.isLive_of_queued hq),
    fun hd => by rw [hq] at hd; cases hd⟩

theorem jobsFrame_delete (h : ∀ j, p j = true → j.recordingId ≠ some r) :
    JobsFrame r t (t.delete p) x := by
  have hkeep {k : JobKind} {q : Job → Bool} (hq : t.has r k q = true) :
      (t.delete p).has r k q = true := by
    rcases has_iff.mp hq with ⟨j, hj, hk, hqj⟩
    have hp : p j = false := by
      by_contra hp
      exact h j (by simpa using hp) hk.1
    exact has_iff.mpr ⟨j, mem_deleteWhere.mpr ⟨hj, hp⟩, hk, hqj⟩
  refine ⟨fun _ h => .inl (hkeep h), fun _ h => .inl (hkeep h), fun k hd => .inl ?_⟩
  rcases has_iff.mp hd with ⟨j, hj, hk, hqj⟩
  exact has_iff.mpr ⟨j, (mem_deleteWhere.mp hj).1, hk, hqj⟩

/-- After an insert, fresh or refused, a live job of the kind exists. -/
theorem jobsFrame_insert {r' : Uuid} {k : JobKind} {payload : Payload} {priority : ℤ} :
    JobsFrame r t (t.insert now r' k payload priority).2 x ∧
      (t.insert now r' k payload priority).2.has r' k Job.isLive = true := by
  unfold Jobs.insert
  split
  · rename_i hlive
    exact ⟨jobsFrame_of_rows rfl, hlive⟩
  · have hkeep {t' : Jobs} {k' : JobKind} {q : Job → Bool}
        (hrows : t'.rows = t.rows ++ [newJob now t.nextId r' k payload priority])
        (hq : t.has r k' q = true) : t'.has r k' q = true := by
      rcases has_iff.mp hq with ⟨j, hj, hk, hqj⟩
      exact has_iff.mpr ⟨j, by simp [hrows, hj], hk, hqj⟩
    constructor
    · refine ⟨fun _ h => .inl (hkeep rfl h), fun _ h => .inl (hkeep rfl h), fun k' hd => .inl ?_⟩
      rcases has_iff.mp hd with ⟨j, hj, hk, hqj⟩
      rcases List.mem_append.mp hj with hj | hj
      · exact has_iff.mpr ⟨j, hj, hk, hqj⟩
      · rw [List.mem_singleton.mp hj] at hqj
        cases hqj
    · exact has_iff.mpr ⟨newJob now t.nextId r' k payload priority, by simp, ⟨rfl, rfl⟩, rfl⟩

end Table

end ScribeLocal.Server
