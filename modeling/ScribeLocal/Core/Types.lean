import Mathlib.Tactic

/-! # The domain model: recording status, the stage DAG and rows of the work queue -/

namespace ScribeLocal

abbrev Uuid := ℕ
abbrev JobId := ℕ
abbrev WorkerId := ℕ
/-- Database time, in microseconds. -/
abbrev Time := ℕ

/-- Lifecycle of a captured meeting. -/
inductive RecordingStatus where
  | uploading
  | processing
  | ready
  | failed
  deriving DecidableEq, Repr

/-- A pipeline stage. `transcribeSegment` is the live side-channel. -/
inductive JobKind where
  | transcode
  | diarize
  | transcribe
  | merge
  | embed
  | summarize
  | transcribeSegment
  deriving DecidableEq, Repr

namespace JobKind

/-- Every kind a worker can claim. -/
def all : List JobKind :=
  [transcode, diarize, transcribe, merge, embed, summarize, transcribeSegment]

/-- Only live transcription ignores the processing schedule. -/
def bypassesSchedule : JobKind → Bool
  | transcribeSegment => true
  | _ => false

/-- The stages that must complete before this one can run. -/
def predecessors : JobKind → List JobKind
  | transcode => []
  | diarize => [transcode]
  | transcribe => [transcode]
  | merge => [diarize, transcribe]
  | embed => [merge]
  | summarize => [merge]
  | transcribeSegment => []

/-- The stages to enqueue once this one finishes. -/
def successors : JobKind → List JobKind
  | transcode => [diarize, transcribe]
  | diarize => [merge]
  | transcribe => [merge]
  | merge => [embed, summarize]
  | embed => []
  | summarize => []
  | transcribeSegment => []

/-- The six kinds of the `complete`-time DAG, as `PIPELINE_STAGES` lists them. -/
def pipelineStages : List JobKind := [transcode, diarize, transcribe, merge, embed, summarize]

def isPipeline (k : JobKind) : Bool := k != transcribeSegment

/-- Depth in the DAG. -/
def depth : JobKind → ℕ
  | transcode => 0
  | diarize | transcribe => 1
  | merge => 2
  | embed | summarize => 3
  | transcribeSegment => 0

/-- The two edge tables describe one graph. -/
theorem mem_successors {p k : JobKind} : k ∈ p.successors ↔ p ∈ k.predecessors := by
  cases p <;> cases k <;> decide

theorem depth_lt_of_mem_predecessors {p k : JobKind} (h : p ∈ k.predecessors) :
    p.depth < k.depth := by
  cases p <;> cases k <;> revert h <;> decide

theorem isPipeline_of_mem_predecessors {p k : JobKind} (h : p ∈ k.predecessors) :
    p.isPipeline ∧ k.isPipeline := by
  cases p <;> cases k <;> revert h <;> decide

theorem mem_pipelineStages {k : JobKind} : k ∈ pipelineStages ↔ k.isPipeline = true := by
  cases k <;> decide

end JobKind

/-- Queue state of a job. -/
inductive JobState where
  | queued
  | running
  | done
  | failed
  deriving DecidableEq, Repr

/-- The keys a job's jsonb payload may carry. -/
structure Payload where
  template : Option String := none
  reindex : Bool := false
  deriving DecidableEq, Repr

/-- A row of the work queue. -/
structure Job where
  id : JobId
  recordingId : Option Uuid
  kind : JobKind
  state : JobState
  priority : ℤ
  attempts : ℕ
  runAfter : Time
  lockedBy : Option WorkerId
  lockedAt : Option Time
  payload : Payload
  error : Option String
  createdAt : Time
  updatedAt : Time
  deriving DecidableEq, Repr

namespace Job

/-- The predicate of the partial unique index: `state IN ('queued','running')`. -/
def isLive (j : Job) : Bool := j.state == .queued || j.state == .running

/-- `j` belongs to recording `r` and is of kind `k`. -/
def isOf (j : Job) (r : Uuid) (k : JobKind) : Bool := j.recordingId == some r && j.kind == k

/-- Two rows the index `(recording_id, kind) WHERE live` would refuse together. -/
def Collides (a b : Job) : Prop :=
  a.isLive = true ∧ b.isLive = true ∧ a.kind = b.kind ∧
    ∃ r, a.recordingId = some r ∧ b.recordingId = some r

theorem isLive_iff {j : Job} : j.isLive = true ↔ j.state = .queued ∨ j.state = .running := by
  simp [isLive]

theorem isLive_of_queued {j : Job} (h : j.state = .queued) : j.isLive = true := isLive_iff.mpr (.inl h)

theorem isLive_of_running {j : Job} (h : j.state = .running) : j.isLive = true :=
  isLive_iff.mpr (.inr h)

theorem not_isLive_of_done {j : Job} (h : j.state = .done) : ¬ j.isLive = true := by
  simp [isLive, h]

theorem not_isLive_of_failed {j : Job} (h : j.state = .failed) : ¬ j.isLive = true := by
  simp [isLive, h]

theorem isOf_iff {j : Job} {r : Uuid} {k : JobKind} :
    j.isOf r k = true ↔ j.recordingId = some r ∧ j.kind = k := by
  simp [isOf]

theorem Collides.symm {a b : Job} (h : a.Collides b) : b.Collides a := by
  obtain ⟨ha, hb, hk, r, har, hbr⟩ := h
  exact ⟨hb, ha, hk.symm, r, hbr, har⟩

instance (a b : Job) : Decidable (a.Collides b) :=
  decidable_of_iff (a.isLive = true ∧ b.isLive = true ∧ a.kind = b.kind ∧
      a.recordingId.isSome = true ∧ a.recordingId = b.recordingId) (by
    constructor
    · rintro ⟨ha, hb, hk, hs, hr⟩
      obtain ⟨r, har⟩ := Option.isSome_iff_exists.mp hs
      exact ⟨ha, hb, hk, r, har, hr ▸ har⟩
    · rintro ⟨ha, hb, hk, r, har, hbr⟩
      exact ⟨ha, hb, hk, by simp [har], har.trans hbr.symm⟩)

end Job

end ScribeLocal
