import Mathlib.Data.List.Sort
import ScribeLocal.Core.Types
import ScribeLocal.Table

/-!
# The recordings kept on the phone

The list is written to the manifest at every change, so what is in memory is also what a
relaunch finds.
-/
namespace ScribeLocal.Phone
open Table

/-- The id a recording has on the phone. -/
abbrev LocalId := ℕ

/-- A closed segment. Its file is named after its number. -/
structure Segment where
  seq : ℕ
  startMs : ℤ
  durationMs : ℤ
  uploaded : Bool
  deriving DecidableEq

structure LocalRecording where
  id : LocalId
  serverId : Option Uuid
  createdAt : ℕ
  segments : List Segment
  marks : List ℤ
  durationMs : ℤ
  /-- Recording has stopped; once every segment is up, the server is told. -/
  finished : Bool
  /-- The server has been told the recording is complete. -/
  completed : Bool
  deriving DecidableEq

namespace LocalRecording

def pending (r : LocalRecording) : List Segment := r.segments.filter fun g => !g.uploaded

/-- Something is left to do for the upload queue. -/
def hasWork (r : LocalRecording) : Bool :=
  0 < r.pending.length || (r.finished && !r.completed) || r.serverId.isNone

/-- The marks that `complete` sends. -/
def sentMarks (r : LocalRecording) : Option (List ℤ) := if r.marks.isEmpty then none else some r.marks

/-- The segments still to send, in order. -/
def toSend (r : LocalRecording) : List Segment :=
  (r.segments.insertionSort fun g h => g.seq ≤ h.seq).filter fun g => !g.uploaded

end LocalRecording

abbrev Store := List LocalRecording

namespace Store

def get (items : Store) (id : LocalId) : Option LocalRecording := items.find? fun r => r.id == id

/-- Ids are unique, so the first recording with the id is every one. -/
def update (items : Store) (id : LocalId) (change : LocalRecording → LocalRecording) : Store :=
  updateWhere (fun r => r.id == id) change items

def remove (items : Store) (id : LocalId) : Store := deleteWhere (fun r => r.id == id) items

/-- The oldest recording with something left to do. -/
def nextWork (items : Store) : Option LocalId :=
  ((items.insertionSort fun a b => a.createdAt ≤ b.createdAt).find? LocalRecording.hasWork).map
    LocalRecording.id

end Store

/-! ## Changes -/

def addSegment (g : Segment) (r : LocalRecording) : LocalRecording :=
  { r with segments := r.segments ++ [g] }

def addMark (ms : ℤ) (r : LocalRecording) : LocalRecording := { r with marks := r.marks ++ [ms] }

def setFinished (totalMs : ℤ) (r : LocalRecording) : LocalRecording :=
  { r with finished := true, durationMs := totalMs }

def setServerId (sid : Uuid) (r : LocalRecording) : LocalRecording := { r with serverId := some sid }

def markUploaded (seq : ℕ) (r : LocalRecording) : LocalRecording :=
  let up (g : Segment) : Segment := { g with uploaded := true }
  { r with segments := updateWhere (fun g => g.seq == seq) up r.segments }

def markCompleted (r : LocalRecording) : LocalRecording := { r with completed := true }

/-! ## Lookups -/

variable {items : Store} {id : LocalId} {r : LocalRecording} {change : LocalRecording → LocalRecording}

theorem get_eq_some (h : items.get id = some r) : r ∈ items ∧ r.id = id :=
  ⟨List.mem_of_find?_eq_some h, by simpa using List.find?_some h⟩

theorem mem_remove : r ∈ items.remove id ↔ r ∈ items ∧ r.id ≠ id := by
  simp [Store.remove, mem_deleteWhere]

/-- A recording after an update is an old one, changed if it has the id. -/
theorem mem_update : r ∈ items.update id change ↔
    ∃ old ∈ items, r = if old.id = id then change old else old := by
  simp only [Store.update, mem_updateWhere, updateRow, beq_iff_eq]
  constructor
  · rintro ⟨old, hold, heq⟩
    exact ⟨old, hold, heq.symm⟩
  · rintro ⟨old, hold, heq⟩
    exact ⟨old, hold, heq.symm⟩

/-- The queue finds nothing to do when no recording has work left. -/
theorem nextWork_eq_none : items.nextWork = none ↔ ∀ r ∈ items, r.hasWork = false := by
  simp [Store.nextWork, List.mem_insertionSort]

theorem nextWork_eq_some (h : items.nextWork = some id) :
    ∃ r ∈ items, r.id = id ∧ r.hasWork = true := by
  rcases Option.map_eq_some_iff.mp h with ⟨r, hr, rfl⟩
  exact ⟨r, (List.mem_insertionSort _).mp (List.mem_of_find?_eq_some hr), rfl, List.find?_some hr⟩

end ScribeLocal.Phone
