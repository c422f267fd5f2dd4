import ScribeLocal.Phone.Store
import ScribeLocal.Transition

/-!
# The phone: the recorder, the recording session and the upload queue

Everything but the store and the audio files is in memory only: a kill takes it away
between any two writes. A change made off the main thread is a block on the main queue.
-/
namespace ScribeLocal.Phone
open Table

inductive Phase where
  /-- `start` has added the recording and the recorder is being started. -/
  | starting
  | recording
  | paused
  | interrupted
  deriving DecidableEq

/-- The recording in progress and its recorder; frames are counted at 16 kHz. -/
structure Session where
  id : LocalId
  phase : Phase
  /-- Number of the file being written, if one is open. -/
  seq : ℕ
  fileOpen : Bool
  fileStart : ℕ
  frames : ℕ
  paused : Bool
  deriving DecidableEq

/-- `isActive` -/
def Session.isActive (s : Session) : Bool := s.phase != .starting

def segmentFrames : ℕ := 480000

/-- `Int(Double(frames) / sampleRate * 1000)` -/
def framesMs (frames : ℕ) : ℤ := (Float.ofNat frames / 16000 * 1000).toInt64.toInt

/-- The segment that closing the file saves; a file without audio is deleted. -/
def Session.closed (s : Session) : Option Segment :=
  if s.fileOpen && s.fileStart < s.frames then
    some ⟨s.seq, framesMs s.fileStart, framesMs (s.frames - s.fileStart), false⟩
  else none

/-- A change queued on the main thread. -/
inductive Block where
  | save (id : LocalId) (g : Segment)
  | finish (id : LocalId) (totalMs : ℤ)
  deriving DecidableEq

/-- Where `process` stands; `delete`, `create`, `put` and `complete` wait for a reply. -/
inductive Task where
  | idle
  | begin (id : LocalId)
  | delete (id : LocalId) (sid : Uuid)
  | discard (id : LocalId)
  | create (id : LocalId) (segs : List Segment)
  | created (id : LocalId) (sid : Uuid) (segs : List Segment)
  | upload (id : LocalId) (sid : Uuid) (segs : List Segment)
  | put (id : LocalId) (sid : Uuid) (g : Segment) (rest : List Segment)
  | uploaded (id : LocalId) (sid : Uuid) (g : Segment) (rest : List Segment)
  | unlink (id : LocalId) (sid : Uuid) (g : Segment) (rest : List Segment)
  | complete (id : LocalId) (sid : Uuid) (durationMs : ℤ) (marks : Option (List ℤ))
  | completed (id : LocalId)
  | remove (id : LocalId)
  | clear (id : LocalId)
  deriving DecidableEq

structure App where
  items : Store
  /-- The closed segment files on disk. -/
  files : List (LocalId × ℕ)
  /-- The next `UUID()`. -/
  nextId : LocalId
  session : Option Session
  queue : List Block
  task : Task

def App.start : App := ⟨[], [], 0, none, [], .idle⟩

/-! ## Talking to the server -/

inductive Call where
  | create
  | put (sid : Uuid) (seq : ℕ) (startMs durationMs : ℤ)
  | complete (sid : Uuid) (durationMs : ℤ) (marks : Option (List ℤ))
  | delete (sid : Uuid)
  deriving DecidableEq

/-- How a call ends: with success and the recording it is about, with an error status, or
without any answer. -/
inductive Reply where
  | ok (sid : Uuid)
  | error (status : ℕ)
  | lost
  deriving DecidableEq

/-- The call `process` is waiting for. -/
def Task.call? : Task → Option Call
  | .delete _ sid => some (.delete sid)
  | .create _ _ => some .create
  | .put _ sid g _ => some (.put sid g.seq g.startMs g.durationMs)
  | .complete _ sid durationMs marks => some (.complete sid durationMs marks)
  | _ => none

/-- `process` after the reply; an error is thrown to `drain`, which tries again later. -/
def Task.reply : Task → Reply → Option Task
  | .delete id _, _ => some (.discard id)
  | .create id segs, .ok sid => some (.created id sid segs)
  | .create _ _, _ => some .idle
  | .put id sid g rest, .ok _ => some (.uploaded id sid g rest)
  | .put _ _ _ _, _ => some .idle
  | .complete id _ _ _, .ok _ => some (.completed id)
  -- already complete: a previous attempt got through before the reply was lost
  | .complete id _ _ _, .error 409 => some (.completed id)
  | .complete _ _ _ _, _ => some .idle
  | _, _ => none

/-! ## Steps -/

/-- The next statement of `process`. -/
def App.work (s : App) : Option App :=
  match s.task with
  | .begin id =>
    match s.items.get id with
    | none => some { s with task := .idle }
    | some rec =>
      if rec.finished && rec.segments.isEmpty then
        some { s with task := (rec.serverId.map (Task.delete id)).getD (.discard id) }
      else match rec.serverId with
        | none => some { s with task := .create id rec.toSend }
        | some sid => some { s with task := .upload id sid rec.toSend }
  | .discard id => some { s with items := s.items.remove id, task := .clear id }
  | .created id sid segs =>
    some { s with items := s.items.update id (setServerId sid), task := .upload id sid segs }
  | .upload id sid (g :: rest) =>
    -- a file that is gone cannot be sent again
    some { s with
      task := if (id, g.seq) ∈ s.files then .put id sid g rest else .uploaded id sid g rest }
  | .upload id sid [] =>
    match s.items.get id with
    | none => some { s with task := .idle }
    | some now =>
      if now.finished && now.pending.length = 0 && !now.completed then
        some { s with task := .complete id sid now.durationMs now.sentMarks }
      else some { s with task := .idle }
  | .uploaded id sid g rest =>
    some { s with items := s.items.update id (markUploaded g.seq), task := .unlink id sid g rest }
  | .unlink id sid g rest =>
    some { s with files := s.files.filter (· ≠ (id, g.seq)), task := .upload id sid rest }
  | .completed id =>
    some { s with items := s.items.update id markCompleted, task := .remove id }
  | .remove id => some { s with items := s.items.remove id, task := .clear id }
  | .clear id => some { s with files := s.files.filter (·.1 ≠ id), task := .idle }
  | _ => none

/-- The main thread runs the first block of its queue. -/
def Block.run (items : Store) : Block → Store
  | .save id g => items.update id (addSegment g)
  | .finish id totalMs => items.update id (setFinished totalMs)

inductive Action where
  | start (date : ℕ)
  | started
  | startFailed
  /-- A buffer of `n` frames; `opened` says whether a next file can be opened after it. -/
  | write (n : ℕ) (opened : Bool)
  | pause
  | resume
  | interrupted
  | resumed
  | mark
  /-- `onMain` says whether the writer queue closes the file on the calling thread. -/
  | stop (onMain : Bool)
  | main
  | next
  | work
  | reply (rep : Reply)
  | kill

/-- A buffer is written, and the file closed and the next one opened when it is full. -/
def App.write (s : App) (ses : Session) (n : ℕ) (opened : Bool) : App :=
  let ses := { ses with frames := ses.frames + n }
  if ses.frames - ses.fileStart < segmentFrames then { s with session := some ses }
  else match ses.closed with
    | none => { s with session := some { ses with fileOpen := opened, fileStart := ses.frames } }
    | some g =>
      { s with
        session := some
          { ses with seq := ses.seq + 1, fileOpen := opened, fileStart := ses.frames }
        files := s.files ++ [(ses.id, g.seq)]
        queue := s.queue ++ [.save ses.id g] }

/-- `stop`: the last file is closed, and `finished` queued behind its save. -/
def App.stop (s : App) (ses : Session) (onMain : Bool) : App :=
  let done := Block.finish ses.id (framesMs ses.frames)
  match ses.closed with
  | none => { s with session := none, queue := s.queue ++ [done] }
  | some g =>
    if onMain then
      { s with
        items := s.items.update ses.id (addSegment g)
        files := s.files ++ [(ses.id, g.seq)]
        session := none
        queue := s.queue ++ [done] }
    else
      { s with
        files := s.files ++ [(ses.id, g.seq)]
        session := none
        queue := s.queue ++ [.save ses.id g, done] }

def App.setSession (s : App) (ses : Session) : App := { s with session := some ses }

def App.step (s : App) : Action → Option App
  | .start date =>
    if s.session.isSome then none
    else some { s with
      items := s.items ++ [⟨s.nextId, none, date, [], [], 0, false, false⟩]
      nextId := s.nextId + 1
      session := some ⟨s.nextId, .starting, 0, false, 0, 0, false⟩ }
  | .started => do
    let ses ← s.session
    if ses.phase = .starting then
      some (s.setSession { ses with phase := .recording, fileOpen := true })
    else none
  | .startFailed => do
    let ses ← s.session
    if ses.phase = .starting then
      some { s with items := s.items.remove ses.id, session := none }
    else none
  | .write n opened => do
    let ses ← s.session
    if ses.fileOpen && !ses.paused then some (s.write ses n opened) else none
  | .pause => do
    let ses ← s.session
    if ses.phase = .recording then
      some (s.setSession { ses with phase := .paused, paused := true })
    else none
  | .resume => do
    let ses ← s.session
    if ses.phase = .paused ∨ ses.phase = .interrupted then
      some (s.setSession { ses with phase := .recording, paused := false })
    else none
  | .interrupted => do
    let ses ← s.session
    if ses.phase = .recording then some (s.setSession { ses with phase := .interrupted }) else none
  | .resumed => do
    let ses ← s.session
    if ses.phase = .interrupted then some (s.setSession { ses with phase := .recording }) else none
  | .mark => do
    let ses ← s.session
    if ses.isActive then
      some { s with items := s.items.update ses.id (addMark (framesMs ses.frames)) }
    else none
  | .stop onMain => do
    let ses ← s.session
    if ses.isActive then some (s.stop ses onMain) else none
  | .main =>
    match s.queue with
    | [] => none
    | b :: rest => some { s with items := b.run s.items, queue := rest }
  | .next =>
    if s.task = .idle then s.items.nextWork.map fun id => { s with task := .begin id } else none
  | .work => s.work
  | .reply rep => (s.task.reply rep).map fun task => { s with task := task }
  | .kill => some { s with session := none, queue := [], task := .idle }

end ScribeLocal.Phone
