import ScribeLocal.Db.Queue
import ScribeLocal.Server.Content

/-! # The statements of the API handlers, the worker and the reaper

A command executes one SQL statement (or one transaction) and says how its caller
goes on: with further commands, with a reply to the client, or out through `?`.
-/
namespace ScribeLocal.Server
open Table

/-- The `[worker]` settings and the default summary template. -/
structure Config where
  heartbeatSecs : ℕ := 15
  pollSecs : ℕ := 5
  maxAttempts : ℕ := 5
  summaryTemplate : String := "general"

def Config.heartbeat (cfg : Config) : Time := max cfg.heartbeatSecs 1 * 1000000

/-- A lease is three heartbeats long. -/
def Config.lease (cfg : Config) : Time := cfg.heartbeat * 3

def Config.backoff (cfg : Config) : Time := max cfg.pollSecs 1 * 1000000

/-- The database. -/
structure Db where
  now : Time
  jobs : Jobs
  status : Uuid → Option RecordingStatus
  content : Content

def Db.empty : Db := ⟨0, Jobs.empty, fun _ => none, Content.empty⟩

def Db.setStatus (db : Db) (r : Uuid) (st : RecordingStatus) : Db :=
  { db with status := Function.update db.status r (some st) }

/-- One statement of a handler, a worker task or the reaper. -/
inductive Cmd where
  | content (st : Stmt)
  | createRecording (r : Uuid)
  | setParticipants (r : Uuid) (expected : Option ℤ)
  | putSegmentRead (r : Uuid) (seq : ℤ) (startMs durationMs : Option ℤ)
  | completeRead (r : Uuid) (durationMs : Option ℤ) (marks : Option (List ℤ))
  | markProcessing (r : Uuid)
  | reprocessRead (r : Uuid)
  | resetForReprocess (r : Uuid)
  | rediarizeRead (r : Uuid)
  | resetForRediarize (r : Uuid)
  | summarizeRead (r : Uuid) (template : String)
  | deleteSpeakerRead (r : Uuid) (localIdx : ℤ)
  | insertJob (r : Uuid) (k : JobKind) (payload : Payload) (strict : Bool)
  | selectJob (r : Uuid) (k : JobKind) (strict : Bool)
  | reply (code : ℕ)
  | completeJob (job : Job)
  | succ (r : Uuid) (k : JobKind)
  | maybeMarkReady (r : Uuid)
  | markReady (r : Uuid)
  | liveRequeue (r : Uuid)
  | liveRequeueCount (r : Uuid)
  | failSelect (job : Job) (error : String)
  | failUpdate (job : Job) (error : String) (nextAttempts : ℕ)
  | deferJob (job : Job) (delay : Time)
  | parkRecording (r : Uuid)
  | reapStuck
  deriving DecidableEq

/-- How the caller of a command goes on. -/
inductive Flow where
  | next (cs : List Cmd)
  | reply (code : ℕ)
  | abort
  deriving DecidableEq

/-- `db.enqueue(r, k, payload).await?`. -/
def enqueue (r : Uuid) (k : JobKind) (payload : Payload) : Cmd := .insertJob r k payload true

/-- What `process_job` does after `complete`. -/
def postSteps (job : Job) : List Cmd :=
  match job.recordingId with
  | none => []
  | some r =>
    job.kind.successors.map (Cmd.succ r) ++
      (if job.kind = .embed ∨ job.kind = .summarize then [.maybeMarkReady r] else []) ++
      (if job.kind = .transcribeSegment then [.liveRequeue r] else [])

/-- A handler that first fetches the recording: 404 if there is none. -/
def fetched (db : Db) (r : Uuid) (k : RecordingStatus → Flow) : Db × Flow :=
  match db.status r with
  | none => (db, .reply 404)
  | some st => (db, k st)

/-- Execute one command. -/
def Cmd.exec (cfg : Config) (x : Heard) (db : Db) : Cmd → Db × Flow
  | .content st =>
    match st.exec db.now db.status x db.content with
    | none => (db, .abort)
    | some (c, sts) => ({ db with content := c }, .next (sts.map .content))
  | .createRecording r =>
    -- `gen_random_uuid()` never returns an id in use
    if (db.status r).isSome then (db, .abort) else (db.setStatus r .uploading, .reply 200)
  | .setParticipants r expected =>
    if (db.status r).isSome then
      ({ db with content := { db.content with
          participantsExpected := Function.update db.content.participantsExpected r expected } },
        .reply 200)
    else (db, .reply 404)
  | .putSegmentRead r seq startMs durationMs =>
    fetched db r fun st => .next <| .content (.insertSegment r seq startMs durationMs) ::
      if st = .uploading then [.insertJob r .transcribeSegment {} false, .reply 200]
      else [.reply 200]
  | .completeRead r durationMs marks =>
    fetched db r fun st =>
      if st ≠ .uploading then .reply 409
      else .next <| (durationMs.toList.map fun ms => .content (.setDuration r ms)) ++
        (marks.toList.map fun ms => .content (.setMarks r ms)) ++ [.markProcessing r]
  | .markProcessing r =>
    if (db.status r).isSome then
      (db.setStatus r .processing, .next [enqueue r .transcode {}, .reply 200])
    else (db, .abort)
  | .reprocessRead r => fetched db r fun _ => .next [.resetForReprocess r]
  | .resetForReprocess r =>
    if (db.status r).isSome then
      ({ db.setStatus r .processing with
          content := db.content.resetForReprocess r
          jobs := db.jobs.delete fun j => j.recordingId == some r },
        .next [enqueue r .transcode {}, .reply 202])
    else (db, .abort)
  | .rediarizeRead r => fetched db r fun _ => .next [.resetForRediarize r]
  | .resetForRediarize r =>
    if (db.content.transcript r).isNone then (db, .reply 409)
    else if (db.status r).isSome then
      ({ db.setStatus r .processing with
          content := db.content.resetForRediarize r
          jobs := db.jobs.delete fun j => j.recordingId == some r &&
            [JobKind.diarize, .merge, .embed, .summarize].contains j.kind },
        .next [enqueue r .diarize {}, .reply 202])
    else (db, .abort)
  | .summarizeRead r template =>
    fetched db r fun _ => .next [enqueue r .summarize { template := some template }, .reply 202]
  | .deleteSpeakerRead r idx =>
    fetched db r fun _ => .next
      [.content (.deleteSpeaker r idx), enqueue r .embed {}, enqueue r .summarize {}, .reply 200]
  | .insertJob r k payload strict =>
    -- an unknown recording breaks the foreign key
    if (db.status r).isNone then (db, if strict then .abort else .next [])
    else match db.jobs.insert db.now r k payload 0 with
      | (some _, t) => ({ db with jobs := t }, .next [])
      | (none, t) => ({ db with jobs := t }, .next [.selectJob r k strict])
  | .selectJob r k strict =>
    (db, if (db.jobs.liveJob r k).isSome || !strict then .next [] else .abort)
  | .reply code => (db, .reply code)
  | .completeJob job =>
    ({ db with jobs := db.jobs.complete db.now job.id }, .next (postSteps job))
  | .succ r k => (db, .next (if db.jobs.predecessorsDone r k then [enqueue r k {}] else []))
  | .maybeMarkReady r =>
    (db, .next (if db.jobs.embedAndSummarizeDone r then [.markReady r] else []))
  | .markReady r =>
    if (db.status r).isSome then (db.setStatus r .ready, .next []) else (db, .abort)
  | .liveRequeue r =>
    match db.status r with
    | none => (db, .abort)
    | some st => (db, .next (if st = .uploading then [.liveRequeueCount r] else []))
  | .liveRequeueCount r =>
    (db, .next (if db.content.untranscribed r ≠ [] then [enqueue r .transcribeSegment {}] else []))
  | .failSelect job error =>
    match db.jobs.row job.id with
    | none => (db, .abort)
    | some j => (db, .next [.failUpdate job error (j.attempts + 1)])
  | .failUpdate job error n =>
    match db.jobs.failWrite db.now job.id error n cfg.maxAttempts cfg.backoff with
    | none => (db, .abort)
    | some (true, t) => ({ db with jobs := t }, .next [])
    | some (false, t) =>
      ({ db with jobs := t }, .next (job.recordingId.toList.map .parkRecording))
  | .deferJob job delay =>
    match db.jobs.defer db.now job.id Jobs.windowClosed delay with
    | none => (db, .abort)
    | some t => ({ db with jobs := t }, .next [])
  | .parkRecording r =>
    (if (db.status r).isSome then db.setStatus r .failed else db, .next [])
  | .reapStuck =>
    let taken := db.jobs.reapedJobs db.now cfg.lease cfg.maxAttempts
    ({ db with jobs := db.jobs.reapStuck db.now cfg.lease cfg.maxAttempts },
      .next ((taken.filter ReapedJob.exhausted).filterMap fun j =>
        j.recordingId.map .parkRecording))

/-- A request a client can send. The template of a summarize request is the one
its body resolves to; a body that resolves to none gets its 400 before any statement. -/
inductive Request where
  | create (r : Uuid)
  | setParticipants (r : Uuid) (expected : Option ℤ)
  | putSegment (r : Uuid) (seq : ℤ) (startMs durationMs : Option ℤ)
  | complete (r : Uuid) (durationMs : Option ℤ) (marks : Option (List ℤ))
  | reprocess (r : Uuid)
  | rediarize (r : Uuid)
  | summarize (r : Uuid) (template : String)
  | deleteSpeaker (r : Uuid) (localIdx : ℤ)
  deriving DecidableEq

def Request.recording : Request → Uuid
  | .create r | .setParticipants r _ | .putSegment r _ _ _ | .complete r _ _ | .reprocess r | .rediarize r
  | .summarize r _ | .deleteSpeaker r _ => r

/-- The first statement of a request's handler. -/
def Request.first : Request → Cmd
  | .create r => .createRecording r
  | .setParticipants r expected => .setParticipants r expected
  | .putSegment r seq startMs durationMs => .putSegmentRead r seq startMs durationMs
  | .complete r durationMs marks => .completeRead r durationMs marks
  | .reprocess r => .reprocessRead r
  | .rediarize r => .rediarizeRead r
  | .summarize r template => .summarizeRead r template
  | .deleteSpeaker r idx => .deleteSpeakerRead r idx

/-- `summarize_template`: the payload's template, else the configured one. -/
def summarizeTemplate (cfg : Config) (payload : Payload) : String :=
  payload.template.getD cfg.summaryTemplate

/-- What `process_job` runs for a claimed job; one with no recording runs nothing. -/
def jobBody (cfg : Config) (job : Job) : List Stmt :=
  match job.recordingId with
  | none => []
  | some r => stageBody r (summarizeTemplate cfg job.payload) job.kind

end ScribeLocal.Server
