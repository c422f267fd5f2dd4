import ScribeLocal.Core.Types
import ScribeLocal.MachineInt
import ScribeLocal.Table

/-! # What a recording consists of, and the statements that write it

The tables other than `jobs` and the status column. A stage is a list of these
statements; what its engine returned (words, turns, a summary) is handed to the
statement that stores it, so a result about every run holds for every engine.
-/
namespace ScribeLocal
open MachineInt Table

/-- One recognised word. -/
structure Word where
  text : String
  startMs : ℤ
  endMs : ℤ
  localIdx : Option ℤ
  deriving DecidableEq, Repr

/-- A transcript turn before the database numbers it. -/
structure NewUtterance where
  localIdx : Option ℤ
  startMs : ℤ
  endMs : ℤ
  text : String
  words : List Word
  deriving DecidableEq, Repr

structure Utterance extends NewUtterance where
  id : ℕ
  recordingId : Uuid
  deriving DecidableEq, Repr

/-- An uploaded chunk of audio, unique by recording and `seq`. -/
structure Segment where
  id : ℕ
  recordingId : Uuid
  seq : ℤ
  startMs : Option ℤ
  durationMs : Option ℤ
  transcribedAt : Option Time
  deriving DecidableEq, Repr

structure SpeakerTurn where
  localIdx : ℤ
  startMs : ℤ
  endMs : ℤ
  deriving DecidableEq, Repr

/-- A diarized speaker of one recording. -/
structure RecordingSpeaker where
  recordingId : Uuid
  localIdx : ℤ
  deriving DecidableEq, Repr

structure NewChunk where
  localIdx : Option ℤ
  startMs : ℤ
  endMs : ℤ
  text : String
  deriving DecidableEq, Repr

structure Chunk extends NewChunk where
  recordingId : Uuid
  deriving DecidableEq, Repr

structure Summary where
  recordingId : Uuid
  template : String
  summary : Option String
  deriving DecidableEq, Repr

structure Content where
  nextId : ℕ
  segments : List Segment
  utterances : List Utterance
  speakers : List RecordingSpeaker
  chunks : List Chunk
  summaries : List Summary
  durationMs : Uuid → Option ℤ
  marks : Uuid → List ℤ
  /-- The number of people the client stated. -/
  participantsExpected : Uuid → Option ℤ
  /-- The `transcript` artifact. -/
  transcript : Uuid → Option (List Word)
  /-- The `diarization` artifact. -/
  diarization : Uuid → Option (List SpeakerTurn)
  /-- Bookkeeping of the model only: the rows the last merge of a recording inserted. -/
  lastMerge : Uuid → Option (List Utterance)

namespace Content

def empty : Content where
  nextId := 1
  segments := []
  utterances := []
  speakers := []
  chunks := []
  summaries := []
  durationMs := fun _ => none
  marks := fun _ => []
  participantsExpected := fun _ => none
  transcript := fun _ => none
  diarization := fun _ => none
  lastMerge := fun _ => none

def utterancesOf (c : Content) (r : Uuid) : List Utterance :=
  c.utterances.filter fun u => u.recordingId == r

/-- `list_utterances_by_recording`: in time order. -/
def listUtterances (c : Content) (r : Uuid) : List Utterance :=
  (c.utterancesOf r).insertionSort fun a b =>
    a.startMs < b.startMs ∨ (a.startMs = b.startMs ∧ a.id ≤ b.id)

/-- `list_untranscribed_segments`: in `seq` order. -/
def untranscribed (c : Content) (r : Uuid) : List Segment :=
  (c.segments.filter fun g => g.recordingId == r && g.transcribedAt.isNone).insertionSort
    fun a b => a.seq ≤ b.seq

/-- Where the transcribed segments end. -/
def transcribedEnds (c : Content) (r : Uuid) : List ℤ :=
  (c.segments.filter fun g => g.recordingId == r && g.transcribedAt.isSome).map fun g =>
    g.startMs.getD 0 + g.durationMs.getD 0

/-- `max_transcribed_end_ms`. The query fails on a sum that is no `bigint`. -/
def maxTranscribedEnd (c : Content) (r : Uuid) : Option (Option ℤ) :=
  if ∀ e ∈ c.transcribedEnds r, FitsI64 e then some (c.transcribedEnds r).max? else none

/-- Number the rows of a bulk insert. -/
def numbered (r : Uuid) (first : ℕ) (new : List NewUtterance) : List Utterance :=
  new.zipIdx.map fun x => { x.1 with id := first + x.2, recordingId := r }

/-- `insert_utterances`. -/
def insertUtterances (r : Uuid) (new : List NewUtterance) (c : Content) : Content :=
  { c with utterances := c.utterances ++ numbered r c.nextId new
           nextId := c.nextId + new.length }

/-- `insert_segment`: insert or update on `(recording_id, seq)`. -/
def insertSegment (r : Uuid) (seq : ℤ) (startMs durationMs : Option ℤ) (c : Content) : Content :=
  if c.segments.any fun g => g.recordingId == r && g.seq == seq then
    { c with
      segments := updateWhere (fun g => g.recordingId == r && g.seq == seq)
        (fun g => { g with startMs := startMs, durationMs := durationMs }) c.segments }
  else
    { c with segments := c.segments ++ [⟨c.nextId, r, seq, startMs, durationMs, none⟩]
             nextId := c.nextId + 1 }

/-- `mark_segment_transcribed`. -/
def markTranscribed (now : Time) (id : ℕ) (startMs durationMs : ℤ) (c : Content) : Content :=
  { c with
    segments := updateWhere (fun g => g.id == id)
      (fun g => { g with transcribedAt := some now, startMs := some startMs,
                         durationMs := some durationMs }) c.segments }

/-- What `reset_for_rediarize` deletes: everything diarization feeds. -/
def resetForRediarize (r : Uuid) (c : Content) : Content :=
  { c with utterances := deleteWhere (fun u => u.recordingId == r) c.utterances
           chunks := deleteWhere (fun k => k.recordingId == r) c.chunks
           summaries := deleteWhere (fun y => y.recordingId == r) c.summaries
           speakers := deleteWhere (fun p => p.recordingId == r) c.speakers
           diarization := Function.update c.diarization r none }

/-- What `reset_for_reprocess` deletes: the same and the transcript. -/
def resetForReprocess (r : Uuid) (c : Content) : Content :=
  { resetForRediarize r c with transcript := Function.update c.transcript r none }

end Content

/-! ## Retrieval chunks -/

namespace Embed

def windowMs : ℤ := 45000
def windowOverlapMs : ℤ := 5000

/-- `char::is_whitespace`. -/
def isWhitespace (c : Char) : Bool :=
  let n := c.toNat
  (9 ≤ n && n ≤ 13) || (0x2000 ≤ n && n ≤ 0x200A) ||
    [0x20, 0x85, 0xA0, 0x1680, 0x2028, 0x2029, 0x202F, 0x205F, 0x3000].contains n

/-- `str::trim`. -/
def trim (s : String) : String :=
  String.ofList ((s.toList.dropWhile isWhitespace).reverse.dropWhile isWhitespace).reverse

/-- The chunk of the words that overlap a window, with its bounds tightened to them. -/
def windowChunk (u : Utterance) (winStart winEnd : ℤ) : List NewChunk :=
  let inside := u.words.filter fun w => decide (winStart < w.endMs ∧ w.startMs < winEnd)
  match inside with
  | [] => []
  | w :: ws => [{
      localIdx := u.localIdx
      startMs := w.startMs
      endMs := (((w :: ws).map Word.endMs).max?).getD winEnd
      text := " ".intercalate ((w :: ws).map Word.text) }]

/-- The loop of `window_utterance`, for a turn that ends a window before the last `i64`. -/
def windowsFrom (u : Utterance) (winStart : ℤ) : List NewChunk :=
  if winStart < u.endMs then
    let winEnd := min (winStart + windowMs) u.endMs
    windowChunk u winStart winEnd ++
      if u.endMs ≤ winEnd then [] else windowsFrom u (winEnd - windowOverlapMs)
  else []
  termination_by (u.endMs - winStart).toNat
  decreasing_by
    rename_i hend
    change ¬ u.endMs ≤ min (winStart + windowMs) u.endMs at hend
    have hw : windowMs = 45000 := rfl
    have ho : windowOverlapMs = 5000 := rfl
    omega

/-- The chunks of one utterance: none without text, one for a short turn, else windows. -/
def chunksOf (u : Utterance) : List NewChunk :=
  if trim u.text = "" then []
  else if i64 (u.endMs - u.startMs) ≤ windowMs ∨ u.words = [] then
    [{ localIdx := u.localIdx, startMs := u.startMs, endMs := u.endMs, text := trim u.text }]
  else windowsFrom u u.startMs

def buildChunks (utterances : List Utterance) : List NewChunk := utterances.flatMap chunksOf

end Embed

/-- What a stage's engine, the file system or a language model tells one statement. -/
structure Heard where
  missing : Bool := false
  utterances : List NewUtterance := []
  durationMs : ℕ := 0
  words : List Word := []
  turns : List SpeakerTurn := []
  summary : Option String := none
  error : String := ""

/-- A statement on the content tables. -/
inductive Stmt where
  | insertSegment (r : Uuid) (seq : ℤ) (startMs durationMs : Option ℤ)
  | setDuration (r : Uuid) (durationMs : ℤ)
  | setMarks (r : Uuid) (marks : List ℤ)
  | deleteSpeaker (r : Uuid) (localIdx : ℤ)
  | listSegments (r : Uuid)
  | measureDuration (r : Uuid)
  | diarizeRead (r : Uuid)
  | diarized (r : Uuid) (expected : Option ℤ)
  | upsertSpeaker (r : Uuid) (localIdx : ℤ)
  | pruneSpeakers (r : Uuid) (found : List ℤ)
  | putDiarization (r : Uuid) (turns : List SpeakerTurn)
  | putTranscript (r : Uuid)
  | getTranscript (r : Uuid)
  | getDiarization (r : Uuid)
  | clearUtterances (r : Uuid)
  | insertMerged (r : Uuid)
  | embedRead (r : Uuid)
  | deleteChunks (r : Uuid)
  | insertChunks (r : Uuid) (new : List NewChunk)
  | summarizeRead (r : Uuid)
  | upsertSummary (r : Uuid) (template : String)
  | liveStatus (r : Uuid)
  | liveList (r : Uuid)
  | liveOffset (r : Uuid) (segments : List Segment)
  | liveInsert (r : Uuid) (offset : ℤ) (segments : List Segment)
  | liveMark (r : Uuid) (id : ℕ) (offset durationMs : ℤ)
  deriving DecidableEq

/-- Execute one statement: the tables afterwards and the statements that follow from
what it read, or none where the caller gets an error. -/
def Stmt.exec (now : Time) (status : Uuid → Option RecordingStatus) (x : Heard) (c : Content) :
    Stmt → Option (Content × List Stmt)
  | .insertSegment r seq startMs durationMs => some (c.insertSegment r seq startMs durationMs, [])
  | .setDuration r ms =>
    some ({ c with durationMs := Function.update c.durationMs r (some ms) }, [])
  | .setMarks r marks => some ({ c with marks := Function.update c.marks r marks }, [])
  | .deleteSpeaker r idx =>
    if c.speakers.any fun p => p.recordingId == r && p.localIdx == idx then
      some ({ c with
        utterances :=
          deleteWhere (fun u => u.recordingId == r && u.localIdx == some idx) c.utterances
        speakers := deleteWhere (fun p => p.recordingId == r && p.localIdx == idx) c.speakers }, [])
    else none
  | .listSegments r =>
    -- no raw segments: a pre-staged WAV is tolerated, else the stage fails
    if x.missing && !(c.segments.any fun g => g.recordingId == r) then none else some (c, [])
  | .measureDuration r =>
    some ({ c with durationMs := Function.update c.durationMs r (some x.durationMs) }, [])
  | .diarizeRead r =>
    if (status r).isSome then some (c, [.diarized r (c.participantsExpected r)]) else none
  -- what the diarizer makes of the audio and the count it was given
  | .diarized r _ =>
    let found := (x.turns.map SpeakerTurn.localIdx).dedup.insertionSort (· ≤ ·)
    some (c, found.map (.upsertSpeaker r ·) ++ [.pruneSpeakers r found, .putDiarization r x.turns])
  | .upsertSpeaker r idx =>
    if c.speakers.any fun p => p.recordingId == r && p.localIdx == idx then some (c, [])
    else some ({ c with speakers := c.speakers ++ [⟨r, idx⟩] }, [])
  | .pruneSpeakers r found =>
    let stale := fun p : RecordingSpeaker => p.recordingId == r && !found.contains p.localIdx
    some ({ c with speakers := deleteWhere stale c.speakers }, [])
  | .putDiarization r turns =>
    some ({ c with diarization := Function.update c.diarization r (some turns) }, [])
  | .putTranscript r =>
    some ({ c with transcript := Function.update c.transcript r (some x.words) }, [])
  | .getTranscript r => if (c.transcript r).isSome then some (c, []) else none
  | .getDiarization r => if (c.diarization r).isSome then some (c, []) else none
  | .clearUtterances r =>
    some ({ c with utterances := deleteWhere (fun u => u.recordingId == r) c.utterances }, [])
  | .insertMerged r =>
    let new := Content.numbered r c.nextId x.utterances
    some ({ c.insertUtterances r x.utterances with
      lastMerge := Function.update c.lastMerge r (some new) }, [])
  | .embedRead r =>
    match Embed.buildChunks (c.listUtterances r) with
    | [] => some (c, [.deleteChunks r])
    | k :: ks => some (c, [.deleteChunks r, .insertChunks r (k :: ks)])
  | .deleteChunks r =>
    some ({ c with chunks := deleteWhere (fun k => k.recordingId == r) c.chunks }, [])
  | .insertChunks r new =>
    some ({ c with chunks := c.chunks ++ new.map fun k => { k with recordingId := r } }, [])
  | .summarizeRead _ => some (c, [])
  | .upsertSummary r template =>
    let old := fun y : Summary => y.recordingId == r && y.template == template
    some ({ c with summaries := deleteWhere old c.summaries ++ [⟨r, template, x.summary⟩] }, [])
  | .liveStatus r =>
    match status r with
    | none => none
    | some st => if st = .uploading then some (c, [.liveList r]) else some (c, [])
  | .liveList r =>
    match c.untranscribed r with
    | [] => some (c, [])
    | g :: gs => some (c, [.liveOffset r (g :: gs)])
  | .liveOffset r segments =>
    match c.maxTranscribedEnd r with
    | none => none
    | some last => some (c, [.liveInsert r (last.getD 0) segments])
  | .liveInsert _ _ [] => some (c, [])
  | .liveInsert r offset (g :: gs) =>
    if x.missing then some (c, [.liveInsert r offset gs])
    else some (c.insertUtterances r x.utterances,
      [.liveMark r g.id offset x.durationMs, .liveInsert r (i64 (offset + x.durationMs)) gs])
  | .liveMark _ id offset ms => some (c.markTranscribed now id offset ms, [])

/-- The statements of each stage, in the order the stage issues them. -/
def stageBody (r : Uuid) (template : String) : JobKind → List Stmt
  | .transcode => [.listSegments r, .measureDuration r]
  | .diarize => [.diarizeRead r]
  | .transcribe => [.putTranscript r]
  | .merge => [.getTranscript r, .getDiarization r, .clearUtterances r, .insertMerged r]
  | .embed => [.embedRead r]
  | .summarize => [.summarizeRead r, .upsertSummary r template]
  | .transcribeSegment => [.liveStatus r]

/-- The recording a statement concerns. -/
def Stmt.recording : Stmt → Uuid
  | .insertSegment r _ _ _ | .setDuration r _ | .setMarks r _ | .deleteSpeaker r _
  | .listSegments r | .measureDuration r | .diarizeRead r | .diarized r _ | .upsertSpeaker r _
  | .pruneSpeakers r _ | .putDiarization r _ | .putTranscript r | .getTranscript r
  | .getDiarization r | .clearUtterances r | .insertMerged r | .embedRead r | .deleteChunks r
  | .insertChunks r _ | .summarizeRead r | .upsertSummary r _ | .liveStatus r | .liveList r
  | .liveOffset r _ | .liveInsert r _ _ | .liveMark r _ _ _ => r

/-- The stage a statement belongs to; none for a statement of a request handler. -/
def Stmt.stage : Stmt → Option JobKind
  | .insertSegment _ _ _ _ | .setDuration _ _ | .setMarks _ _ | .deleteSpeaker _ _ => none
  | .listSegments _ | .measureDuration _ => some .transcode
  | .diarizeRead _ | .diarized _ _ | .upsertSpeaker _ _ | .pruneSpeakers _ _
  | .putDiarization _ _ => some .diarize
  | .putTranscript _ => some .transcribe
  | .getTranscript _ | .getDiarization _ | .clearUtterances _ | .insertMerged _ => some .merge
  | .embedRead _ | .deleteChunks _ | .insertChunks _ _ => some .embed
  | .summarizeRead _ | .upsertSummary _ _ => some .summarize
  | .liveStatus _ | .liveList _ | .liveOffset _ _ | .liveInsert _ _ _ | .liveMark _ _ _ _ =>
    some .transcribeSegment

theorem stageBody_stage {r : Uuid} {template : String} {k : JobKind} {st : Stmt}
    (h : st ∈ stageBody r template k) : st.recording = r ∧ st.stage = some k := by
  cases k <;> simp only [stageBody, List.mem_cons, List.not_mem_nil, or_false] at h
  all_goals rcases h with rfl | rfl | rfl | rfl
  all_goals exact ⟨rfl, rfl⟩

/-- What follows a statement concerns the same recording and belongs to the same stage. -/
theorem Stmt.exec_follows {now : Time} {status : Uuid → Option RecordingStatus} {x : Heard}
    {c c' : Content} {st st' : Stmt} {sts : List Stmt}
    (h : st.exec now status x c = some (c', sts)) (hst' : st' ∈ sts) :
    st'.recording = st.recording ∧ st'.stage = st.stage ∧ st'.stage.isSome = true := by
  cases st with
  | diarized r expected =>
    cases h
    simp only [List.mem_append, List.mem_map, List.mem_cons, List.not_mem_nil, or_false] at hst'
    rcases hst' with ⟨idx, -, rfl⟩ | rfl | rfl <;> exact ⟨rfl, rfl, rfl⟩
  | liveInsert r offset segments =>
    cases segments with
    | nil =>
      cases h
      cases hst'
    | cons g gs =>
      simp only [exec] at h
      split at h
      · cases h
        rw [List.mem_singleton.mp hst']
        exact ⟨rfl, rfl, rfl⟩
      · cases h
        simp only [List.mem_cons, List.not_mem_nil, or_false] at hst'
        rcases hst' with rfl | rfl <;> exact ⟨rfl, rfl, rfl⟩
  | _ =>
    simp only [exec] at h
    repeat' split at h
    all_goals (try cases h)
    all_goals simp only [List.mem_cons, List.not_mem_nil, or_false] at hst'
    all_goals (try rcases hst' with rfl | rfl)
    all_goals exact ⟨rfl, rfl, rfl⟩

end ScribeLocal
