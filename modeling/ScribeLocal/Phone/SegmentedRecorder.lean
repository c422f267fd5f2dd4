import ScribeLocal.Tiling

/-!
# The segments of a recorder

`SegmentedRecorder` writes the buffers of its tap to one file after another, and hands over
each file that it closes as a segment.
-/
namespace ScribeLocal.SegmentedRecorder
open Tiling

/-- What a recorder is made with. `ms` is how it turns frames into milliseconds, in floating
point. -/
structure Settings where
  directory : String
  segmentFrames : ℤ
  bitRate : ℤ
  ms : ℤ → ℤ

structure Segment where
  seq : ℕ
  url : String
  startMs : ℤ
  durationMs : ℤ

/-- A segment that was handed to `onSegment`, with the frames in its file: those from
`start` on, before `stop`. -/
structure Emitted where
  segment : Segment
  start : ℤ
  stop : ℤ

/-- The state on the writer queue. -/
structure Recorder where
  /-- Where the open file lies. -/
  file : Option String
  fileStartFrame : ℤ
  framesWritten : ℤ
  seq : ℕ
  paused : Bool
  emitted : List Emitted

variable (settings : Settings)

/-- `String(format: "seg-%04d.m4a", seq)` -/
def fileName (seq : ℕ) : String :=
  let digits := toString seq
  "seg-" ++ String.ofList (List.replicate (4 - digits.length) '0') ++ digits ++ ".m4a"

/-- The bit rates that are tried, lower ones where the asked-for one is refused. -/
def rates : List ℤ :=
  [settings.bitRate, 32000, 24000].filter fun rate =>
    rate ≤ settings.bitRate || rate == settings.bitRate

/-- `opens` says at which bit rates a file can be opened at this moment. -/
def openNextFile (opens : ℤ → Bool) (r : Recorder) : Recorder × Bool :=
  let url := settings.directory ++ "/" ++ fileName r.seq
  let r := { r with fileStartFrame := r.framesWritten }
  if (rates settings).any opens then ({ r with file := some url }, true)
  else ({ r with file := none }, false)

def closeFile (r : Recorder) : Recorder :=
  match r.file with
  | none => r
  | some url =>
    let frames := r.framesWritten - r.fileStartFrame
    let r := { r with file := none }
    if 0 < frames then
      let seg : Segment := ⟨r.seq, url, settings.ms r.fileStartFrame, settings.ms frames⟩
      { r with
        seq := r.seq + 1
        emitted := r.emitted ++ [⟨seg, r.fileStartFrame, r.framesWritten⟩] }
    else r

/-- `written` says whether the file takes the buffer. -/
def write (frameLength : ℕ) (written : Bool) (opens : ℤ → Bool) (r : Recorder) : Recorder :=
  match r.paused, r.file with
  | false, some _ =>
    if written then
      let r := { r with framesWritten := r.framesWritten + frameLength }
      if settings.segmentFrames ≤ r.framesWritten - r.fileStartFrame then
        (openNextFile settings opens (closeFile settings r)).1
      else r
    -- a failed write loses this buffer, not the recording
    else r
  | _, _ => r

def pause (r : Recorder) : Recorder := { r with paused := true }

def resume (r : Recorder) : Recorder := { r with paused := false }

def stop (r : Recorder) : Recorder × ℤ :=
  let r := closeFile settings r
  (r, settings.ms r.framesWritten)

/-- A recorder before `start`. -/
def blank : Recorder := ⟨none, 0, 0, 0, false, []⟩

/-- `none` where the first file cannot be opened: `start` throws. -/
def start (opens : ℤ → Bool) : Option Recorder :=
  let r := openNextFile settings opens blank
  if r.2 then some r.1 else none

/-- What happens on the writer queue between `start` and `stop`. -/
inductive Event
  | write (frameLength : ℕ) (written : Bool) (opens : ℤ → Bool)
  | pause
  | resume

def step (r : Recorder) : Event → Recorder
  | .write frameLength written opens => write settings frameLength written opens r
  | .pause => pause r
  | .resume => resume r

def run (r : Recorder) (events : List Event) : Recorder := events.foldl (step settings) r

/-! ## Tiled recordings -/

def Emitted.range (g : Emitted) : ℤ × ℤ := (g.start, g.stop)

/-- The segments are numbered from zero on, and they tile the frames up to `stop`. -/
structure Tiled (emitted : List Emitted) (stop : ℤ) : Prop where
  numbered : emitted.map (fun g => g.segment.seq) = List.range emitted.length
  tiles : Tiles 0 (emitted.map Emitted.range) stop

/-- The frames in segments are those before the open file, or all of them. -/
def inSegments (r : Recorder) : ℤ :=
  match r.file with
  | some _ => r.fileStartFrame
  | none => r.framesWritten

structure Sound (r : Recorder) : Prop where
  tiled : Tiled r.emitted (inSegments r)
  seq_eq : r.seq = r.emitted.length
  le_framesWritten : r.fileStartFrame ≤ r.framesWritten

variable {settings : Settings} {r : Recorder} {opens : ℤ → Bool} {url : String}

theorem Tiled.concat {emitted : List Emitted} {lo hi : ℤ} {seg : Segment} (h : Tiled emitted lo)
    (hseq : seg.seq = emitted.length) (hlt : lo < hi) :
    Tiled (emitted ++ [⟨seg, lo, hi⟩]) hi where
  numbered := by
    rw [List.map_append, h.numbered, List.length_append, List.length_singleton,
      List.range_succ, ← hseq]
    rfl
  tiles := by
    rw [List.map_append]
    exact h.tiles.concat hlt

theorem Tiled.existsUnique {emitted : List Emitted} {hi frame : ℤ} (h : Tiled emitted hi)
    (hlow : 0 ≤ frame) (hhigh : frame < hi) :
    ∃! g, g ∈ emitted ∧ g.start ≤ frame ∧ frame < g.stop :=
  h.tiles.existsUnique_map hlow hhigh

theorem inSegments_of_open (h : r.file = some url) : inSegments r = r.fileStartFrame := by
  rw [inSegments, h]

theorem inSegments_of_closed (h : r.file = none) : inSegments r = r.framesWritten := by
  rw [inSegments, h]

/-! ## Each operation -/

theorem sound_blank : Sound blank where
  tiled := ⟨rfl, rfl⟩
  seq_eq := rfl
  le_framesWritten := le_rfl

@[simp] theorem file_closeFile : (closeFile settings r).file = none := by
  rw [closeFile]
  cases hfile : r.file with
  | none => exact hfile
  | some url =>
    dsimp only
    split <;> rfl

@[simp] theorem framesWritten_closeFile :
    (closeFile settings r).framesWritten = r.framesWritten := by
  rw [closeFile]
  cases r.file with
  | none => rfl
  | some url =>
    dsimp only
    split <;> rfl

theorem sound_closeFile (hr : Sound r) : Sound (closeFile settings r) := by
  rw [closeFile]
  cases hfile : r.file with
  | none => exact hr
  | some url =>
    have htiled := hr.tiled
    rw [inSegments_of_open hfile] at htiled
    dsimp only
    split
    case isTrue hpos =>
      have hlt : r.fileStartFrame < r.framesWritten := by omega
      exact ⟨htiled.concat hr.seq_eq hlt, by simp [hr.seq_eq], hr.le_framesWritten⟩
    case isFalse hnone =>
      -- an empty last file: nothing was written behind the segments
      have heq : r.fileStartFrame = r.framesWritten := by
        have hle := hr.le_framesWritten
        omega
      exact ⟨heq ▸ htiled, hr.seq_eq, hr.le_framesWritten⟩

/-- Whether the file opens or not, the next frame is the first that is in no segment. -/
theorem sound_openNextFile (hr : Sound r) (hfile : r.file = none) :
    Sound (openNextFile settings opens r).1 := by
  have htiled := hr.tiled
  rw [inSegments_of_closed hfile] at htiled
  rw [openNextFile]
  dsimp only
  split
  · exact ⟨htiled, hr.seq_eq, le_rfl⟩
  · exact ⟨htiled, hr.seq_eq, le_rfl⟩

/-- Frames that go to the open file. -/
theorem Sound.grow (hr : Sound r) (hfile : r.file = some url) (n : ℕ) :
    Sound { r with framesWritten := r.framesWritten + n } where
  tiled := by
    have htiled := hr.tiled
    rw [inSegments_of_open hfile] at htiled
    have hsame : inSegments { r with framesWritten := r.framesWritten + n } = r.fileStartFrame :=
      inSegments_of_open hfile
    rwa [hsame]
  seq_eq := hr.seq_eq
  le_framesWritten := by
    have hle := hr.le_framesWritten
    dsimp only
    omega

theorem sound_write (hr : Sound r) (frameLength : ℕ) (written : Bool) :
    Sound (write settings frameLength written opens r) := by
  rw [write]
  split
  case h_1 url hpaused hfile =>
    cases written with
    | false => exact hr
    | true =>
      have hgrown := hr.grow hfile frameLength
      dsimp only
      rw [if_pos rfl]
      split
      · exact sound_openNextFile (sound_closeFile hgrown) file_closeFile
      · exact hgrown
  case h_2 => exact hr

theorem sound_step (hr : Sound r) (e : Event) : Sound (step settings r e) := by
  cases e with
  | write frameLength written opens => exact sound_write hr frameLength written
  | pause => exact ⟨hr.tiled, hr.seq_eq, hr.le_framesWritten⟩
  | resume => exact ⟨hr.tiled, hr.seq_eq, hr.le_framesWritten⟩

theorem sound_run (hr : Sound r) (events : List Event) : Sound (run settings r events) := by
  induction events generalizing r with
  | nil => exact hr
  | cons e events ih => exact ih (sound_step hr e)

theorem sound_start (h : start settings opens = some r) : Sound r := by
  rw [start] at h
  split at h
  · cases h
    exact sound_openNextFile sound_blank rfl
  · cases h

/-- Once everything is closed, all frames are in segments. -/
theorem tiled_stop (hr : Sound r) :
    Tiled (stop settings r).1.emitted (stop settings r).1.framesWritten := by
  have htiled := (@sound_closeFile settings r hr).tiled
  rwa [inSegments_of_closed file_closeFile] at htiled

theorem write_closed (hfile : r.file = none) (frameLength : ℕ) (written : Bool) :
    write settings frameLength written opens r = r := by
  rw [write, hfile]
  cases r.paused <;> rfl

/-- Buffers that come after a failed open, or after `stop`, are not counted either. -/
theorem run_closed (hfile : r.file = none) (events : List Event) :
    (run settings r events).emitted = r.emitted ∧
      (run settings r events).framesWritten = r.framesWritten := by
  induction events generalizing r with
  | nil => exact ⟨rfl, rfl⟩
  | cons e events ih =>
    cases e with
    | write frameLength written opens =>
      rw [run, List.foldl_cons, step, write_closed hfile]
      exact ih hfile
    | pause => exact @ih (pause r) hfile
    | resume => exact @ih (resume r) hfile

/-- After `stop` the segments are numbered from zero on and none is empty; each follows the
one before, and every frame that was written lies in one of them. -/
theorem segments_tile (opens : ℤ → Bool) (events : List Event)
    (h : start settings opens = some r) :
    Tiled (stop settings (run settings r events)).1.emitted
        (stop settings (run settings r events)).1.framesWritten ∧
      ∀ frame, 0 ≤ frame → frame < (stop settings (run settings r events)).1.framesWritten →
        ∃! g, g ∈ (stop settings (run settings r events)).1.emitted ∧
          g.start ≤ frame ∧ frame < g.stop := by
  have htiled := @tiled_stop settings _ (@sound_run settings _ (sound_start h) events)
  exact ⟨htiled, fun frame hlow hhigh => htiled.existsUnique hlow hhigh⟩

/-- Segments of four frames and more. The pause costs nine frames, the failed write three;
the third file does not open, so the last buffer is lost too. -/
theorem segments_tile_paused :
    let settings : Settings := ⟨"recording", 4, 32000, fun frames => frames * 1000 / 16000⟩
    let events : List Event :=
      [.write 3 true fun _ => true, .pause, .write 9 true fun _ => true, .resume,
        .write 3 false fun _ => true, .write 2 true fun _ => true, .write 7 true fun _ => false,
        .write 1 true fun _ => true]
    ∃ r, start settings (fun rate => rate == 24000) = some r ∧
      (stop settings (run settings r events)).1.emitted.map Emitted.range = [(0, 5), (5, 12)] ∧
      Tiled (stop settings (run settings r events)).1.emitted
        (stop settings (run settings r events)).1.framesWritten := by
  intro settings events
  have hstart : start settings (fun rate => rate == 24000) =
      some (openNextFile settings (fun rate => rate == 24000) blank).1 := rfl
  refine ⟨_, hstart, ?_, ?_⟩
  · decide +kernel
  · exact (segments_tile _ events hstart).1

end ScribeLocal.SegmentedRecorder
