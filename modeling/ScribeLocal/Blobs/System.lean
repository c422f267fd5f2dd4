import ScribeLocal.FileSystem
import ScribeLocal.Pipeline.ConcatList

/-!
# The folder of one recording

Uploads and the transcode stage write into the recording's folder, a delete removes it.
Every call to the file system and every statement is a step of its own, and any of them may
fail or be the last that its caller makes.
-/
namespace ScribeLocal.Blobs
open FileSystem Pipeline Transition

abbrev Bytes := List UInt8

/-! ## Paths -/

def segmentsDir (blobs : Path) (r : Uuid) : Path := recordingDir blobs r ++ ["segments"]

/-- `trim_start_matches('.')` -/
def trimDots (ext : String) : String := String.ofList (ext.toList.dropWhile fun c => c.toNat = 46)

def segmentPath (blobs : Path) (r : Uuid) (seq : ℤ) (ext : String) : Path :=
  segmentsDir blobs r ++ [zeroPadded seq ++ "." ++ trimDots ext]

/-- The temporary file of an upload, next to the segment it becomes. -/
def tmpPath (blobs : Path) (r : Uuid) (seq : ℤ) (ext : String) : Path :=
  segmentsDir blobs r ++ ["." ++ zeroPadded seq ++ "." ++ ext ++ ".partial"]

/-- Relative to the blob root. -/
def segmentKey (r : Uuid) (seq : ℤ) (ext : String) : Path := segmentPath [] r seq ext

def resolveKey (blobs key : Path) : Path := blobs ++ key

/-! ## Processes -/

/-- A `PUT` of a segment, as its handler has resolved it; the body comes in chunks. -/
structure Upload where
  seq : ℤ
  ext : String
  startMs : Option ℤ
  durationMs : Option ℤ
  chunks : List Bytes
  deriving DecidableEq

def Upload.body (u : Upload) : Bytes := u.chunks.flatten

structure SegmentRow where
  storageKey : Path
  startMs : Option ℤ
  durationMs : Option ℤ
  bytes : ℕ
  sha256 : Bytes
  deriving DecidableEq

/-- A call of `transcode_to_wav`. The stage of a live segment removes its WAV afterwards. -/
structure Transcode extends Call where
  temp : Bool

/-- The call or statement a process makes next. -/
inductive Proc where
  | idle
  | putRead (u : Upload)
  | putDir (u : Upload)
  | putCreate (u : Upload)
  | putStream (u : Upload) (n : FileId) (sent : Bytes) (rest : List Bytes)
  | putRename (u : Upload) (sent : Bytes)
  | putRow (u : Upload) (sent : Bytes)
  | callDir (c : Transcode)
  | callList (c : Transcode)
  | callSpawn (c : Transcode)
  /-- `ffmpeg` before it opens its output. It runs on when its caller is dropped. -/
  | ffmpeg (c : Transcode) (waited : Bool)
  | ffmpegOut (c : Transcode) (n : FileId) (waited : Bool)
  | callClean (c : Transcode) (ok : Bool)
  | callCheck (c : Transcode) (ok : Bool)
  | wavRead (c : Transcode)
  | wavClean (c : Transcode)
  | deleteRead
  | deleteDir
  | deleteRow
  | ended (ok : Bool)

def Proc.isOver : Proc → Bool
  | .idle | .ended _ => true
  | _ => false

/-- The recording's part of the disk and of the database. -/
structure Store where
  fs : Fs String UInt8
  recorded : Bool
  segments : ℤ → Option SegmentRow
  procs : ℕ → Proc

/-- A recording that has just been created. -/
def Store.start : Store := ⟨Fs.empty, true, fun _ => none, fun _ => .idle⟩

def Store.setProc (s : Store) (i : ℕ) (p : Proc) : Store :=
  { s with procs := Function.update s.procs i p }

inductive Label where
  | put (i : ℕ) (u : Upload)
  | transcode (i : ℕ) (c : Transcode)
  | delete (i : ℕ)
  /-- The next call returns what the disk and the database say. -/
  | step (i : ℕ)
  /-- The next call fails, or the upload's body ends in an error. -/
  | fail (i : ℕ)
  /-- A write fails after `k` bytes; an upload then tries to remove its temporary file. -/
  | writeErr (i k : ℕ) (removed : Bool)
  /-- `ffmpeg` has written its output and exits. -/
  | output (i : ℕ) (wav : Bytes)
  | stop (i : ℕ)

/-- What is left of a process when its caller is dropped. -/
def Proc.stopped : Proc → Proc
  | .idle => .idle
  | .ended ok => .ended ok
  | .ffmpeg c _ => .ffmpeg c false
  | .ffmpegOut c n _ => .ffmpegOut c n false
  | _ => .ended false

/-- What follows the exit of `ffmpeg`. -/
def afterFfmpeg (c : Transcode) (waited ok : Bool) : Proc :=
  if waited then .callClean c ok else .ended false

/-- What follows a successful call. -/
def afterCall (c : Transcode) : Proc := if c.temp then .wavRead c else .ended true

/-- What follows a call that has failed. -/
def Proc.failed : Proc → Proc
  | .idle => .idle
  | .ended ok => .ended ok
  | .ffmpeg c waited | .ffmpegOut c _ waited => afterFfmpeg c waited false
  -- that a file could not be removed is ignored
  | .callClean c ok => .callCheck c ok
  | .wavClean _ => .ended true
  | _ => .ended false

variable (sha256 : Bytes → Bytes) (blobs : Path) (r : Uuid)

/-- The next call of a process: the disk and the database after it, and what comes next. -/
def Store.next (s : Store) : Proc → Option (Store × Proc)
  | .putRead u => some (s, if s.recorded then .putDir u else .ended false)
  | .putDir u =>
    match s.fs.createDirAll (segmentsDir blobs r) with
    | some fs => some ({ s with fs := fs }, .putCreate u)
    | none => some (s, .ended false)
  | .putCreate u =>
    match s.fs.create (tmpPath blobs r u.seq u.ext) with
    | some (fs, n) => some ({ s with fs := fs }, .putStream u n [] u.chunks)
    | none => some (s, .ended false)
  | .putStream u n sent (chunk :: rest) =>
    some ({ s with fs := s.fs.write n sent.length chunk }, .putStream u n (sent ++ chunk) rest)
  | .putStream u _ sent [] => some (s, .putRename u sent)
  | .putRename u sent =>
    match s.fs.rename (tmpPath blobs r u.seq u.ext) (segmentPath blobs r u.seq u.ext) with
    | some fs => some ({ s with fs := fs }, .putRow u sent)
    | none => some (s, .ended false)
  | .putRow u sent =>
    -- a row of an unknown recording breaks the foreign key
    if s.recorded then
      some ({ s with segments := Function.update s.segments u.seq (some
        ⟨segmentKey r u.seq u.ext, u.startMs, u.durationMs, sent.length, sha256 sent⟩) }, .ended true)
    else some (s, .ended false)
  | .callDir c =>
    match s.fs.createDirAll c.out.dropLast with
    | some fs => some ({ s with fs := fs }, .callList c)
    | none => some (s, .ended false)
  | .callList c =>
    match s.fs.create (listPath c.out) with
    | some (fs, n) =>
      some ({ s with fs := fs.write n 0 (concatList c.inputs).toUTF8.toList }, .callSpawn c)
    | none => some (s, .ended false)
  | .callSpawn c => some (s, .ffmpeg c true)
  | .ffmpeg c waited =>
    match s.fs.create c.out with
    | some (fs, n) => some ({ s with fs := fs }, .ffmpegOut c n waited)
    | none => some (s, afterFfmpeg c waited false)
  | .callClean c ok =>
    some ({ s with fs := (s.fs.remove (listPath c.out)).getD s.fs }, .callCheck c ok)
  | .callCheck c ok =>
    some (s, if ok && (s.fs.files c.out).isSome then afterCall c else .ended false)
  | .wavRead c => some (s, .wavClean c)
  | .wavClean c => some ({ s with fs := (s.fs.remove c.out).getD s.fs }, .ended true)
  | .deleteRead => some (s, if s.recorded then .deleteDir else .ended false)
  | .deleteDir =>
    -- a folder that is not there counts as removed
    some ({ s with fs := (s.fs.removeDirAll (recordingDir blobs r)).getD s.fs }, .deleteRow)
  | .deleteRow =>
    if s.recorded then
      some ({ s with recorded := false, segments := fun _ => none }, .ended true)
    else some (s, .ended false)
  | _ => none

def Store.step (s : Store) : Label → Option Store
  | .put i u => match s.procs i with
    | .idle => some (s.setProc i (.putRead u))
    | _ => none
  | .transcode i c => match s.procs i with
    | .idle => some (s.setProc i (.callDir c))
    | _ => none
  | .delete i => match s.procs i with
    | .idle => some (s.setProc i .deleteRead)
    | _ => none
  | .step i => (s.next sha256 blobs r (s.procs i)).map fun p => p.1.setProc i p.2
  | .fail i => some (s.setProc i (s.procs i).failed)
  | .writeErr i k removed => match s.procs i with
    | .putStream u n sent (chunk :: _) =>
      let fs := s.fs.write n sent.length (chunk.take k)
      some (({ s with fs := if removed then (fs.remove (tmpPath blobs r u.seq u.ext)).getD fs else fs } :
        Store).setProc i (.ended false))
    | .callList c => (s.fs.create (listPath c.out)).map fun p =>
      ({ s with fs := p.1.write p.2 0 ((concatList c.inputs).toUTF8.toList.take k) } : Store).setProc i
        (.ended false)
    | _ => none
  | .output i wav => match s.procs i with
    | .ffmpegOut c n waited =>
      some (({ s with fs := s.fs.write n 0 wav } : Store).setProc i (afterFfmpeg c waited true))
    | _ => none
  | .stop i => some (s.setProc i (s.procs i).stopped)

/-! ## What a step can do -/

/-- The process is going to take the file at `p` away: an upload its temporary file, a call
its list, the stage of a live segment its WAV, a delete all that there is. -/
def Proc.Takes (p : Path) : Proc → Prop
  | .putStream u _ _ _ | .putRename u _ => p = tmpPath blobs r u.seq u.ext
  | .callSpawn c | .ffmpeg c true | .ffmpegOut c _ true | .callClean c true =>
    p = listPath c.out ∨ c.temp = true ∧ p = c.out
  | .callClean c false => p = listPath c.out
  | .callCheck c true => c.temp = true ∧ p = c.out
  | .wavRead c | .wavClean c => p = c.out
  | .deleteDir => True
  | _ => False

/-- A process goes on and the disk and the database stay as they are. -/
inductive Turn (s : Store) : Proc → Proc → Prop
  | found (u : Upload) : Turn s (.putRead u) (.putDir u)
  | flushed (u : Upload) (n : FileId) (sent : Bytes) :
      Turn s (.putStream u n sent []) (.putRename u sent)
  | spawned (c : Transcode) : Turn s (.callSpawn c) (.ffmpeg c true)
  | checked {c : Transcode} (htemp : c.temp = true) : Turn s (.callCheck c true) (.wavRead c)
  | kept {c : Transcode} (htemp : c.temp = false) : Turn s (.callCheck c true) (.ended true)
  | unchecked {c : Transcode} {ok : Bool} (hout : ok = true → s.fs.files c.out = none) :
      Turn s (.callCheck c ok) (.ended false)
  | decoded (c : Transcode) : Turn s (.wavRead c) (.wavClean c)
  | known : Turn s .deleteRead .deleteDir
  | refused (p : Proc) (hp : (∀ q, ¬ p.Takes blobs r q) ∨ ∃ u sent, p = .putRename u sent)
      (hrow : ∀ u sent, p = .putRow u sent → s.recorded = false) : Turn s p (.ended false)

inductive Moved (s : Store) : Label → Store → Prop
  | put {i : ℕ} (u : Upload) (hidle : s.procs i = .idle) :
      Moved s (.put i u) (s.setProc i (.putRead u))
  | transcode {i : ℕ} (c : Transcode) (hidle : s.procs i = .idle) :
      Moved s (.transcode i c) (s.setProc i (.callDir c))
  | delete {i : ℕ} (hidle : s.procs i = .idle) : Moved s (.delete i) (s.setProc i .deleteRead)
  | turn {i : ℕ} {p : Proc} (hturn : Turn blobs r s (s.procs i) p) : Moved s (.step i) (s.setProc i p)
  | cut {i : ℕ} {a : Label} {p : Proc}
      (hcut : a = .fail i ∧ p = (s.procs i).failed ∨ a = .stop i ∧ p = (s.procs i).stopped) :
      Moved s a (s.setProc i p)
  | putDir {i : ℕ} {u : Upload} {fs : Fs String UInt8} (hproc : s.procs i = .putDir u)
      (hfs : s.fs.createDirAll (segmentsDir blobs r) = some fs) :
      Moved s (.step i) (({ s with fs := fs } : Store).setProc i (.putCreate u))
  | putCreate {i : ℕ} {u : Upload} {fs : Fs String UInt8} {n : FileId}
      (hproc : s.procs i = .putCreate u)
      (hfs : s.fs.create (tmpPath blobs r u.seq u.ext) = some (fs, n)) :
      Moved s (.step i) (({ s with fs := fs } : Store).setProc i (.putStream u n [] u.chunks))
  | putStream {i : ℕ} {u : Upload} {n : FileId} {sent chunk : Bytes} {rest : List Bytes}
      (hproc : s.procs i = .putStream u n sent (chunk :: rest)) :
      Moved s (.step i) (({ s with fs := s.fs.write n sent.length chunk } : Store).setProc i
        (.putStream u n (sent ++ chunk) rest))
  | putRename {i : ℕ} {u : Upload} {sent : Bytes} {fs : Fs String UInt8}
      (hproc : s.procs i = .putRename u sent)
      (hfs : s.fs.rename (tmpPath blobs r u.seq u.ext) (segmentPath blobs r u.seq u.ext) = some fs) :
      Moved s (.step i) (({ s with fs := fs } : Store).setProc i (.putRow u sent))
  | putRow {i : ℕ} {u : Upload} {sent : Bytes} (hproc : s.procs i = .putRow u sent)
      (hrecorded : s.recorded = true) :
      Moved s (.step i) (({ s with segments := Function.update s.segments u.seq (some
        ⟨segmentKey r u.seq u.ext, u.startMs, u.durationMs, sent.length, sha256 sent⟩) } :
          Store).setProc i (.ended true))
  | putErr {i k : ℕ} {u : Upload} {n : FileId} {sent chunk : Bytes} {rest : List Bytes}
      {removed : Bool} {fs : Fs String UInt8}
      (hproc : s.procs i = .putStream u n sent (chunk :: rest))
      (hfs : fs = s.fs.write n sent.length (chunk.take k) ∧
          (removed = true → s.fs.files (tmpPath blobs r u.seq u.ext) = none) ∨
        (s.fs.write n sent.length (chunk.take k)).remove (tmpPath blobs r u.seq u.ext) = some fs) :
      Moved s (.writeErr i k removed) (({ s with fs := fs } : Store).setProc i (.ended false))
  | callDir {i : ℕ} {c : Transcode} {fs : Fs String UInt8} (hproc : s.procs i = .callDir c)
      (hfs : s.fs.createDirAll c.out.dropLast = some fs) :
      Moved s (.step i) (({ s with fs := fs } : Store).setProc i (.callList c))
  | callList {i : ℕ} {c : Transcode} {fs : Fs String UInt8} {n : FileId}
      (hproc : s.procs i = .callList c) (hfs : s.fs.create (listPath c.out) = some (fs, n)) :
      Moved s (.step i)
        (({ s with fs := fs.write n 0 (concatList c.inputs).toUTF8.toList } : Store).setProc i
          (.callSpawn c))
  | callErr {i k : ℕ} {removed : Bool} {c : Transcode} {fs : Fs String UInt8} {n : FileId}
      (hproc : s.procs i = .callList c) (hfs : s.fs.create (listPath c.out) = some (fs, n)) :
      Moved s (.writeErr i k removed)
        (({ s with fs := fs.write n 0 ((concatList c.inputs).toUTF8.toList.take k) } :
          Store).setProc i (.ended false))
  | ffmpegOut {i : ℕ} {c : Transcode} {waited : Bool} {fs : Fs String UInt8} {n : FileId}
      (hproc : s.procs i = .ffmpeg c waited) (hfs : s.fs.create c.out = some (fs, n)) :
      Moved s (.step i) (({ s with fs := fs } : Store).setProc i (.ffmpegOut c n waited))
  | ffmpegErr {i : ℕ} {c : Transcode} {waited : Bool} (hproc : s.procs i = .ffmpeg c waited)
      (hfs : s.fs.create c.out = none) :
      Moved s (.step i) (s.setProc i (afterFfmpeg c waited false))
  | output {i : ℕ} {c : Transcode} {n : FileId} {waited : Bool} (wav : Bytes)
      (hproc : s.procs i = .ffmpegOut c n waited) :
      Moved s (.output i wav)
        (({ s with fs := s.fs.write n 0 wav } : Store).setProc i (afterFfmpeg c waited true))
  | callClean {i : ℕ} {c : Transcode} {ok : Bool} (hproc : s.procs i = .callClean c ok) :
      Moved s (.step i)
        (({ s with fs := (s.fs.remove (listPath c.out)).getD s.fs } : Store).setProc i
          (.callCheck c ok))
  | wavClean {i : ℕ} {c : Transcode} (hproc : s.procs i = .wavClean c) :
      Moved s (.step i)
        (({ s with fs := (s.fs.remove c.out).getD s.fs } : Store).setProc i (.ended true))
  | deleteDir {i : ℕ} (hproc : s.procs i = .deleteDir) :
      Moved s (.step i)
        (({ s with fs := (s.fs.removeDirAll (recordingDir blobs r)).getD s.fs } : Store).setProc i
          .deleteRow)
  | deleteRow {i : ℕ} (hproc : s.procs i = .deleteRow) :
      Moved s (.step i)
        (({ s with recorded := false, segments := fun _ => none } : Store).setProc i (.ended true))

variable {sha256 blobs r} {s s' : Store} {a : Label}

theorem step_moved (h : s.step sha256 blobs r a = some s') : Moved sha256 blobs r s a s' := by
  have hrefused {i : ℕ} {p : Proc} (hproc : s.procs i = p) (hp : ∀ q, ¬ p.Takes blobs r q)
      (hrow : ∀ u sent, p ≠ .putRow u sent) :
      Moved sha256 blobs r s (.step i) (s.setProc i (.ended false)) :=
    .turn (hproc ▸ .refused _ (.inl hp) fun u sent heq => absurd heq (hrow u sent))
  cases a with
  | put i u =>
    simp only [Store.step] at h
    split at h <;> cases h
    exact .put u ‹_›
  | transcode i c =>
    simp only [Store.step] at h
    split at h <;> cases h
    exact .transcode c ‹_›
  | delete i =>
    simp only [Store.step] at h
    split at h <;> cases h
    exact .delete ‹_›
  | fail i =>
    cases h
    exact .cut (.inl ⟨rfl, rfl⟩)
  | stop i =>
    cases h
    exact .cut (.inr ⟨rfl, rfl⟩)
  | writeErr i k removed =>
    simp only [Store.step] at h
    split at h
    · next u n sent chunk rest hproc =>
      cases h
      apply Moved.putErr hproc
      cases removed
      · exact .inl ⟨rfl, nofun⟩
      · rw [if_pos rfl]
        cases hremove : (s.fs.write n sent.length (chunk.take k)).remove
            (tmpPath blobs r u.seq u.ext) with
        | none =>
          have hnone := Fs.files_of_remove_eq_none hremove
          exact .inl ⟨rfl, fun _ => hnone⟩
        | some fs => exact .inr rfl
    · next hproc =>
      rcases Option.map_eq_some_iff.mp h with ⟨⟨fs, n⟩, hfs, rfl⟩
      exact .callErr hproc hfs
    · cases h
  | output i wav =>
    simp only [Store.step] at h
    split at h <;> cases h
    exact .output wav ‹_›
  | step i =>
    rcases Option.map_eq_some_iff.mp h with ⟨⟨s₁, p⟩, hnext, rfl⟩
    cases hproc : s.procs i with
    | idle => simp [Store.next, hproc] at hnext
    | ended ok => simp [Store.next, hproc] at hnext
    | putRead u =>
      simp only [Store.next, hproc] at hnext
      cases hnext
      cases s.recorded
      · exact hrefused hproc (fun _ => id) nofun
      · exact .turn (hproc ▸ .found u)
    | putDir u =>
      simp only [Store.next, hproc] at hnext
      split at hnext <;> cases hnext
      · exact .putDir hproc ‹_›
      · exact hrefused hproc (fun _ => id) nofun
    | putCreate u =>
      simp only [Store.next, hproc] at hnext
      split at hnext <;> cases hnext
      · exact .putCreate hproc ‹_›
      · exact hrefused hproc (fun _ => id) nofun
    | putStream u n sent rest =>
      cases rest with
      | nil =>
        simp only [Store.next, hproc] at hnext
        cases hnext
        exact .turn (hproc ▸ .flushed u n sent)
      | cons chunk rest =>
        simp only [Store.next, hproc] at hnext
        cases hnext
        exact .putStream hproc
    | putRename u sent =>
      simp only [Store.next, hproc] at hnext
      split at hnext <;> cases hnext
      · exact .putRename hproc ‹_›
      · exact .turn (hproc ▸ .refused _ (.inr ⟨u, sent, rfl⟩) nofun)
    | putRow u sent =>
      simp only [Store.next, hproc] at hnext
      split at hnext <;> cases hnext
      · exact .putRow hproc ‹_›
      · next hrecorded =>
        exact .turn (hproc ▸ .refused _ (.inl fun _ => id) fun _ _ _ => by simpa using hrecorded)
    | callDir c =>
      simp only [Store.next, hproc] at hnext
      split at hnext <;> cases hnext
      · exact .callDir hproc ‹_›
      · exact hrefused hproc (fun _ => id) nofun
    | callList c =>
      simp only [Store.next, hproc] at hnext
      split at hnext <;> cases hnext
      · exact .callList hproc ‹_›
      · exact hrefused hproc (fun _ => id) nofun
    | callSpawn c =>
      simp only [Store.next, hproc] at hnext
      cases hnext
      exact .turn (hproc ▸ .spawned c)
    | ffmpeg c waited =>
      simp only [Store.next, hproc] at hnext
      split at hnext <;> cases hnext
      · exact .ffmpegOut hproc ‹_›
      · exact .ffmpegErr hproc ‹_›
    | ffmpegOut c n waited => simp [Store.next, hproc] at hnext
    | callClean c ok =>
      simp only [Store.next, hproc] at hnext
      cases hnext
      exact .callClean hproc
    | callCheck c ok =>
      simp only [Store.next, hproc] at hnext
      cases hnext
      split
      · next hcheck =>
        rw [Bool.and_eq_true] at hcheck
        rw [hcheck.1] at hproc
        unfold afterCall
        split
        · next htemp => exact .turn (hproc ▸ .checked htemp)
        · next htemp => exact .turn (hproc ▸ .kept (Bool.eq_false_iff.mpr htemp))
      · next hcheck => exact .turn (hproc ▸ .unchecked (by simpa using hcheck))
    | wavRead c =>
      simp only [Store.next, hproc] at hnext
      cases hnext
      exact .turn (hproc ▸ .decoded c)
    | wavClean c =>
      simp only [Store.next, hproc] at hnext
      cases hnext
      exact .wavClean hproc
    | deleteRead =>
      simp only [Store.next, hproc] at hnext
      cases hnext
      cases s.recorded
      · exact hrefused hproc (fun _ => id) nofun
      · exact .turn (hproc ▸ .known)
    | deleteDir =>
      simp only [Store.next, hproc] at hnext
      cases hnext
      exact .deleteDir hproc
    | deleteRow =>
      simp only [Store.next, hproc] at hnext
      split at hnext <;> cases hnext
      · exact .deleteRow hproc
      · exact hrefused hproc (fun _ => id) nofun

@[simp] theorem Store.setProc_fs {i : ℕ} {p : Proc} : (s.setProc i p).fs = s.fs := rfl

@[simp] theorem Store.setProc_segments {i : ℕ} {p : Proc} :
    (s.setProc i p).segments = s.segments := rfl

@[simp] theorem Store.setProc_recorded {i : ℕ} {p : Proc} :
    (s.setProc i p).recorded = s.recorded := rfl

@[simp] theorem Store.setProc_self {i : ℕ} {p : Proc} : (s.setProc i p).procs i = p := by
  simp [Store.setProc]

@[simp] theorem Store.setProc_of_ne {i j : ℕ} {p : Proc} (h : j ≠ i) :
    (s.setProc i p).procs j = s.procs j := by
  simp [Store.setProc, h]

end ScribeLocal.Blobs
