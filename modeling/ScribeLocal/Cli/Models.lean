import ScribeLocal.Asr.Trim
import ScribeLocal.FileSystem
import ScribeLocal.Transition

/-!
# Pulling the models

`scribe models pull` streams each missing file of the recipe to a `.part` beside it and renames
that into place. A pull may fail at any call and be killed at any point, and run again.
-/
namespace ScribeLocal.Models
open FileSystem

abbrev Path := List String
abbrev Bytes := List UInt8
abbrev Disk := Fs String UInt8

/-! ## The recipe -/

structure Config where
  modelsDir : Path
  model : String
  diarization : Bool

structure Download where
  label : String
  url : String
  dest : Path
  bytes : ℕ
  deriving DecidableEq

/-- A raw file of a repository at `main`. -/
def hf (repo file : String) : String := "https://huggingface.co/" ++ repo ++ "/resolve/main/" ++ file

def parakeet : String := "parakeet-tdt-0.6b-v3"
def whisperTurbo : String := "whisper-large-v3-turbo"

/-- Remote name, local name and size. -/
def asrFiles (model : String) : List (String × String × ℕ) :=
  if model = parakeet then [
    ("encoder.onnx", "encoder.onnx", 41766257),
    ("encoder.weights", "encoder.weights", 2435420160),
    ("decoder.onnx", "decoder.onnx", 47233743),
    ("joiner.onnx", "joiner.onnx", 25286330),
    ("tokens.txt", "tokens.txt", 93939)]
  else if model = whisperTurbo then [
    ("turbo-encoder.onnx", "encoder.onnx", 735920),
    ("turbo-decoder.onnx", "decoder.onnx", 636209532),
    ("turbo-tokens.txt", "tokens.txt", 816730),
    ("turbo-encoder.weights", "turbo-encoder.weights", 2600325120)]
  else []

def Config.asrDir (cfg : Config) : Path := cfg.modelsDir ++ ["asr", cfg.model]
def Config.diarDir (cfg : Config) : Path := cfg.modelsDir ++ ["diarization"]

def asrPlan (cfg : Config) : List Download :=
  let repo :=
    if cfg.model = parakeet then "csukuangfj/sherpa-onnx-nemo-parakeet-tdt-0.6b-v3"
    else "csukuangfj/sherpa-onnx-whisper-turbo"
  (asrFiles cfg.model).map fun f =>
    { label := "asr/" ++ cfg.model ++ "/" ++ f.2.1
      url := hf repo f.1
      dest := cfg.asrDir ++ [f.2.1]
      bytes := f.2.2 }

def diarPlan (cfg : Config) : List Download :=
  if cfg.diarization then [
    { label := "diarization/segmentation.onnx"
      url := hf "csukuangfj/sherpa-onnx-pyannote-segmentation-3-0" "model.onnx"
      dest := cfg.diarDir ++ ["segmentation.onnx"]
      bytes := 5992913 },
    { label := "diarization/embedding.onnx"
      url := "https://github.com/k2-fsa/sherpa-onnx/releases/download/" ++
        "speaker-recongition-models/3dspeaker_speech_eres2net_sv_en_voxceleb_16k.onnx"
      dest := cfg.diarDir ++ ["embedding.onnx"]
      bytes := 26485263 }]
  else []

def plan (cfg : Config) : List Download := asrPlan cfg ++ diarPlan cfg

/-- What stands before the last dot, if that is not the first character. -/
def stem (name : String) : String :=
  match name.toList.reverse.dropWhile (· ≠ '.') with
  | _ :: c :: rest => String.ofList (c :: rest).reverse
  | _ => name

def withExtension (p : Path) (ext : String) : Path :=
  p.dropLast ++ [stem (p.getLastD "") ++ "." ++ ext]

def Download.part (d : Download) : Path := withExtension d.dest "part"

/-! ## Finding the models -/

def present (fs : Disk) (p : Path) : Bool := (fs.files p).isSome || fs.dirs p

def firstExisting (fs : Disk) (candidates : List Path) : Option Path :=
  candidates.find? (present fs)

inductive AsrModelPaths
  | transducer (encoder decoder joiner tokens : Path)
  | whisper (encoder decoder tokens : Path)

def transducerPaths (fs : Disk) (dir tokens : Path) : Option AsrModelPaths := do
  let encoder ← firstExisting fs [dir ++ ["encoder.onnx"], dir ++ ["encoder.int8.onnx"]]
  let decoder ← firstExisting fs [dir ++ ["decoder.onnx"], dir ++ ["decoder.int8.onnx"]]
  let joiner ← firstExisting fs [dir ++ ["joiner.onnx"], dir ++ ["joiner.int8.onnx"]]
  return .transducer encoder decoder joiner tokens

def whisperPaths (fs : Disk) (dir tokens : Path) : Option AsrModelPaths := do
  let encoder ← firstExisting fs [dir ++ ["encoder.onnx"], dir ++ ["whisper-encoder.onnx"]]
  let decoder ← firstExisting fs [dir ++ ["decoder.onnx"], dir ++ ["whisper-decoder.onnx"]]
  return .whisper encoder decoder tokens

def layoutIn (fs : Disk) (dir : Path) : Option AsrModelPaths :=
  let tokens := dir ++ ["tokens.txt"]
  if present fs tokens then (transducerPaths fs dir tokens).or (whisperPaths fs dir tokens)
  else none

/-- `entries` is what `read_dir` lists of the folder, if it can. -/
def modelSubdir (fs : Disk) (entries : Option (List String)) (base : Path) (model : String) :
    Option Path :=
  let want := String.ofList (Asr.trim model.toList)
  if want.isEmpty then none
  else if fs.dirs (base ++ [want]) then some (base ++ [want])
  else entries.bind fun names =>
    (names.find? fun n => fs.dirs (base ++ [n]) &&
      n.toList.map Char.toLower == want.toList.map Char.toLower).map fun n => base ++ [n]

def discoverFor (fs : Disk) (entries : Option (List String)) (modelsDir : Path) (model : String) :
    Option AsrModelPaths :=
  let base := modelsDir ++ ["asr"]
  ((modelSubdir fs entries base model).bind (layoutIn fs)).or (layoutIn fs base)

def discoverDiarization (fs : Disk) (modelsDir : Path) : Option (Path × Path) := do
  let dir := modelsDir ++ ["diarization"]
  let segmentation ← firstExisting fs [dir ++ ["segmentation.onnx"], dir ++ ["segmentation.int8.onnx"]]
  let embedding ← firstExisting fs [dir ++ ["embedding.onnx"], dir ++ ["embedding.int8.onnx"]]
  return (segmentation, embedding)

def realModelsPresent (fs : Disk) (entries : Option (List String)) (modelsDir : Path)
    (model : String) (diarization : Bool) : Bool :=
  if (discoverFor fs entries modelsDir model).isNone then false
  else if diarization && (discoverDiarization fs modelsDir).isNone then false
  else true

/-! ## A pull -/

/-- What upstream serves for a URL. -/
structure Response where
  body : Bytes
  contentLength : Option ℕ
  length_eq : ∀ n ∈ contentLength, n = body.length

/-- Where a pull is. -/
inductive Proc
  | idle
  | next (todo : List Download)
  | asking (d : Download) (rest : List Download)
  | opening (d : Download) (rest : List Download) (r : Response)
  | receiving (d : Download) (rest : List Download) (r : Response) (file : FileId) (written : ℕ)
  | checking (d : Download) (rest : List Download) (r : Response) (written : ℕ)
  | placing (d : Download) (rest : List Download)
  | discarding (d : Download)
  /-- Whether everything in the plan was downloaded. -/
  | ended (ok : Bool)

structure Machine where
  fs : Disk
  proc : Proc

inductive Label
  | pull (force : Bool)
  /-- The next call succeeds, or fails of itself. -/
  | step
  | respond (r : Response)
  /-- The stream yields up to `k` bytes, and they are written. -/
  | chunk (k : ℕ)
  | finish
  /-- The next call fails. -/
  | fail
  | stop

def Proc.failed : Proc → Proc
  | .idle => .idle
  | .next [] => .next []
  | .receiving d _ _ _ _ => .discarding d
  | .ended ok => .ended ok
  | _ => .ended false

/-- The next call, as far as it is up to the file system. -/
def Machine.next (s : Machine) : Option Machine :=
  match s.proc with
  | .next [] => some { s with proc := .ended true }
  | .next (d :: rest) =>
    match s.fs.createDirAll d.dest.dropLast with
    | some fs => some ⟨fs, .asking d rest⟩
    | none => some { s with proc := .ended false }
  | .opening d rest r =>
    match s.fs.create d.part with
    | some (fs, file) => some ⟨fs, .receiving d rest r file 0⟩
    | none => some { s with proc := .ended false }
  | .checking d rest r written =>
    -- truncated transfers are the failure we most want to catch
    if r.contentLength.any (· ≠ written) then some { s with proc := .discarding d }
    else some { s with proc := .placing d rest }
  | .placing d rest =>
    match s.fs.rename d.part d.dest with
    | some fs => some ⟨fs, .next rest⟩
    | none => some { s with proc := .ended false }
  | .discarding d => some ⟨(s.fs.remove d.part).getD s.fs, .ended false⟩
  | _ => none

def Machine.step (cfg : Config) (s : Machine) : Label → Option Machine
  | .pull force => match s.proc with
    | .idle | .ended _ =>
      some { s with proc := .next ((plan cfg).filter fun d => force || !present s.fs d.dest) }
    | _ => none
  | .step => s.next
  | .respond r => match s.proc with
    | .asking d rest => some { s with proc := .opening d rest r }
    | _ => none
  | .chunk k => match s.proc with
    | .receiving d rest r file written =>
      let bytes := (r.body.drop written).take k
      some ⟨s.fs.write file written bytes, .receiving d rest r file (written + bytes.length)⟩
    | _ => none
  | .finish => match s.proc with
    | .receiving d rest r _ written => some { s with proc := .checking d rest r written }
    | _ => none
  | .fail => some { s with proc := s.proc.failed }
  | .stop => some { s with proc := .idle }

/-! ## What a step can do -/

/-- A pull goes on and the disk stays as it is. -/
inductive Turn (cfg : Config) (fs : Disk) : Label → Proc → Proc → Prop
  | pull {p : Proc} (force : Bool) : Turn cfg fs (.pull force) p
      (.next ((plan cfg).filter fun d => force || !present fs d.dest))
  | done : Turn cfg fs .step (.next []) (.ended true)
  | respond (d : Download) (rest : List Download) (r : Response) :
      Turn cfg fs (.respond r) (.asking d rest) (.opening d rest r)
  | finish (d : Download) (rest : List Download) (r : Response) (file : FileId) (written : ℕ) :
      Turn cfg fs .finish (.receiving d rest r file written) (.checking d rest r written)
  | whole {d : Download} {rest : List Download} {r : Response} {written : ℕ}
      (hlength : ∀ n ∈ r.contentLength, n = written) :
      Turn cfg fs .step (.checking d rest r written) (.placing d rest)
  | short {d : Download} {rest : List Download} {r : Response} {written : ℕ} :
      Turn cfg fs .step (.checking d rest r written) (.discarding d)
  | broken (d : Download) (rest : List Download) (r : Response) (file : FileId) (written : ℕ) :
      Turn cfg fs .fail (.receiving d rest r file written) (.discarding d)
  | failed {a : Label} {p : Proc} : Turn cfg fs a p (.ended false)
  | stopped {a : Label} {p : Proc} : Turn cfg fs a p .idle
  | stays {a : Label} {p : Proc} : Turn cfg fs a p p

inductive Moved (cfg : Config) (s : Machine) : Label → Machine → Prop
  | turn {a : Label} {p : Proc} (hturn : Turn cfg s.fs a s.proc p) :
      Moved cfg s a { s with proc := p }
  | createDir {d : Download} {rest : List Download} {fs : Disk} (hproc : s.proc = .next (d :: rest))
      (hfs : s.fs.createDirAll d.dest.dropLast = some fs) : Moved cfg s .step ⟨fs, .asking d rest⟩
  | create {d : Download} {rest : List Download} {r : Response} {fs : Disk} {file : FileId}
      (hproc : s.proc = .opening d rest r) (hfs : s.fs.create d.part = some (fs, file)) :
      Moved cfg s .step ⟨fs, .receiving d rest r file 0⟩
  | chunk {d : Download} {rest : List Download} {r : Response} {file : FileId} {written : ℕ} (k : ℕ)
      (hproc : s.proc = .receiving d rest r file written) :
      Moved cfg s (.chunk k) ⟨s.fs.write file written ((r.body.drop written).take k),
        .receiving d rest r file (written + ((r.body.drop written).take k).length)⟩
  | rename {d : Download} {rest : List Download} {fs : Disk} (hproc : s.proc = .placing d rest)
      (hfs : s.fs.rename d.part d.dest = some fs) : Moved cfg s .step ⟨fs, .next rest⟩
  | discard {d : Download} (hproc : s.proc = .discarding d) :
      Moved cfg s .step ⟨(s.fs.remove d.part).getD s.fs, .ended false⟩

variable {cfg : Config} {s s' : Machine} {a : Label}

theorem next_moved (h : s.next = some s') : Moved cfg s .step s' := by
  unfold Machine.next at h
  split at h
  · next hproc =>
    cases h
    exact .turn (hproc ▸ .done)
  · next d rest hproc =>
    split at h
    · next fs hfs =>
      cases h
      exact .createDir hproc hfs
    · cases h
      exact .turn .failed
  · next d rest r hproc =>
    split at h
    · next fs file hfs =>
      cases h
      exact .create hproc hfs
    · cases h
      exact .turn .failed
  · next d rest r written hproc =>
    split at h
    · cases h
      exact .turn (hproc ▸ .short)
    · next hany =>
      cases h
      refine .turn (hproc ▸ .whole fun n hn => ?_)
      rw [Option.mem_def.mp hn] at hany
      simpa using hany
  · next d rest hproc =>
    split at h
    · next fs hfs =>
      cases h
      exact .rename hproc hfs
    · cases h
      exact .turn .failed
  · next d hproc =>
    cases h
    exact .discard hproc
  · cases h

theorem failed_turn (fs : Disk) (p : Proc) : Turn cfg fs .fail p p.failed := by
  cases p with
  | idle => exact .stays
  | next todo =>
    cases todo with
    | nil => exact .stays
    | cons d rest => exact .failed
  | receiving d rest r file written => exact .broken d rest r file written
  | ended ok => exact .stays
  | asking | opening | checking | placing | discarding => exact .failed

theorem step_moved (h : s.step cfg a = some s') : Moved cfg s a s' := by
  cases a with
  | pull force =>
    simp only [Machine.step] at h
    split at h
    · cases h
      exact .turn (.pull force)
    · cases h
      exact .turn (.pull force)
    · cases h
  | step => exact next_moved h
  | respond r =>
    simp only [Machine.step] at h
    split at h
    · next d rest hproc =>
      cases h
      exact .turn (hproc ▸ .respond d rest r)
    · cases h
  | chunk k =>
    simp only [Machine.step] at h
    split at h
    · next d rest r file written hproc =>
      cases h
      exact .chunk k hproc
    · cases h
  | finish =>
    simp only [Machine.step] at h
    split at h
    · next d rest r file written hproc =>
      cases h
      exact .turn (hproc ▸ .finish d rest r file written)
    · cases h
  | fail =>
    cases h
    exact .turn (failed_turn s.fs s.proc)
  | stop =>
    cases h
    exact .turn .stopped

end ScribeLocal.Models
