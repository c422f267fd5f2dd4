import Mathlib.Tactic
import ScribeLocal.LittleEndian

/-!
# WAV files

`parse_wav` walks over the chunks of a file by their sizes. Its slices and its sums are
checked: where the program would stop, the result is `panic`.
-/
namespace ScribeLocal.Asr.Wav
open LittleEndian

abbrev Bytes := List UInt8

/-- A slice takes up at most `isize::MAX` bytes. -/
structure Buffer where
  bytes : Bytes
  length_lt : bytes.length < 2 ^ 63

structure WavData where
  sampleRate : UInt32
  channels : UInt16
  samples : List Float32

/-- `Error::Model`, or the end of the program. -/
inductive Failure
  | model (message : String)
  | panic
deriving DecidableEq

abbrev Result := Except Failure

def err (msg : String) : Failure := .model ("wav: " ++ msg)

/-! ## Reading -/

/-- `a + b` for `usize`. -/
def add (a b : ℕ) : Result ℕ := if a + b < 2 ^ 64 then .ok (a + b) else .error .panic

def saturatingAdd (a b : ℕ) : ℕ := min (a + b) (2 ^ 64 - 1)

/-- `b.get(i..j)` -/
def get (b : Bytes) (i j : ℕ) : Option Bytes :=
  if i ≤ j ∧ j ≤ b.length then some (b.extract i j) else none

/-- `&b[i..j]` -/
def slice (b : Bytes) (i j : ℕ) : Result Bytes :=
  match get b i j with
  | some s => .ok s
  | none => .error .panic

def readU16 (b : Bytes) (off : ℕ) : Result UInt16 := do
  let stop ← add off 2
  match get b off stop with
  | some s => .ok (UInt16.ofNat (ofLe s))
  | none => .error (err "unexpected end of file")

def readU32 (b : Bytes) (off : ℕ) : Result UInt32 := do
  let stop ← add off 4
  match get b off stop with
  | some s => .ok (UInt32.ofNat (ofLe s))
  | none => .error (err "unexpected end of file")

/-! ## Chunks -/

/-- `b"RIFF"` -/
def riff : Bytes := [82, 73, 70, 70]

/-- `b"WAVE"` -/
def wave : Bytes := [87, 65, 86, 69]

/-- `b"fmt "` -/
def fmtId : Bytes := [102, 109, 116, 32]

/-- `b"data"` -/
def dataId : Bytes := [100, 97, 116, 97]

structure Format where
  audioFormat : UInt16
  channels : UInt16
  sampleRate : UInt32
  bitsPerSample : UInt16

/-- What the walk has found so far. -/
structure Found where
  fmt : Option Format
  data : Option Bytes

def readFormat (body : Bytes) : Result Format :=
  if body.length < 16 then .error (err "fmt chunk too small")
  else do
    let audioFormat ← readU16 body 0
    let channels ← readU16 body 2
    let sampleRate ← readU32 body 4
    let bitsPerSample ← readU16 body 14
    pure ⟨audioFormat, channels, sampleRate, bitsPerSample⟩

def Found.chunk (found : Found) (chunkId body : Bytes) : Result Found :=
  if chunkId = fmtId then do
    let fmt ← readFormat body
    pure { found with fmt := some fmt }
  else if chunkId = dataId then pure { found with data := some body }
  else pure found

/-- Chunks are word-aligned: an odd size is followed by a pad byte. A chunk is never empty, so
that only the bound can fail. -/
def nextPos (pos chunkSize : ℕ) : Result {next : ℕ // pos < next ∧ next < 2 ^ 64} := do
  let size ← add 8 chunkSize
  let advance ← add size (chunkSize % 2)
  if h : pos < pos + advance ∧ pos + advance < 2 ^ 64 then .ok ⟨pos + advance, h⟩
  else .error (err "chunk overflow")

/-- Walk over the chunks from `pos` on. -/
def walk (bytes : Bytes) (pos : ℕ) (found : Found) : Result Found := do
  let bodyStart ← add pos 8
  if bodyStart ≤ bytes.length then
    let chunkId ← slice bytes pos (pos + 4)
    let chunkSize ← readU32 bytes (pos + 4)
    let bodyEnd := min (saturatingAdd bodyStart chunkSize.toNat) bytes.length
    let body ← slice bytes bodyStart bodyEnd
    let found ← found.chunk chunkId body
    let ⟨next, _⟩ ← nextPos pos chunkSize.toNat
    walk bytes next found
  else pure found
termination_by 2 ^ 64 - pos

/-! ## Samples -/

/-- The parts of length `n`, without what is left over. -/
def chunksExact {α : Type*} (n : ℕ) (l : List α) : List (List α) :=
  (List.range (l.length / n)).map fun i => l.extract (i * n) (i * n + n)

def decodeSamples (data : Bytes) (bits : UInt16) (isFloat : Bool) : Result (List Float32) :=
  match isFloat, bits with
  | true, 32 => .ok ((chunksExact 4 data).map fun c => Float32.ofBits (UInt32.ofNat (ofLe c)))
  | false, 8 => .ok (data.map fun b => (b.toFloat32 - 128) / 128)
  | false, 16 => .ok ((chunksExact 2 data).map fun c =>
      (UInt16.ofNat (ofLe c)).toInt16.toFloat32 / 32768)
  | false, 24 => .ok ((chunksExact 3 data).map fun c =>
      ((UInt32.ofNat (ofLe c)).toInt32 <<< 8 >>> 8).toFloat32 / 8388608)
  | false, 32 => .ok ((chunksExact 4 data).map fun c =>
      (UInt32.ofNat (ofLe c)).toInt32.toFloat32 / 2147483648)
  | _, other => .error (err ("unsupported bit depth " ++ toString other))

/-- Average interleaved channels down to mono. -/
def downmixToMono (interleaved : List Float32) (channels : UInt16) : List Float32 :=
  if channels ≤ 1 then interleaved
  else (chunksExact channels.toNat interleaved).map fun frame =>
    frame.foldl (· + ·) 0 / channels.toFloat32

def okOr {α : Type} (x : Option α) (msg : String) : Result α :=
  match x with
  | some a => .ok a
  | none => .error (err msg)

/-- Whether a buffer starts like a WAVE file; the slices are only taken from a long one. -/
def isWave (bytes : Bytes) : Result Bool :=
  if bytes.length < 12 then pure false
  else do
    let magic ← slice bytes 0 4
    if magic = riff then do
      let form ← slice bytes 8 12
      pure (form = wave)
    else pure false

def parseWav (buffer : Buffer) : Result WavData := do
  if ← isWave buffer.bytes then
    let found ← walk buffer.bytes 12 ⟨none, none⟩
    let fmt ← okOr found.fmt "missing fmt chunk"
    let data ← okOr found.data "missing data chunk"
    if fmt.channels = 0 then .error (err "zero channels")
    else
      let isFloat := fmt.audioFormat = 3
      if ¬ isFloat ∧ fmt.audioFormat ≠ 1 ∧ fmt.audioFormat ≠ 0xFFFE then
        .error (err ("unsupported audio format " ++ toString fmt.audioFormat))
      else
        let interleaved ← decodeSamples data fmt.bitsPerSample isFloat
        pure ⟨fmt.sampleRate, fmt.channels, downmixToMono interleaved fmt.channels⟩
  else .error (err "not a RIFF/WAVE file")

/-- A file of 16-bit samples, as the tests write it. -/
def writePcm16Mono (sampleRate : UInt32) (samples : List Int16) : Bytes :=
  let dataLen := samples.length * 2
  riff ++ toLe 4 (36 + dataLen) ++ wave ++ fmtId ++ toLe 4 16 ++ toLe 2 1 ++ toLe 2 1 ++
    toLe 4 sampleRate.toNat ++ toLe 4 (sampleRate.toNat * 2) ++ toLe 2 2 ++ toLe 2 16 ++ dataId ++
    toLe 4 dataLen ++ samples.flatMap fun s => toLe 2 s.toUInt16.toNat

/-! ## One pass of the walk -/

variable {bytes b : Bytes} {pos off i j : ℕ} {found : Found}

theorem ok_bind {α β : Type} (a : α) (f : α → Result β) : (Except.ok a : Result α) >>= f = f a :=
  rfl

theorem add_eq (h : i + j < 2 ^ 64) : add i j = .ok (i + j) := if_pos h

theorem get_eq (hij : i ≤ j) (hj : j ≤ b.length) : get b i j = some (b.extract i j) :=
  if_pos ⟨hij, hj⟩

theorem slice_eq (hij : i ≤ j) (hj : j ≤ b.length) : slice b i j = .ok (b.extract i j) := by
  rw [slice, get_eq hij hj]

theorem readU16_eq (h : off + 2 ≤ b.length) (hlt : off + 2 < 2 ^ 64) :
    readU16 b off = .ok (UInt16.ofNat (ofLe (b.extract off (off + 2)))) := by
  rw [readU16, add_eq hlt, ok_bind, get_eq (by omega) h]

theorem readU32_eq (h : off + 4 ≤ b.length) (hlt : off + 4 < 2 ^ 64) :
    readU32 b off = .ok (UInt32.ofNat (ofLe (b.extract off (off + 4)))) := by
  rw [readU32, add_eq hlt, ok_bind, get_eq (by omega) h]

theorem nextPos_eq (h : pos + (8 + i + i % 2) < 2 ^ 64) :
    nextPos pos i = .ok ⟨pos + (8 + i + i % 2), by omega, h⟩ := by
  rw [nextPos, add_eq (by omega), ok_bind, add_eq (by omega), ok_bind]
  exact dif_pos ⟨by omega, h⟩

/-- The size that a chunk gives for itself. -/
def sizeAt (bytes : Bytes) (pos : ℕ) : ℕ := ofLe (bytes.extract (pos + 4) (pos + 8))

theorem sizeAt_lt : sizeAt bytes pos < 2 ^ 32 := by
  have hlt := ofLe_lt (bytes.extract (pos + 4) (pos + 8))
  have hlen : (bytes.extract (pos + 4) (pos + 8)).length ≤ 4 := by
    simp only [List.extract_eq_take_drop, List.length_take]
    omega
  have hpow : (256 : ℕ) ^ (bytes.extract (pos + 4) (pos + 8)).length ≤ 256 ^ 4 :=
    Nat.pow_le_pow_right (by decide) hlen
  exact lt_of_lt_of_le hlt hpow

/-- Within the buffer a pass reads a chunk and goes on behind it. -/
theorem walk_of_le (hlen : bytes.length < 2 ^ 63) (h : pos + 8 ≤ bytes.length) :
    walk bytes pos found = (do
      let found ← found.chunk (bytes.extract pos (pos + 4))
        (bytes.extract (pos + 8) (min (pos + 8 + sizeAt bytes pos) bytes.length))
      walk bytes (pos + (8 + sizeAt bytes pos + sizeAt bytes pos % 2)) found) := by
  have hsize : (UInt32.ofNat (ofLe (bytes.extract (pos + 4) (pos + 4 + 4)))).toNat =
      sizeAt bytes pos := UInt32.toNat_ofNat_of_lt' sizeAt_lt
  have hlt : sizeAt bytes pos < 2 ^ 32 := sizeAt_lt
  have hstop : saturatingAdd (pos + 8) (sizeAt bytes pos) = pos + 8 + sizeAt bytes pos := by
    unfold saturatingAdd
    omega
  rw [walk, add_eq (by omega), ok_bind, if_pos h, slice_eq (by omega) (by omega), ok_bind,
    readU32_eq (by omega) (by omega), ok_bind]
  simp only [hsize, hstop]
  rw [slice_eq (by omega) (by omega), ok_bind, nextPos_eq (by omega)]
  rfl

/-- Less than a header is left over. -/
theorem walk_of_lt (hpos : pos + 8 < 2 ^ 64) (h : bytes.length < pos + 8) :
    walk bytes pos found = .ok found := by
  rw [walk, add_eq hpos, ok_bind, if_neg (by omega)]
  rfl

/-! ## Nothing is read outside the buffer -/

/-- The fields of a format chunk. -/
def formatOf (body : Bytes) : Format where
  audioFormat := UInt16.ofNat (ofLe (body.extract 0 2))
  channels := UInt16.ofNat (ofLe (body.extract 2 4))
  sampleRate := UInt32.ofNat (ofLe (body.extract 4 8))
  bitsPerSample := UInt16.ofNat (ofLe (body.extract 14 16))

theorem readFormat_eq {body : Bytes} (h : 16 ≤ body.length) :
    readFormat body = .ok (formatOf body) := by
  rw [readFormat, if_neg (by omega), readU16_eq (by omega) (by decide), ok_bind,
    readU16_eq (by omega) (by decide), ok_bind, readU32_eq (by omega) (by decide), ok_bind,
    readU16_eq (by omega) (by decide), ok_bind]
  rfl

/-- Neither the result nor what is done with it ends the program. -/
theorem bind_ne_panic {α β : Type} {m : Result α} {f : α → Result β} (hm : m ≠ .error .panic)
    (hf : ∀ a, f a ≠ .error .panic) : m >>= f ≠ .error .panic := by
  cases m with
  | ok a => exact hf a
  | error e =>
    intro h
    exact hm (by injection h with he; rw [he])

theorem err_ne_panic {α : Type} (msg : String) : (.error (err msg) : Result α) ≠ .error .panic := by
  simp [err]

theorem ok_ne_panic {α : Type} (a : α) : (.ok a : Result α) ≠ .error .panic := nofun

theorem chunk_ne_panic (found : Found) (chunkId body : Bytes) :
    found.chunk chunkId body ≠ .error .panic := by
  unfold Found.chunk
  split
  · by_cases h : 16 ≤ body.length
    · rw [readFormat_eq h]
      exact ok_ne_panic _
    · rw [readFormat, if_pos (by omega)]
      exact err_ne_panic _
  · split
    · exact ok_ne_panic _
    · exact ok_ne_panic _

/-- However far behind the end a size has led the walk. -/
theorem walk_ne_panic (hlen : bytes.length < 2 ^ 63) (hpos : pos + 8 < 2 ^ 64) :
    walk bytes pos found ≠ .error .panic := by
  induction hleft : bytes.length + 8 - pos using Nat.strong_induction_on generalizing pos found with
  | _ left ih =>
    by_cases h : pos + 8 ≤ bytes.length
    · have hlt : sizeAt bytes pos < 2 ^ 32 := sizeAt_lt
      rw [walk_of_le hlen h]
      refine bind_ne_panic (chunk_ne_panic _ _ _) fun found => ?_
      exact ih _ (by omega) (by omega) rfl
    · rw [walk_of_lt hpos (by omega)]
      exact ok_ne_panic _

theorem okOr_ne_panic {α : Type} (x : Option α) (msg : String) : okOr x msg ≠ .error .panic := by
  cases x with
  | none => exact err_ne_panic msg
  | some a => exact ok_ne_panic a

theorem decodeSamples_ne_panic (data : Bytes) (bits : UInt16) (isFloat : Bool) :
    decodeSamples data bits isFloat ≠ .error .panic := by
  unfold decodeSamples
  split
  all_goals first | exact ok_ne_panic _ | exact err_ne_panic _

theorem isWave_eq (bytes : Bytes) : isWave bytes = .ok (decide (12 ≤ bytes.length ∧
    bytes.extract 0 4 = riff ∧ bytes.extract 8 12 = wave)) := by
  unfold isWave
  by_cases hlen : bytes.length < 12
  · rw [if_pos hlen, decide_eq_false (by omega)]
    rfl
  · rw [if_neg hlen, slice_eq (by omega) (by omega), ok_bind]
    by_cases hmagic : bytes.extract 0 4 = riff
    · rw [if_pos hmagic, slice_eq (by omega) (by omega), ok_bind]
      simp only [not_lt.mp hlen, hmagic, true_and]
      rfl
    · rw [if_neg hmagic]
      simp only [hmagic, false_and, and_false, decide_false]
      rfl

theorem parseWav_ne_panic (buffer : Buffer) : parseWav buffer ≠ .error .panic := by
  unfold parseWav
  rw [isWave_eq, ok_bind]
  split
  · refine bind_ne_panic (walk_ne_panic buffer.length_lt (by decide)) fun found => ?_
    refine bind_ne_panic (okOr_ne_panic _ _) fun fmt => ?_
    refine bind_ne_panic (okOr_ne_panic _ _) fun data => ?_
    split
    · exact err_ne_panic _
    · dsimp only
      split
      · exact err_ne_panic _
      · exact bind_ne_panic (decodeSamples_ne_panic _ _ _) fun interleaved => ok_ne_panic _
  · exact err_ne_panic _

/-! ## Well-formed files -/

/-- A chunk of a file. -/
structure Chunk where
  id : Bytes
  body : Bytes
  pad : UInt8
  length_id : id.length = 4
  length_body : body.length < 2 ^ 32

/-- The chunk in the file, padded to an even length. -/
def Chunk.encode (c : Chunk) : Bytes :=
  c.id ++ toLe 4 c.body.length ++ c.body ++ List.replicate (c.body.length % 2) c.pad

theorem extract_append {α : Type*} (before xs after : List α) {i j : ℕ} (hi : i = before.length)
    (hj : j = before.length + xs.length) : (before ++ (xs ++ after)).extract i j = xs := by
  rw [hi, hj, List.extract_eq_take_drop, List.drop_left, Nat.add_sub_cancel_left, List.take_left]

/-- The walk passes a chunk at a time. -/
theorem walk_encode {before after : Bytes} {c : Chunk}
    (hlen : (before ++ c.encode ++ after).length < 2 ^ 63) :
    walk (before ++ c.encode ++ after) before.length found = (do
      let found ← found.chunk c.id c.body
      walk (before ++ c.encode ++ after) (before ++ c.encode).length found) := by
  generalize hpadding : List.replicate (c.body.length % 2) c.pad = padding
  have hencode : c.encode = c.id ++ (toLe 4 c.body.length ++ (c.body ++ padding)) := by
    simp [Chunk.encode, hpadding]
  have hpad : padding.length = c.body.length % 2 := by
    rw [← hpadding, List.length_replicate]
  have hbytes : before ++ c.encode ++ after =
      before ++ (c.id ++ (toLe 4 c.body.length ++ (c.body ++ (padding ++ after)))) := by
    simp [hencode]
  have hid := c.length_id
  have hwhole : (before ++ c.encode ++ after).length =
      before.length + 8 + c.body.length + padding.length + after.length := by
    simp only [hbytes, List.length_append, hid, length_toLe]
    omega
  have hchunkId : (before ++ c.encode ++ after).extract before.length (before.length + 4) = c.id := by
    rw [hbytes]
    exact extract_append _ _ _ rfl (by rw [hid])
  have hsize : sizeAt (before ++ c.encode ++ after) before.length = c.body.length := by
    rw [sizeAt, hbytes, ← List.append_assoc, extract_append _ _ _ (by simp [hid]) (by simp [hid])]
    exact ofLe_toLe (lt_of_lt_of_eq c.length_body (by norm_num))
  have hbody : (before ++ c.encode ++ after).extract (before.length + 8)
      (before.length + 8 + c.body.length) = c.body := by
    rw [hbytes, ← List.append_assoc, ← List.append_assoc]
    exact extract_append _ _ _ (by simp [hid]) (by simp [hid])
  have hnext : (before ++ c.encode).length =
      before.length + (8 + c.body.length + c.body.length % 2) := by
    simp only [hencode, List.length_append, hid, length_toLe, hpad]
    omega
  rw [walk_of_le hlen (by omega), hchunkId, hsize, min_eq_left (by omega), hbody, hnext]

theorem walk_encodes {before : Bytes} {cs : List Chunk}
    (hlen : (before ++ cs.flatMap Chunk.encode).length < 2 ^ 63) :
    walk (before ++ cs.flatMap Chunk.encode) before.length found =
      cs.foldlM (fun found c => found.chunk c.id c.body) found := by
  induction cs generalizing before found with
  | nil =>
    rw [List.flatMap_nil, List.append_nil] at *
    rw [walk_of_lt (by omega) (by omega)]
    rfl
  | cons c cs ih =>
    rw [List.flatMap_cons, ← List.append_assoc] at *
    rw [walk_encode hlen, List.foldlM_cons]
    congr 1
    funext found
    exact ih hlen

/-- The last chunk of each kind counts. -/
theorem foldlM_chunk {cs : List Chunk} (h : ∀ c ∈ cs, c.id = fmtId → 16 ≤ c.body.length) :
    cs.foldlM (fun found c => found.chunk c.id c.body) found = .ok
      ⟨((cs.filter (·.id = fmtId)).getLast?.map fun c => formatOf c.body).or found.fmt,
        ((cs.filter (·.id = dataId)).getLast?.map Chunk.body).or found.data⟩ := by
  induction cs generalizing found with
  | nil => rfl
  | cons c cs ih =>
    rw [List.forall_mem_cons] at h
    rw [List.foldlM_cons, Found.chunk]
    by_cases hfmt : c.id = fmtId
    · have hdata : fmtId ≠ dataId := by decide
      rw [if_pos hfmt, readFormat_eq (h.1 hfmt), ok_bind]
      change List.foldlM _ _ cs = _
      rw [ih h.2]
      simp [hfmt, hdata, List.getLast?_cons]
    · rw [if_neg hfmt]
      by_cases hdata : c.id = dataId
      · rw [if_pos hdata]
        change List.foldlM _ _ cs = _
        rw [ih h.2]
        simp [hdata, List.getLast?_cons, hdata ▸ hfmt]
      · rw [if_neg hdata]
        change List.foldlM _ _ cs = _
        rw [ih h.2]
        simp [hfmt, hdata]

theorem chunksExact_eq {α : Type*} {n : ℕ} {l : List α} (hn : 0 < n) (h : n ≤ l.length) :
    chunksExact n l = l.take n :: chunksExact n (l.drop n) := by
  have hcount : l.length / n = (l.drop n).length / n + 1 := by
    rw [List.length_drop, Nat.div_eq_sub_div hn h]
  rw [chunksExact, hcount, List.range_succ_eq_map, List.map_cons, List.map_map, chunksExact]
  congr 1
  · simp
  · apply List.map_congr_left
    intro i _
    have hnext : i.succ * n = n + i * n := by rw [Nat.succ_mul, Nat.add_comm]
    simp only [Function.comp_apply, List.extract_eq_take_drop, List.drop_drop, hnext]
    congr 1
    omega

/-- Two bytes a sample, the lower one first. -/
def pcm16 : Bytes → List Int16
  | lo :: hi :: rest => (UInt16.ofNat (lo.toNat + 256 * hi.toNat)).toInt16 :: pcm16 rest
  | _ => []

theorem map_chunksExact (data : Bytes) :
    ((chunksExact 2 data).map fun c => (UInt16.ofNat (ofLe c)).toInt16) = pcm16 data := by
  fun_induction pcm16 data with
  | case1 lo hi rest ih =>
    have hpair : ofLe [lo, hi] = lo.toNat + 256 * hi.toNat := by
      rw [ofLe_cons, ofLe_cons, show ofLe [] = 0 from rfl, mul_zero, add_zero]
    rw [chunksExact_eq (by decide) (by simp), List.map_cons, ← hpair]
    exact congrArg _ ih
  | case2 data h =>
    match data with
    | [] => rfl
    | [b] => simp [chunksExact]
    | lo :: hi :: rest => exact absurd rfl (h lo hi rest)

/-- One format chunk that says 16-bit samples of one channel, and one data chunk. -/
structure Pcm16Mono (cs : List Chunk) (fmt data : Chunk) : Prop where
  filter_fmt : cs.filter (·.id = fmtId) = [fmt]
  filter_data : cs.filter (·.id = dataId) = [data]
  length_fmt : 16 ≤ fmt.body.length
  pcm : (formatOf fmt.body).audioFormat = 1
  mono : (formatOf fmt.body).channels = 1
  bits : (formatOf fmt.body).bitsPerSample = 16

theorem Pcm16Mono.foldlM_chunk {cs : List Chunk} {fmt data : Chunk} (h : Pcm16Mono cs fmt data) :
    cs.foldlM (fun (found : Found) c => found.chunk c.id c.body) ⟨none, none⟩ =
      .ok ⟨some (formatOf fmt.body), some data.body⟩ := by
  have hlong : ∀ c ∈ cs, c.id = fmtId → 16 ≤ c.body.length := by
    intro c hc hid
    have hmem : c ∈ cs.filter (·.id = fmtId) := List.mem_filter.mpr ⟨hc, by simpa using hid⟩
    rw [h.filter_fmt, List.mem_singleton] at hmem
    rw [hmem]
    exact h.length_fmt
  rw [Wav.foldlM_chunk hlong, h.filter_fmt, h.filter_data]
  rfl

theorem parseWav_encode {buffer : Buffer} {size : Bytes} {cs : List Chunk} {fmt data : Chunk}
    (hsize : size.length = 4)
    (hbytes : buffer.bytes = riff ++ size ++ wave ++ cs.flatMap Chunk.encode)
    (h : Pcm16Mono cs fmt data) : parseWav buffer = .ok ⟨(formatOf fmt.body).sampleRate, 1,
      (pcm16 data.body).map fun s => s.toFloat32 / 32768⟩ := by
  have hheader : (riff ++ size ++ wave).length = 12 := by simp [riff, wave, hsize]
  have hlong : 12 ≤ buffer.bytes.length := by
    rw [hbytes, List.length_append, hheader]
    exact Nat.le_add_right _ _
  have hmagic : buffer.bytes.extract 0 4 = riff := by
    rw [hbytes, List.append_assoc, List.append_assoc]
    exact extract_append [] riff _ rfl rfl
  have hform : buffer.bytes.extract 8 12 = wave := by
    rw [hbytes, List.append_assoc]
    exact extract_append _ _ _ (by simp [riff, hsize]) (by simp [riff, wave, hsize])
  have hwalk : walk buffer.bytes 12 ⟨none, none⟩ =
      .ok ⟨some (formatOf fmt.body), some data.body⟩ := by
    have hlt := buffer.length_lt
    rw [hbytes] at hlt ⊢
    rw [← hheader, walk_encodes hlt, h.foldlM_chunk]
  have hsamples : decodeSamples data.body 16 false =
      .ok ((pcm16 data.body).map fun s => s.toFloat32 / 32768) := by
    rw [← map_chunksExact, List.map_map]
    rfl
  unfold parseWav
  rw [isWave_eq, ok_bind, decide_eq_true ⟨hlong, hmagic, hform⟩, if_pos rfl, hwalk, ok_bind]
  simp only [okOr, ok_bind, h.mono, h.pcm, h.bits]
  rw [if_neg (by decide), if_neg (by decide), show decide ((1 : UInt16) = 3) = false by decide,
    hsamples, ok_bind]
  rfl

theorem pcm16_flatMap (samples : List Int16) :
    pcm16 (samples.flatMap fun s => toLe 2 s.toUInt16.toNat) = samples := by
  induction samples with
  | nil => rfl
  | cons s samples ih =>
    have hlt := s.toUInt16.toNat_lt
    have hsum : (UInt8.ofNat s.toUInt16.toNat).toNat +
        256 * (UInt8.ofNat (s.toUInt16.toNat / 256)).toNat = s.toUInt16.toNat := by
      rw [UInt8.toNat_ofNat', UInt8.toNat_ofNat']
      omega
    rw [List.flatMap_cons]
    change (UInt16.ofNat (_ + 256 * _)).toInt16 :: pcm16 ([] ++ _) = _
    rw [hsum, List.nil_append, ih, UInt16.ofNat_toNat, Int16.toInt16_toUInt16]

def fmtChunk (sampleRate : UInt32) : Chunk where
  id := fmtId
  body := toLe 2 1 ++ toLe 2 1 ++ (toLe 4 sampleRate.toNat ++ (toLe 4 (sampleRate.toNat * 2) ++
    (toLe 2 2 ++ toLe 2 16)))
  pad := 0
  length_id := rfl
  length_body := by simp

def dataChunk (samples : List Int16) (h : samples.length * 2 < 2 ^ 32) : Chunk where
  id := dataId
  body := samples.flatMap fun s => toLe 2 s.toUInt16.toNat
  pad := 0
  length_id := rfl
  length_body := by simpa using h

theorem pcm16Mono_write (sampleRate : UInt32) {samples : List Int16}
    (h : samples.length * 2 < 2 ^ 32) :
    Pcm16Mono [fmtChunk sampleRate, dataChunk samples h] (fmtChunk sampleRate)
      (dataChunk samples h) where
  filter_fmt := rfl
  filter_data := rfl
  length_fmt := by simp [fmtChunk]
  pcm := rfl
  mono := rfl
  bits := rfl

/-- What the tests write is read back. -/
theorem parseWav_write {buffer : Buffer} (sampleRate : UInt32) {samples : List Int16}
    (h : samples.length * 2 < 2 ^ 32) (hbytes : buffer.bytes = writePcm16Mono sampleRate samples) :
    parseWav buffer = .ok ⟨sampleRate, 1, samples.map fun s => s.toFloat32 / 32768⟩ := by
  have hrate : (formatOf (fmtChunk sampleRate).body).sampleRate = sampleRate := by
    have hfield : (fmtChunk sampleRate).body.extract 4 8 = toLe 4 sampleRate.toNat :=
      extract_append (toLe 2 1 ++ toLe 2 1) _ _ rfl (by simp)
    change UInt32.ofNat (ofLe ((fmtChunk sampleRate).body.extract 4 8)) = sampleRate
    rw [hfield, ofLe_toLe (lt_of_lt_of_eq sampleRate.toNat_lt (by norm_num)), UInt32.ofNat_toNat]
  have hchunks : buffer.bytes = riff ++ toLe 4 (36 + samples.length * 2) ++ wave ++
      [fmtChunk sampleRate, dataChunk samples h].flatMap Chunk.encode := by
    rw [hbytes]
    simp [writePcm16Mono, Chunk.encode, fmtChunk, dataChunk]
  rw [parseWav_encode (length_toLe _ _) hchunks (pcm16Mono_write sampleRate h), hrate]
  simp only [dataChunk, pcm16_flatMap]

/-- A well-formed file gives its samples and its rate, and no buffer is read outside. -/
theorem wav_parsed : (∀ (buffer : Buffer) (size : Bytes) (cs : List Chunk) (fmt data : Chunk),
      size.length = 4 → buffer.bytes = riff ++ size ++ wave ++ cs.flatMap Chunk.encode →
      Pcm16Mono cs fmt data →
      parseWav buffer = .ok ⟨(formatOf fmt.body).sampleRate, 1,
        (pcm16 data.body).map fun s => s.toFloat32 / 32768⟩) ∧
    ∀ buffer : Buffer, parseWav buffer ≠ .error .panic :=
  ⟨fun _ _ _ _ _ hsize hbytes h => parseWav_encode hsize hbytes h, parseWav_ne_panic⟩

/-- An odd chunk between the two. -/
def listed : Bytes :=
  riff ++ [52, 0, 0, 0] ++ wave ++ (fmtChunk 16000).encode ++ [76, 73, 83, 84, 3, 0, 0, 0, 1, 2, 3, 9]
    ++ (dataChunk [1, -2] (by decide)).encode

theorem wav_parsed_listed : parseWav ⟨listed, by decide⟩ =
    .ok ⟨16000, 1, [(1 : Int16).toFloat32 / 32768, (-2 : Int16).toFloat32 / 32768]⟩ := by
  have hfile := wav_parsed.1 ⟨listed, by decide⟩ [52, 0, 0, 0]
    [fmtChunk 16000, ⟨[76, 73, 83, 84], [1, 2, 3], 9, rfl, by decide⟩, dataChunk [1, -2] (by decide)]
    (fmtChunk 16000) (dataChunk [1, -2] (by decide)) rfl rfl ⟨rfl, rfl, by decide, rfl, rfl, rfl⟩
  exact hfile

end ScribeLocal.Asr.Wav
