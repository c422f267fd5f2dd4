import Mathlib.Tactic
import ScribeLocal.Asr.Words
import ScribeLocal.Traced

/-!
# Clips for the recognizer

`transcribe` cuts long audio into windows, decodes again what a window's words do not
reach, and then decodes every long stretch without words on its own. The items of the
trace are the clips handed to `decode_clip`.
-/
namespace ScribeLocal.Asr
open Traced

abbrev Samples := List Float32

/-- What `read_wav` returns; a vector of `f32` takes up at most `isize::MAX` bytes. -/
structure WavData where
  sampleRate : UInt32
  samples : Samples
  length_lt : samples.length < 2 ^ 61

/-- The loaded recognizer, and the longest clip it may be handed. -/
structure SherpaTranscriber where
  recognizer : UInt32 → Samples → Option RecognizerResult
  maxClipMs : Int64

/-- The overrides `SCRIBE_ASR_WINDOW_MS` and `SCRIBE_ASR_GAP_MS`. -/
structure Env where
  windowMs : Option Int64
  gapMs : Option Int64

def minRecoverMs : Int64 := 4000

def maxRecoveryPasses : ℕ := 6

def gapRecoveryMs : Int64 := 1500

def cutSearchFraction : ℕ := 4

def cutFrame : ℕ := 320

def rate (sr : UInt32) : Int64 := sr.toUInt64.toInt64

/-! ## Where to cut -/

def energy (frame : Samples) : Float32 := (frame.map fun x => x * x).foldl (· + ·) 0

/-- The middle of the quietest frame from `pos` on, if one is quieter than the best so far. -/
def quietest (samples : Samples) (nominalEnd pos best : ℕ) (bestEnergy : Float32) : ℕ :=
  if pos + cutFrame ≤ nominalEnd then
    let e := energy (samples.extract pos (pos + cutFrame))
    if e < bestEnergy then
      quietest samples nominalEnd (pos + cutFrame) (pos + cutFrame / 2) e
    else quietest samples nominalEnd (pos + cutFrame) best bestEnergy
  else best
termination_by nominalEnd - pos
decreasing_by all_goals simp only [cutFrame] at *; omega

/-- `f32::MAX` -/
def maxEnergy : Float32 := 3.4028235e38

def chooseWindowEnd (samples : Samples) (start nominalEnd : ℕ) : ℕ :=
  if samples.length ≤ nominalEnd then samples.length
  else
    let band := (nominalEnd - start) / cutSearchFraction
    if band < cutFrame * 2 then nominalEnd
    else quietest samples nominalEnd (nominalEnd - band) nominalEnd maxEnergy

def samplesToMs (samples : ℕ) (sr : UInt32) : Int64 :=
  if sr = 0 then 0 else Int64.ofNat samples * 1000 / rate sr

def msToSamples (ms : Int64) (sr : UInt32) : ℕ :=
  if ms ≤ 0 then 0 else (ms * rate sr / 1000).toUInt64.toNat

/-! ## Decoding -/

def decodeClip (t : SherpaTranscriber) (sr : UInt32) (samples : Samples) (offsetMs : Int64) :
    Traced Samples String Transcript :=
  hand samples <| match t.recognizer sr samples with
    | none => .error "OfflineRecognizer produced no result"
    | some heard =>
      let words := buildWords heard.text heard.tokens heard.timestamps heard.durations
        (samplesToMs samples.length sr)
      .ok ⟨heard.text, words.map fun w =>
        { w with startMs := w.startMs + offsetMs, endMs := w.endMs + offsetMs }⟩

/-- Append the text of a part, after a space, and its words. -/
def Transcript.append (acc part : Transcript) : Transcript where
  text :=
    let piece := trim part.text.toList
    if piece.isEmpty then acc.text
    else (if acc.text.isEmpty then "" else acc.text ++ " ") ++ String.ofList piece
  words := acc.words ++ part.words

/-- Whether a decode that consumed up to `next` of `total` samples left enough audio
uncovered to be worth decoding again. -/
def needsRecovery (cursor next total : ℕ) (sr : UInt32) : Bool :=
  if next ≤ cursor || total ≤ next then false
  else if samplesToMs (total - next) sr < minRecoverMs then false
  else Float.ofNat (next - cursor) / Float.ofNat (total - cursor) < 0.75

def decodePasses (t : SherpaTranscriber) (sr : UInt32) (samples : Samples) (offsetMs : Int64) :
    ℕ → Transcript → ℕ → Traced Samples String Transcript
  | 0, acc, _ => pure acc
  | n + 1, acc, cursor => do
    let part ← decodeClip t sr (samples.drop cursor) (offsetMs + samplesToMs cursor sr)
    let acc := acc.append part
    match part.words.getLast? with
    | none => pure acc
    | some last =>
      let next := msToSamples (last.endMs - offsetMs) sr
      if needsRecovery cursor next samples.length sr then
        decodePasses t sr samples offsetMs n acc next
      else pure acc

def decodeSpan (t : SherpaTranscriber) (sr : UInt32) (samples : Samples) (offsetMs : Int64) :
    Traced Samples String Transcript :=
  decodePasses t sr samples offsetMs (maxRecoveryPasses + 1) ⟨"", []⟩ 0

/-! ## Gaps -/

/-- The stretches of at least `gapMs` without words. -/
def gapsFrom (gapMs totalMs : Int64) : List AsrWord → Int64 → List (Int64 × Int64)
  | [], prevEnd => if gapMs ≤ totalMs - prevEnd then [(prevEnd, totalMs)] else []
  | w :: ws, prevEnd =>
    let rest := gapsFrom gapMs totalMs ws (max prevEnd w.endMs)
    if gapMs ≤ w.startMs - prevEnd then (prevEnd, w.startMs) :: rest else rest

def gaps (gapMs totalMs : Int64) (words : List AsrWord) : List (Int64 × Int64) :=
  gapsFrom gapMs totalMs words 0

/-- The samples of a gap, as far as there are any. -/
def gapClip (sr : UInt32) (samples : Samples) (gap : Int64 × Int64) : Samples :=
  samples.extract (min (msToSamples gap.1 sr) samples.length)
    (min (msToSamples gap.2 sr) samples.length)

def decodeGaps (t : SherpaTranscriber) (sr : UInt32) (samples : Samples) :
    List (Int64 × Int64) → List AsrWord → ℕ → Traced Samples String (List AsrWord × ℕ)
  | [], words, recovered => pure (words, recovered)
  | gap :: gaps, words, recovered =>
    if min (msToSamples gap.2 sr) samples.length ≤ min (msToSamples gap.1 sr) samples.length then
      decodeGaps t sr samples gaps words recovered
    else do
      let part ← decodeSpan t sr (gapClip sr samples gap) gap.1
      decodeGaps t sr samples gaps (words ++ part.words) (recovered + part.words.length)

/-- The order of `(start_ms, end_ms)`. -/
def AsrWord.before (v w : AsrWord) : Bool :=
  v.startMs < w.startMs || v.startMs == w.startMs && v.endMs ≤ w.endMs

def recoverGaps (t : SherpaTranscriber) (env : Env) (sr : UInt32) (samples : Samples)
    (first : Transcript) : Traced Samples String Transcript :=
  let gapMs := env.gapMs.getD gapRecoveryMs
  if gapMs ≤ 0 then pure first
  else do
    let (words, recovered) ←
      decodeGaps t sr samples (gaps gapMs (samplesToMs samples.length sr) first.words) first.words 0
    let words := if 0 < recovered then words.mergeSort AsrWord.before else words
    pure ⟨" ".intercalate (words.map AsrWord.text), words⟩

/-! ## Windows -/

theorem quietest_mem {samples : Samples} {start nominalEnd pos best : ℕ} {e : Float32}
    (hpos : start ≤ pos) (hbest : start < best) (hle : best ≤ nominalEnd) :
    start < quietest samples nominalEnd pos best e ∧
      quietest samples nominalEnd pos best e ≤ nominalEnd := by
  fun_induction quietest samples nominalEnd pos best e with
  | case1 pos best e hframe _ _ ih =>
    simp only [cutFrame] at *
    exact ih (by omega) (by omega) (by omega)
  | case2 pos best e hframe _ _ ih =>
    simp only [cutFrame] at *
    exact ih (by omega) hbest hle
  | case3 => exact ⟨hbest, hle⟩

theorem chooseWindowEnd_mem {samples : Samples} {start nominalEnd : ℕ} (h : start < nominalEnd)
    (hle : nominalEnd ≤ samples.length) : start < chooseWindowEnd samples start nominalEnd ∧
      chooseWindowEnd samples start nominalEnd ≤ nominalEnd := by
  unfold chooseWindowEnd
  by_cases hend : samples.length ≤ nominalEnd
  · rw [if_pos hend]
    omega
  · rw [if_neg hend]
    by_cases hband : (nominalEnd - start) / cutSearchFraction < cutFrame * 2
    · simp only [hband, if_true]
      omega
    · simp only [hband, if_false]
      apply quietest_mem _ h le_rfl
      simp only [cutSearchFraction]
      omega

def windowLoop (t : SherpaTranscriber) (sr : UInt32) (samples : Samples) (window : ℕ)
    (hw : 0 < window) (start : ℕ) (acc : Transcript) : Traced Samples String Transcript :=
  if h : start < samples.length then do
    let nominal := min (start + window) samples.length
    let stop := chooseWindowEnd samples start nominal
    let offsetMs := Int64.ofNat start * 1000 / rate sr
    let part ← decodeSpan t sr (samples.extract start stop) offsetMs
    windowLoop t sr samples window hw stop (acc.append part)
  else pure acc
termination_by samples.length - start
decreasing_by
  have hmem := @chooseWindowEnd_mem samples _ _
    (show start < min (start + window) samples.length by omega) (Nat.min_le_right _ _)
  omega

def windowSize (maxClipMs : Int64) (sr : UInt32) : ℕ :=
  (maxClipMs * rate sr / 1000).toUInt64.toNat

/-- What is decoded before the gaps: the audio in one pass when it fits the window, else a
window at a time. -/
def decodeWindows (t : SherpaTranscriber) (maxClipMs : Int64) (audio : WavData) :
    Traced Samples String Transcript :=
  let window := windowSize maxClipMs audio.sampleRate
  if h : window = 0 ∨ audio.samples.length ≤ window then
    decodeSpan t audio.sampleRate audio.samples 0
  else windowLoop t audio.sampleRate audio.samples window (by omega) 0 ⟨"", []⟩

/-- The limit in force. -/
def maxClipMs (t : SherpaTranscriber) (env : Env) : Int64 := env.windowMs.getD t.maxClipMs

def transcribe (t : SherpaTranscriber) (env : Env) (audio : WavData) :
    Traced Samples String Transcript := do
  let first ← decodeWindows t (maxClipMs t env) audio
  recoverGaps t env audio.sampleRate audio.samples first

/-! ## Clips within the limit -/

/-- A clip of at most `maxClipMs` of audio. -/
def Fits (maxClipMs : Int64) (sr : UInt32) (clip : Samples) : Prop :=
  (clip.length : ℤ) * 1000 ≤ maxClipMs.toInt * sr.toNat

variable {t : SherpaTranscriber} {env : Env} {limit : Int64} {sr : UInt32} {samples : Samples}
  {audio : WavData}

theorem Fits.of_length_le {clip : Samples} (h : Fits limit sr samples)
    (hle : clip.length ≤ samples.length) : Fits limit sr clip := by
  unfold Fits at *
  omega

/-- The passes over a span hand out ends of it. -/
theorem length_le_of_decodePasses {offsetMs : Int64} {n cursor : ℕ} {acc : Transcript} :
    (decodePasses t sr samples offsetMs n acc cursor).All fun clip =>
      clip.length ≤ samples.length := by
  induction n generalizing acc cursor with
  | zero => simp [decodePasses]
  | succ n ih =>
    rw [decodePasses, all_bind]
    constructor
    · simp [decodeClip]
    · intro part _
      split
      · exact all_pure _
      · rename_i last _
        dsimp only
        split
        · exact ih
        · exact all_pure _

/-- A span is within the limit exactly when every clip taken from it is. -/
theorem all_fits_decodeSpan {offsetMs : Int64} :
    (decodeSpan t sr samples offsetMs).All (Fits limit sr) ↔ Fits limit sr samples := by
  constructor
  · intro h
    rw [decodeSpan, decodePasses, all_bind] at h
    simpa [decodeClip] using h.1
  · intro h
    exact length_le_of_decodePasses.imp fun clip hle => h.of_length_le hle

/-- No window is longer than asked for. -/
theorem all_length_le_windowLoop {window : ℕ} {hw : 0 < window} {start : ℕ} {acc : Transcript} :
    (windowLoop t sr samples window hw start acc).All fun clip => clip.length ≤ window := by
  fun_induction windowLoop t sr samples window hw start acc with
  | case1 start acc h nominal stop offsetMs ih =>
    rw [all_bind]
    constructor
    · have hmem : start < stop ∧ stop ≤ nominal :=
        chooseWindowEnd_mem (show start < min (start + window) samples.length by omega)
          (Nat.min_le_right _ _)
      have hlen : (samples.extract start stop).length ≤ window := by
        simp only [List.extract_eq_take_drop, List.length_take, List.length_drop]
        omega
      exact length_le_of_decodePasses.imp fun clip hle => hle.trans hlen
    · intro part _
      exact ih part
  | case2 => exact all_pure _

theorem toInt_eq_toNat {q : Int64} (h : q.toUInt64.toNat < 2 ^ 63) :
    q.toInt = q.toUInt64.toNat := by
  rw [← Int64.toNat_toBitVec] at h ⊢
  exact BitVec.toInt_eq_toNat_of_lt (by omega)

theorem toInt_rate (sr : UInt32) : (rate sr).toInt = sr.toNat := by
  have hlt := sr.toNat_lt
  rw [toInt_eq_toNat] <;> simp only [rate, UInt64.toUInt64_toInt64, UInt32.toNat_toUInt64]
  omega

theorem tdiv_mul_le {p d : ℤ} (hd : 0 < d) (h : 0 ≤ p.tdiv d) :
    p.tdiv d * d ≤ p ∨ p.tdiv d = 0 := by
  by_cases hneg : p < 0
  · right
    have hpos : 0 ≤ (-p).tdiv d := Int.tdiv_nonneg (by omega) hd.le
    rw [Int.neg_tdiv] at hpos
    omega
  · left
    rw [Int.tdiv_eq_ediv_of_nonneg (by omega)]
    exact Int.ediv_mul_le p hd.ne'

/-- Wrapping around makes no number larger. -/
theorem bmod_le {p : ℤ} (h : 0 ≤ p) : p.bmod (2 ^ 64) ≤ p := by
  rw [Int.bmod_def]
  split <;> omega

/-- A window shorter than some audio holds at most the limit, also when the product of the
limit and the rate wraps around. -/
theorem windowSize_le (hpos : 0 < limit) (hlt : windowSize limit sr < 2 ^ 63) :
    (windowSize limit sr : ℤ) * 1000 ≤ limit.toInt * sr.toNat := by
  have hlimit : 0 < limit.toInt := Int64.lt_iff_toInt_lt.mp hpos
  have hnonneg : (0 : ℤ) ≤ limit.toInt * sr.toNat := by positivity
  have hwrap := bmod_le hnonneg
  have hwindow : (windowSize limit sr : ℤ) =
      ((limit.toInt * sr.toNat).bmod (2 ^ 64)).tdiv 1000 := by
    rw [windowSize, ← toInt_eq_toNat hlt, Int64.toInt_div_of_ne_right _ _ (by decide),
      Int64.toInt_mul, toInt_rate]
    rfl
  have hquot := @tdiv_mul_le ((limit.toInt * sr.toNat).bmod (2 ^ 64)) 1000 (by decide) (by omega)
  omega

/-- The first pass stays within the limit exactly when the audio does or is cut up. -/
theorem all_fits_decodeWindows (hpos : 0 < limit) :
    (decodeWindows t limit audio).All (Fits limit audio.sampleRate) ↔
      Fits limit audio.sampleRate audio.samples ∨
        0 < windowSize limit audio.sampleRate ∧
          windowSize limit audio.sampleRate < audio.samples.length := by
  unfold decodeWindows
  by_cases hone : windowSize limit audio.sampleRate = 0 ∨
      audio.samples.length ≤ windowSize limit audio.sampleRate
  · simp only [hone, dif_pos, all_fits_decodeSpan]
    constructor
    · exact .inl
    · rintro (hfits | hcut)
      · exact hfits
      · omega
  · simp only [hone, dif_neg, not_false_iff]
    constructor
    · intro _
      right
      omega
    · intro _
      refine Traced.All.imp all_length_le_windowLoop fun clip hle => ?_
      have hlt := audio.length_lt
      have hwindow := @windowSize_le _ audio.sampleRate hpos (by omega)
      unfold Fits
      omega

/-! ## Gaps within the limit -/

/-- The second pass comes to `gap`: it could decode every one before it. -/
def Reached (t : SherpaTranscriber) (sr : UInt32) (samples : Samples)
    (gaps : List (Int64 × Int64)) (gap : Int64 × Int64) : Prop :=
  ∃ before after, gaps = before ++ gap :: after ∧ ∀ g ∈ before, gapClip sr samples g = [] ∨
    ∃ part, (decodeSpan t sr (gapClip sr samples g) g.1).result = .ok part

theorem length_gapClip (gap : Int64 × Int64) : (gapClip sr samples gap).length =
    min (msToSamples gap.2 sr) samples.length - min (msToSamples gap.1 sr) samples.length := by
  rw [gapClip, List.extract_eq_take_drop, List.length_take, List.length_drop]
  omega

theorem reached_cons {gap g : Int64 × Int64} {gaps : List (Int64 × Int64)} :
    Reached t sr samples (gap :: gaps) g ↔ g = gap ∨
      (gapClip sr samples gap = [] ∨
        ∃ part, (decodeSpan t sr (gapClip sr samples gap) gap.1).result = .ok part) ∧
      Reached t sr samples gaps g := by
  constructor
  · rintro ⟨before, after, heq, hdecoded⟩
    cases before with
    | nil => exact .inl (List.cons.inj heq).1.symm
    | cons b before =>
      rcases List.cons.inj heq with ⟨rfl, hrest⟩
      exact .inr ⟨hdecoded _ List.mem_cons_self, before, after, hrest,
        fun g' hg' => hdecoded g' (List.mem_cons_of_mem _ hg')⟩
  · rintro (rfl | ⟨hgap, before, after, rfl, hdecoded⟩)
    · exact ⟨[], gaps, rfl, nofun⟩
    · exact ⟨gap :: before, after, rfl, List.forall_mem_cons.mpr ⟨hgap, hdecoded⟩⟩

theorem all_fits_decodeGaps (hpos : 0 < limit) {gaps : List (Int64 × Int64)}
    {words : List AsrWord} {recovered : ℕ} :
    (decodeGaps t sr samples gaps words recovered).All (Fits limit sr) ↔
      ∀ gap, Reached t sr samples gaps gap → Fits limit sr (gapClip sr samples gap) := by
  have hempty : Fits limit sr [] := by
    have hlimit : 0 < limit.toInt := Int64.lt_iff_toInt_lt.mp hpos
    have hnonneg : (0 : ℤ) ≤ limit.toInt * sr.toNat := by positivity
    simpa [Fits] using hnonneg
  induction gaps generalizing words recovered with
  | nil =>
    constructor
    · rintro - gap ⟨before, after, heq, -⟩
      cases before <;> cases heq
    · intro _
      exact all_pure _
  | cons gap gaps ih =>
    have hlen : (gapClip sr samples gap).length =
        min (msToSamples gap.2 sr) samples.length - min (msToSamples gap.1 sr) samples.length :=
      length_gapClip gap
    rw [decodeGaps]
    split
    · have hclip : gapClip sr samples gap = [] := List.eq_nil_of_length_eq_zero (by omega)
      constructor
      · intro h g hg
        rcases reached_cons.mp hg with rfl | ⟨-, hrest⟩
        · exact hclip ▸ hempty
        · exact ih.mp h g hrest
      · intro h
        apply ih.mpr
        intro g hg
        exact h g (reached_cons.mpr (.inr ⟨.inl hclip, hg⟩))
    · have hclip : gapClip sr samples gap ≠ [] := by
        intro hnil
        rw [hnil, List.length_nil] at hlen
        omega
      rw [all_bind, all_fits_decodeSpan]
      constructor
      · rintro ⟨hfits, hrest⟩ g hg
        rcases reached_cons.mp hg with rfl | ⟨hnil | ⟨part, hpart⟩, hg⟩
        · exact hfits
        · exact absurd hnil hclip
        · exact ih.mp (hrest part hpart) g hg
      · intro h
        refine ⟨h gap (reached_cons.mpr (.inl rfl)), fun part hpart => ih.mpr fun g hg => ?_⟩
        exact h g (reached_cons.mpr (.inr ⟨.inr ⟨part, hpart⟩, hg⟩))

theorem all_fits_recoverGaps (hpos : 0 < limit) {first : Transcript} :
    (recoverGaps t env sr samples first).All (Fits limit sr) ↔
      env.gapMs.getD gapRecoveryMs ≤ 0 ∨ ∀ gap, Reached t sr samples
        (gaps (env.gapMs.getD gapRecoveryMs) (samplesToMs samples.length sr) first.words) gap →
        Fits limit sr (gapClip sr samples gap) := by
  unfold recoverGaps
  by_cases hoff : env.gapMs.getD gapRecoveryMs ≤ 0
  · simp [hoff]
  · rw [if_neg hoff, all_bind, all_fits_decodeGaps hpos]
    simp [hoff]

/-- Every clip is within the limit exactly when the audio is, or is cut into windows of at
least a sample, and no stretch without words that is decoded again is longer. -/
theorem clips_fit_iff (t : SherpaTranscriber) (env : Env) (audio : WavData)
    (hpos : 0 < maxClipMs t env) :
    (transcribe t env audio).All (Fits (maxClipMs t env) audio.sampleRate) ↔
      (Fits (maxClipMs t env) audio.sampleRate audio.samples ∨
        0 < windowSize (maxClipMs t env) audio.sampleRate ∧
          windowSize (maxClipMs t env) audio.sampleRate < audio.samples.length) ∧
      ∀ first, (decodeWindows t (maxClipMs t env) audio).result = .ok first →
        env.gapMs.getD gapRecoveryMs ≤ 0 ∨
        ∀ gap, Reached t audio.sampleRate audio.samples
          (gaps (env.gapMs.getD gapRecoveryMs) (samplesToMs audio.samples.length audio.sampleRate)
            first.words) gap →
          Fits (maxClipMs t env) audio.sampleRate
            (gapClip audio.sampleRate audio.samples gap) := by
  rw [transcribe, all_bind, all_fits_decodeWindows hpos]
  simp only [all_fits_recoverGaps hpos]

/-! ## Silence -/

/-- A transducer that hears nothing. -/
def deaf : SherpaTranscriber where
  recognizer _ _ := some ⟨"", [], none, none⟩
  maxClipMs := 30000

theorem result_decodeSpan_deaf {offsetMs : Int64} :
    (decodeSpan deaf sr samples offsetMs).result = .ok ⟨"", []⟩ := by
  have hclip : (decodeClip deaf sr (samples.drop 0) (offsetMs + samplesToMs 0 sr)).result =
      .ok ⟨"", []⟩ := by simp [decodeClip, deaf, buildWords]
  rw [decodeSpan, decodePasses, result_bind_of_ok hclip]
  rfl

theorem result_windowLoop_deaf {window : ℕ} {hw : 0 < window} {start : ℕ} {acc : Transcript} :
    (windowLoop deaf sr samples window hw start acc).result = .ok acc := by
  fun_induction windowLoop deaf sr samples window hw start acc with
  | case1 start acc h nominal stop offsetMs ih =>
    have hacc : acc.append ⟨"", []⟩ = acc := by
      simp [Transcript.append, trim, trimStart]
    rw [result_bind_of_ok result_decodeSpan_deaf, ih, hacc]
  | case2 => rfl

theorem result_decodeWindows_deaf : (decodeWindows deaf limit audio).result = .ok ⟨"", []⟩ := by
  unfold decodeWindows
  dsimp only
  split
  · exact result_decodeSpan_deaf
  · exact result_windowLoop_deaf

/-- A minute of silence at 16 kHz. -/
def minute : WavData where
  sampleRate := 16000
  samples := List.replicate 960000 0
  length_lt := by
    rw [List.length_replicate]
    decide

theorem not_clips_fit :
    ¬ ∀ (t : SherpaTranscriber) (env : Env) (audio : WavData), 0 < maxClipMs t env →
      (transcribe t env audio).All (Fits (maxClipMs t env) audio.sampleRate) := by
  intro h
  have hall := (all_bind _ _).mp (h deaf ⟨none, none⟩ minute (by decide))
  have hgaps := (all_fits_recoverGaps (by decide)).mp (hall.2 _ result_decodeWindows_deaf)
  rcases hgaps with hoff | hgaps
  · exact absurd hoff (by decide)
  · -- the whole minute is one gap
    have hlen : minute.samples.length = 960000 := List.length_replicate
    have hgap : gaps gapRecoveryMs (samplesToMs 960000 16000) [] = [(0, 60000)] := by decide
    have hfits := hgaps (0, 60000) ⟨[], [], by rw [hlen]; exact hgap, nofun⟩
    have hclip : (gapClip minute.sampleRate minute.samples (0, 60000)).length = _ :=
      length_gapClip (0, 60000)
    have hstop : msToSamples 60000 minute.sampleRate = 960000 := by decide
    have hstart : msToSamples 0 minute.sampleRate = 0 := by decide
    rw [hlen, hstop, hstart] at hclip
    rw [Fits, hclip] at hfits
    exact absurd hfits (by decide)

theorem clips_fit_iff_minute :
    (transcribe deaf ⟨none, some 0⟩ minute).All (Fits 30000 16000) := by
  have hwindow : windowSize 30000 16000 = 480000 := by decide
  have hlen : minute.samples.length = 960000 := List.length_replicate
  apply (clips_fit_iff deaf ⟨none, some 0⟩ minute (by decide)).mpr
  constructor
  · right
    rw [hlen]
    exact hwindow ▸ by decide
  · intro first _
    exact .inl (by decide)

end ScribeLocal.Asr
