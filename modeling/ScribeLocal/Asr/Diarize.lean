import ScribeLocal.Asr.Contiguous
import ScribeLocal.Asr.EmbedSlices

/-!
# Diarization

`diarize` has the segmentation model find stretches of speech window by window, splits them at
silence, embeds the pieces, clusters those of the whole recording at once, and gives each
cluster a turn for each of its pieces and one voice. The segmentation model and the extractor
are parameters.
-/
namespace ScribeLocal.Asr
open MachineInt Tiling

def diarizeWindowMs : ℤ := 10 * 60 * 1000

/-- What the settings, the hooks and the models say. -/
structure SherpaDiarizer (K : Type) where
  checks : OverflowChecks
  split : SplitEnv
  /-- `SCRIBE_DIARIZE_WINDOW_MS` -/
  windowMs : Option ℤ
  /-- `SCRIBE_REFINE` -/
  passes : Option ℕ
  sqrt : K → K
  /-- The segments of a window in milliseconds, by their start; none without speech. -/
  process : Samples → Option (List ScribeLocal.SpeakerTurn)
  extract : Samples → Option (List K)

structure Diarization (K : Type) where
  turns : List ScribeLocal.SpeakerTurn
  embeddings : ℤ → Option (List K)
  numSpeakers : ℕ

/-- The order of the keys `(t.start_ms, t.end_ms)`. -/
def KeyLe (a b : ScribeLocal.SpeakerTurn) : Prop :=
  a.startMs < b.startMs ∨ a.startMs = b.startMs ∧ a.endMs ≤ b.endMs

instance : DecidableRel KeyLe := fun _ _ => inferInstanceAs (Decidable (_ ∨ _))

instance : Std.Total KeyLe := ⟨fun a b => by unfold KeyLe; omega⟩

instance : IsTrans ScribeLocal.SpeakerTurn KeyLe := ⟨fun a b c hab hbc => by
  unfold KeyLe at *
  omega⟩

/-- `sort_by_key` -/
def sortTurns (turns : List ScribeLocal.SpeakerTurn) : List ScribeLocal.SpeakerTurn :=
  turns.insertionSort KeyLe

section Diarize
variable {K : Type} [Field K] [LinearOrder K] (d : SherpaDiarizer K)

def windowLen (sampleRate : UInt32) (len : ℕ) : Option ℕ :=
  (sampleAt d.checks sampleRate (d.windowMs.getD diarizeWindowMs)).map fun
    -- a sample rate so low the window rounds to nothing: one window
    | 0 => max len 1
    | w + 1 => w + 1

/-- The windows from `start` on. -/
def spans (len window : ℕ) (hw : 0 < window) (start : ℕ) : List (ℕ × ℕ) :=
  if start < len then
    (start, min (start + window) len) :: spans len window hw (min (start + window) len)
  else []
termination_by len - start

/-- `(start as i64 * 1000) / sr as i64` -/
def offsetMs (sampleRate : UInt32) (start : ℕ) : Option ℤ :=
  (mulI64 d.checks start 1000).bind fun ms =>
    if sampleRate = 0 then none else some (ms.tdiv sampleRate.toNat)

/-- The fragments of one window. -/
def windowFragments (samples : Samples) (sampleRate : UInt32) (span : ℕ × ℕ) :
    Option (List (Fragment K)) := do
  let offset ← offsetMs d sampleRate span.1
  let slice := samples.extract span.1 span.2
  match d.process slice with
  | none => return []
  | some localTurns =>
    if localTurns.isEmpty then return []
    else
      let pieces := splitTurnsAtSilence d.split localTurns slice sampleRate
      let embs ← computeSpeakerEmbeddings d.sqrt d.extract d.checks slice sampleRate pieces
      return pieces.map fun piece =>
        { turns := [⟨i64 (piece.startMs + offset), i64 (piece.endMs + offset)⟩]
          embedding := embs piece.localIdx
          speechMs := max (i64 (piece.endMs - piece.startMs)) 0 }

/-- The voice of a cluster takes in an embedded fragment. -/
def centroidStep (sums : Sums K) (f : Fragment K × ℤ) : Sums K :=
  match f.1.embedding with
  | none => sums
  | some emb =>
    let entry := (sums f.2).getD (List.replicate emb.length 0, 0)
    let sum := if entry.1.length ≠ emb.length then List.replicate emb.length 0 else entry.1
    Function.update sums f.2 (some (addWeighted sum emb f.1.weight, entry.2 + f.1.weight))

/-- The turns and the voices of the clusters. -/
def emitted (fragments : List (Fragment K)) (assignment : List ℤ) : Diarization K :=
  let labelled := fragments.zip assignment
  { turns := sortTurns (labelled.flatMap fun f => f.1.turns.map fun t => ⟨f.2, t.startMs, t.endMs⟩)
    embeddings := fun cluster => ((labelled.foldl centroidStep fun _ => none) cluster).bind
      fun entry =>
        if entry.2 ≤ 0 then none else some (l2Normalize d.sqrt (entry.1.map (· / entry.2)))
    numSpeakers := numSpeakers assignment }

/-- The fragments of all windows: whose voice each is has not been decided. -/
def allFragments (samples : Samples) (sampleRate : UInt32) : Option (List (Fragment K)) := do
  let window ← windowLen d sampleRate samples.length
  if hw : 0 < window then
    let fragments ← (spans samples.length window hw 0).mapM (windowFragments d samples sampleRate)
    return fragments.flatten
  else none

def labels (fragments : List (Fragment K)) (expected : Option ℤ) : List ℤ :=
  clusterFragmentsPasses d.sqrt fragments expected (d.passes.getD 1)

def diarizeWindowed (samples : Samples) (sampleRate : UInt32) (expected : Option ℤ) :
    Option (Diarization K) := do
  let fragments ← allFragments d samples sampleRate
  if fragments.isEmpty then return ⟨[], fun _ => none, 0⟩
  else return emitted d fragments (labels d fragments expected)

/-- `WavData::duration_ms` -/
def durationMs (samples : Samples) (sampleRate : UInt32) : Option ℤ :=
  if sampleRate = 0 then some 0
  else (mulI64 d.checks samples.length 1000).map fun ms => ms.tdiv sampleRate.toNat

/-- The whole recording, or its pieces, with one speaker. -/
def wholeTurns (samples : Samples) (sampleRate : UInt32) (duration : ℤ) :
    List ScribeLocal.SpeakerTurn :=
  let whole : ScribeLocal.SpeakerTurn := ⟨0, 0, duration⟩
  let turns := (splitTurnsAtSilence d.split [whole] samples sampleRate).map fun t =>
    { t with localIdx := 0 }
  if turns.isEmpty then [whole] else turns

def singleSpeaker (samples : Samples) (sampleRate : UInt32) : Option (Diarization K) := do
  let duration ← durationMs d samples sampleRate
  let turns := wholeTurns d samples sampleRate duration
  let embeddings ← computeSpeakerEmbeddings d.sqrt d.extract d.checks samples sampleRate turns
  return ⟨turns, embeddings, 1⟩

def diarize (samples : Samples) (sampleRate : UInt32) (expected : Option ℤ) :
    Option (Diarization K) :=
  if expected = some 1 then singleSpeaker d samples sampleRate
  else diarizeWindowed d samples sampleRate expected

end Diarize

/-! ## Coverage -/

/-- The turn takes in the instant `x`. -/
def covers (x : ℤ) (t : ScribeLocal.SpeakerTurn) : Bool := decide (t.startMs ≤ x ∧ x < t.endMs)

/-- A turn of a window on the time line of the recording. -/
def shift (offset : ℤ) (t : ScribeLocal.SpeakerTurn) : ScribeLocal.SpeakerTurn :=
  ⟨t.localIdx, t.startMs + offset, t.endMs + offset⟩

/-- The turns of a fragment, whoever spoke them. -/
def fragmentTurns {K : Type} (f : Fragment K) : List ScribeLocal.SpeakerTurn :=
  f.turns.map fun t => ⟨0, t.startMs, t.endMs⟩

variable {env : SplitEnv} {x offset : ℤ} {samples : Samples} {sampleRate : UInt32}

/-- One stretch of a tiling takes in an instant of what is tiled, and none takes in another. -/
theorem countP_tiles {lo hi : ℤ} {ps : List (ℤ × ℤ)} (h : Tiles lo ps hi) (x : ℤ) :
    ps.countP (fun p => decide (p.1 ≤ x ∧ x < p.2)) = if lo ≤ x ∧ x < hi then 1 else 0 := by
  induction ps generalizing lo with
  | nil =>
    obtain rfl : lo = hi := h
    rw [if_neg (by omega)]
    rfl
  | cons p ps ih =>
    obtain ⟨rfl, hlt, hrest⟩ := h
    have hle := hrest.le
    rw [List.countP_cons, ih hrest]
    simp only [decide_eq_true_eq]
    split <;> split <;> split <;> omega

theorem countP_split {minPiece : ℤ} {turn : ScribeLocal.SpeakerTurn} {ps : List (ℤ × ℤ)}
    (h : Split minPiece turn ps) (hstart : 0 ≤ turn.startMs) (x : ℤ) :
    ps.countP (fun p => decide (p.1 ≤ x ∧ x < p.2)) = if covers x turn then 1 else 0 := by
  by_cases hlt : turn.startMs < turn.endMs
  · rw [countP_tiles (h.tiles hlt)]
    simp [covers]
  · rw [h.none hstart (not_lt.mp hlt), List.countP_nil, covers, if_neg]
    simp only [decide_eq_true_eq]
    omega

/-- The segment lies in the clip, and its samples are counted in an `i64`. -/
def InClip (t : ScribeLocal.SpeakerTurn) : Prop :=
  (0 ≤ t.startMs ∧ t.startMs < 2 ^ 31) ∧ 0 ≤ t.endMs ∧ t.endMs < 2 ^ 31

instance (t : ScribeLocal.SpeakerTurn) : Decidable (InClip t) :=
  inferInstanceAs (Decidable (_ ∧ _))

theorem InClip.timed {t : ScribeLocal.SpeakerTurn} (h : InClip t) : Timed t := by
  unfold InClip at h
  unfold Timed FitsI64
  omega

/-- The pieces take in every instant as often as the turns they were cut from. -/
theorem countP_splitTurns (hpos : 0 ≤ minPieceMs env) (hlen : samples.length ≤ 2 ^ 58)
    {turns : List ScribeLocal.SpeakerTurn} (hturns : ∀ t ∈ turns, InClip t) (x : ℤ) :
    (splitTurnsAtSilence env turns samples sampleRate).countP (covers x) =
      turns.countP (covers x) := by
  have hcount (ps : List (ℤ × ℤ)) : (number 0 ps).countP (covers x) =
      ps.countP fun p => decide (p.1 ≤ x ∧ x < p.2) := by
    conv_rhs => rw [← map_number 0 ps, List.countP_map]
    rfl
  rw [splitTurnsAtSilence_eq, hcount]
  induction turns with
  | nil => rfl
  | cons turn turns ih =>
    have hturn := hturns turn List.mem_cons_self
    have hsplit := split_turnPieces hpos hlen sampleRate hturn.timed
    rw [List.flatMap_cons, List.countP_append, ih fun t ht => hturns t (List.mem_cons_of_mem _ ht),
      countP_split hsplit hturn.1.1, List.countP_cons]
    omega

theorem mem_of_mem_number {i : ℤ} {ps : List (ℤ × ℤ)} {t : ScribeLocal.SpeakerTurn}
    (h : t ∈ number i ps) : (t.startMs, t.endMs) ∈ ps := by
  rw [← map_number i ps]
  exact List.mem_map_of_mem h

/-- The pieces of segments in the clip lie in the clip. -/
theorem inClip_of_mem (hpos : 0 ≤ minPieceMs env) (hlen : samples.length ≤ 2 ^ 58)
    {turns : List ScribeLocal.SpeakerTurn} (hturns : ∀ t ∈ turns, InClip t)
    {t : ScribeLocal.SpeakerTurn} (ht : t ∈ splitTurnsAtSilence env turns samples sampleRate) :
    InClip t := by
  rw [splitTurnsAtSilence_eq] at ht
  obtain ⟨turn, hturn, hpiece⟩ := List.mem_flatMap.mp (mem_of_mem_number ht)
  have hsplit := split_turnPieces hpos hlen sampleRate (hturns turn hturn).timed
  obtain ⟨⟨hstart, -⟩, -, hend⟩ := hturns turn hturn
  by_cases hlt : turn.startMs < turn.endMs
  · have hbounds := (hsplit.tiles hlt).bounds hpiece
    unfold InClip
    omega
  · rw [hsplit.none hstart (not_lt.mp hlt)] at hpiece
    cases hpiece

theorem covers_iff {t : ScribeLocal.SpeakerTurn} : covers x t = true ↔ t.startMs ≤ x ∧ x < t.endMs :=
  decide_eq_true_iff

theorem countP_shift (turns : List ScribeLocal.SpeakerTurn) (offset x : ℤ) :
    (turns.map (shift offset)).countP (covers x) = turns.countP (covers (x - offset)) := by
  rw [List.countP_map]
  apply List.countP_congr
  intro t _
  rw [Function.comp_apply, covers_iff, covers_iff]
  dsimp only [shift]
  omega

section Windows
variable {K : Type} [Field K] [LinearOrder K] {d : SherpaDiarizer K}

/-- What the segmentation model finds in one window. -/
def heard (d : SherpaDiarizer K) (samples : Samples) (sampleRate : UInt32) (span : ℕ × ℕ) :
    List ScribeLocal.SpeakerTurn :=
  ((d.process (samples.extract span.1 span.2)).getD []).map
    (shift ((offsetMs d sampleRate span.1).getD 0))

/-- What it finds in the recording. -/
def segments (d : SherpaDiarizer K) (samples : Samples) (sampleRate : UInt32) :
    List ScribeLocal.SpeakerTurn :=
  match windowLen d sampleRate samples.length with
  | none => []
  | some window =>
    if hw : 0 < window then
      (spans samples.length window hw 0).flatMap (heard d samples sampleRate)
    else []

/-- The fragments of a window are its segments split at silence, one for each piece. -/
theorem windowFragments_cases {span : ℕ × ℕ} {fragments : List (Fragment K)}
    (h : windowFragments d samples sampleRate span = some fragments) :
    ∃ offset, ∃ embs : ℤ → Option (List K), offsetMs d sampleRate span.1 = some offset ∧
      fragments = (splitTurnsAtSilence d.split
        ((d.process (samples.extract span.1 span.2)).getD [])
        (samples.extract span.1 span.2) sampleRate).map fun piece =>
          { turns := [⟨i64 (piece.startMs + offset), i64 (piece.endMs + offset)⟩]
            embedding := embs piece.localIdx
            speechMs := max (i64 (piece.endMs - piece.startMs)) 0 } := by
  unfold windowFragments at h
  obtain ⟨offset, hoffset, h⟩ := Option.bind_eq_some_iff.mp h
  dsimp only at h
  cases hprocess : d.process (samples.extract span.1 span.2) with
  | none =>
    rw [hprocess] at h
    cases h
    exact ⟨offset, fun _ => none, hoffset, rfl⟩
  | some localTurns =>
    rw [hprocess] at h
    dsimp only at h
    by_cases hnil : localTurns.isEmpty
    · rw [if_pos hnil] at h
      cases h
      refine ⟨offset, fun _ => none, hoffset, ?_⟩
      rw [List.isEmpty_iff.mp hnil]
      rfl
    · rw [if_neg hnil] at h
      obtain ⟨embs, -, h⟩ := Option.bind_eq_some_iff.mp h
      cases h
      exact ⟨offset, embs, hoffset, rfl⟩

/-- The segmentation model finds its segments in the clip it is given. -/
def SegmentsInClip (d : SherpaDiarizer K) : Prop :=
  ∀ clip turns, d.process clip = some turns → ∀ t ∈ turns, InClip t

omit [Field K] [LinearOrder K] in
/-- What is in a recording starts no later than this. -/
theorem offsetMs_bound {start : ℕ} {offset : ℤ} (hstart : start ≤ 2 ^ 52)
    (h : offsetMs d sampleRate start = some offset) : 0 ≤ offset ∧ offset < 2 ^ 62 := by
  unfold offsetMs at h
  rw [mulI64_of_fits (by omega), Option.bind_some] at h
  split at h
  · cases h
  · cases h
    have hle : (start * 1000 : ℤ) / sampleRate.toNat ≤ start * 1000 :=
      Int.ediv_le_self _ (by omega)
    rw [Int.tdiv_eq_ediv_of_nonneg (by omega)]
    exact ⟨Int.ediv_nonneg (by omega) (Int.natCast_nonneg _), by omega⟩

/-- The fragments of a window take in every instant as often as its segments do. -/
theorem countP_windowFragments (hpos : 0 ≤ minPieceMs d.split) (hclips : SegmentsInClip d)
    (hlen : samples.length ≤ 2 ^ 52) {span : ℕ × ℕ} (hspan : span.1 < samples.length)
    {fragments : List (Fragment K)}
    (h : windowFragments d samples sampleRate span = some fragments) (x : ℤ) :
    (fragments.flatMap fragmentTurns).countP (covers x) =
      (heard d samples sampleRate span).countP (covers x) := by
  obtain ⟨offset, embs, hoffset, rfl⟩ := windowFragments_cases h
  unfold heard fragmentTurns
  generalize hclip : samples.extract span.1 span.2 = clip
  have hclip : clip.length ≤ 2 ^ 58 := by
    rw [← hclip, List.extract_eq_take_drop]
    simp
    omega
  have hsegments : ∀ t ∈ (d.process clip).getD [], InClip t := by
    cases hprocess : d.process clip with
    | none => nofun
    | some turns => exact hclips clip turns hprocess
  have hsplit : (splitTurnsAtSilence d.split ((d.process clip).getD []) clip
      sampleRate).countP (covers (x - offset)) =
        ((d.process clip).getD []).countP (covers (x - offset)) :=
    countP_splitTurns hpos hclip hsegments _
  rw [hoffset, Option.getD_some, countP_shift, ← hsplit, ← countP_shift, List.flatMap_map]
  simp only [List.map_cons, List.map_nil]
  rw [← List.map_eq_flatMap, List.countP_map, List.countP_map]
  apply List.countP_congr
  intro piece hpiece
  obtain ⟨hlow, hhigh⟩ := offsetMs_bound (by omega) hoffset
  have hin := inClip_of_mem hpos hclip hsegments hpiece
  unfold InClip at hin
  rw [Function.comp_apply, Function.comp_apply, covers_iff, covers_iff]
  dsimp only [shift]
  rw [FitsI64.i64_eq (by unfold FitsI64; omega), FitsI64.i64_eq (by unfold FitsI64; omega)]

theorem countP_mapM (hpos : 0 ≤ minPieceMs d.split) (hclips : SegmentsInClip d)
    (hlen : samples.length ≤ 2 ^ 52) {ws : List (ℕ × ℕ)} (hws : ∀ w ∈ ws, w.1 < samples.length)
    {fragments : List (List (Fragment K))}
    (h : ws.mapM (windowFragments d samples sampleRate) = some fragments) (x : ℤ) :
    (fragments.flatten.flatMap fragmentTurns).countP (covers x) =
      (ws.flatMap (heard d samples sampleRate)).countP (covers x) := by
  induction ws generalizing fragments with
  | nil =>
    cases h
    rfl
  | cons w ws ih =>
    rw [List.mapM_cons] at h
    obtain ⟨fs, hfs, h⟩ := Option.bind_eq_some_iff.mp h
    obtain ⟨rest, hrest, h⟩ := Option.bind_eq_some_iff.mp h
    cases h
    have hfirst := countP_windowFragments hpos hclips hlen (hws w List.mem_cons_self) hfs x
    rw [List.flatten_cons, List.flatMap_append, List.flatMap_cons, List.countP_append,
      List.countP_append, hfirst, ih (fun v hv => hws v (List.mem_cons_of_mem _ hv)) hrest]

/-- Every window starts in the recording. -/
theorem fst_lt_of_mem_spans {len window : ℕ} {hw : 0 < window} {start : ℕ} {span : ℕ × ℕ}
    (h : span ∈ spans len window hw start) : span.1 < len := by
  induction start using spans.induct len window hw with
  | case1 start hlt ih =>
    unfold spans at h
    rw [if_pos hlt] at h
    rcases List.mem_cons.mp h with rfl | hrest
    · exact hlt
    · exact ih hrest
  | case2 start hge =>
    unfold spans at h
    rw [if_neg hge] at h
    cases h

/-- What holds of the fragments of each window holds of all fragments. -/
theorem forall_allFragments {P : Fragment K → Prop} (hP : ∀ span fragments,
      windowFragments d samples sampleRate span = some fragments → ∀ f ∈ fragments, P f)
    {fragments : List (Fragment K)} (h : allFragments d samples sampleRate = some fragments) :
    ∀ f ∈ fragments, P f := by
  have hall {ws : List (ℕ × ℕ)} {parts : List (List (Fragment K))}
      (h : ws.mapM (windowFragments d samples sampleRate) = some parts) :
      ∀ f ∈ parts.flatten, P f := by
    induction ws generalizing parts with
    | nil =>
      cases h
      nofun
    | cons w ws ih =>
      rw [List.mapM_cons] at h
      obtain ⟨fs, hfs, h⟩ := Option.bind_eq_some_iff.mp h
      obtain ⟨rest, hrest, h⟩ := Option.bind_eq_some_iff.mp h
      cases h
      intro f hf
      rw [List.flatten_cons] at hf
      rcases List.mem_append.mp hf with hf | hf
      · exact hP w fs hfs f hf
      · exact ih hrest f hf
  unfold allFragments at h
  obtain ⟨window, -, h⟩ := Option.bind_eq_some_iff.mp h
  split at h
  · obtain ⟨parts, hparts, h⟩ := Option.bind_eq_some_iff.mp h
    cases h
    exact hall hparts
  · cases h

theorem countP_allFragments (hpos : 0 ≤ minPieceMs d.split) (hclips : SegmentsInClip d)
    (hlen : samples.length ≤ 2 ^ 52) {fragments : List (Fragment K)}
    (h : allFragments d samples sampleRate = some fragments) (x : ℤ) :
    (fragments.flatMap fragmentTurns).countP (covers x) =
      (segments d samples sampleRate).countP (covers x) := by
  unfold allFragments at h
  unfold segments
  cases hwindow : windowLen d sampleRate samples.length with
  | none =>
    rw [hwindow] at h
    cases h
  | some window =>
    rw [hwindow] at h
    dsimp only
    by_cases hw : 0 < window
    · simp only [Option.bind_eq_bind, Option.bind_some, dif_pos hw] at h ⊢
      obtain ⟨parts, hparts, h⟩ := Option.bind_eq_some_iff.mp h
      cases h
      exact countP_mapM hpos hclips hlen (fun _ => fst_lt_of_mem_spans) hparts x
    · simp [hw] at h

end Windows

/-! ## Labels -/

theorem lt_numSpeakers_iff {labels : List ℤ} (h : Gapless labels.toFinset) {k : ℤ} :
    k ∈ labels ↔ 0 ≤ k ∧ k < numSpeakers labels := by
  obtain ⟨n, hn⟩ := id h
  rw [numSpeakers_of_gapless h, Gapless.card hn, ← hn, List.mem_toFinset]

section Labels
variable {K : Type} [Field K] [LinearOrder K] {sqrt : K → K} {fragments : List (Fragment K)}

theorem length_clusterFragmentsPasses (fragments : List (Fragment K)) (expected : Option ℤ)
    (passes : ℕ) :
    (clusterFragmentsPasses sqrt fragments expected passes).length = fragments.length := by
  unfold clusterFragmentsPasses
  split
  · exact List.length_replicate
  · rw [List.length_map, List.length_range]

/-- One pass at most leaves no index out. -/
theorem gapless_clusterFragmentsPasses (hne : fragments ≠ []) (expected : Option ℤ) {passes : ℕ}
    (hpasses : passes ≤ 1) :
    Gapless (clusterFragmentsPasses sqrt fragments expected passes).toFinset := by
  by_cases hembedded : embedded fragments = []
  · have hzero : clusterFragmentsPasses sqrt fragments expected passes =
        List.replicate fragments.length 0 := if_pos (List.isEmpty_iff.mpr hembedded)
    rw [hzero, List.toFinset_replicate_of_ne_zero (by simpa using hne)]
    refine ⟨1, fun c => ?_⟩
    rw [Finset.mem_singleton]
    omega
  · have hfolded := gapless_folded sqrt hembedded expected
    have hleaves : LeavesNoneOut sqrt fragments (folded sqrt fragments expected) passes := by
      unfold LeavesNoneOut
      dsimp only
      rw [Nat.sub_eq_zero_of_le hpasses, Function.iterate_zero_apply]
      intro i hi hsame
      have hspeakers := speakers_of_single (a := folded sqrt fragments expected) hi hsame
        fun j _ => rfl
      rw [← hspeakers]
      exact (gapless_iff.mp hfolded).2
    have hrefined := (gapless_refine_iff sqrt passes hembedded hfolded).mpr hleaves
    rw [← toFinset_map_range] at hrefined
    have hlabels : clusterFragmentsPasses sqrt fragments expected passes = _ :=
      if_neg fun h => hembedded (List.isEmpty_iff.mp h)
    rw [hlabels]
    exact hrefined

end Labels

/-! ## Voices -/

section Voices
variable {K : Type} [Field K] [LinearOrder K] [IsStrictOrderedRing K] {sums : Sums K} {k : ℤ}

theorem weight_pos (f : Fragment K) : 0 < f.weight := by
  unfold Fragment.weight
  have hpos : (0 : K) < ((max f.speechMs 1 : ℤ) : K) := by
    exact_mod_cast lt_of_lt_of_le one_pos (le_max_right f.speechMs 1)
  positivity

/-- A cluster has a voice as soon as one of its fragments is embedded, and its weight is positive
from then on. -/
theorem centroids_spec (labelled : List (Fragment K × ℤ)) (k : ℤ) :
    (((labelled.foldl centroidStep fun _ => none) k).isSome ↔
      ∃ f ∈ labelled, f.2 = k ∧ f.1.embedding.isSome) ∧
    ∀ entry ∈ (labelled.foldl centroidStep fun _ => none) k, 0 < entry.2 := by
  induction labelled using List.reverseRecOn with
  | nil => simp
  | append_singleton labelled f ih =>
    rw [List.foldl_concat]
    generalize labelled.foldl centroidStep (fun _ => none) = sums at ih
    obtain ⟨hsome, hpos⟩ := ih
    have hconcat (P : Fragment K × ℤ → Prop) :
        (∃ g ∈ labelled ++ [f], P g) ↔ (∃ g ∈ labelled, P g) ∨ P f := by
      simp only [List.mem_append, List.mem_singleton, or_and_right, exists_or, exists_eq_left]
    rw [hconcat]
    unfold centroidStep
    cases hemb : f.1.embedding with
    | none =>
      refine ⟨hsome.trans ?_, hpos⟩
      simp
    | some emb =>
      dsimp only
      by_cases hk : k = f.2
      · subst hk
        rw [Function.update_self]
        refine ⟨by simp, ?_⟩
        rintro entry ⟨rfl⟩
        have hweight := weight_pos f.1
        have hold : 0 ≤ ((sums f.2).getD (List.replicate emb.length 0, 0)).2 := by
          cases hsums : sums f.2 with
          | none => exact le_rfl
          | some entry => exact (hpos entry hsums).le
        exact add_pos_of_nonneg_of_pos hold hweight
      · rw [Function.update_of_ne hk]
        refine ⟨hsome.trans ?_, hpos⟩
        simp [Ne.symm hk]

end Voices

/-! ## The recording -/

section Recording
variable {K : Type} [Field K] [LinearOrder K] [IsStrictOrderedRing K]

/-- What diarization makes of the fragments of a recording. -/
structure Attributed (d : SherpaDiarizer K) (samples : Samples) (sampleRate : UInt32)
    (fragments : List (Fragment K × ℤ)) (out : Diarization K) : Prop where
  sorted : out.turns.Pairwise KeyLe
  /-- Every instant is in as many turns as segments. -/
  covered : ∀ x, out.turns.countP (covers x) = (segments d samples sampleRate).countP (covers x)
  /-- The speakers are numbered from zero on, and each has a turn, unless fragments are moved between
  voices more than once. -/
  speakers : d.passes.getD 1 ≤ 1 → ∀ k, (∃ t ∈ out.turns, t.localIdx = k) ↔ 0 ≤ k ∧ k < out.numSpeakers
  /-- A speaker has a voice as soon as one of its pieces could be embedded. -/
  voices : ∀ k, (out.embeddings k).isSome ↔ ∃ f ∈ fragments, f.2 = k ∧ f.1.embedding.isSome

variable (d : SherpaDiarizer K) {expected : Option ℤ} {fragments : List (Fragment K)}
  {out : Diarization K}

omit [IsStrictOrderedRing K] in
/-- Each fragment has one turn. -/
theorem exists_turn_of_mem (h : allFragments d samples sampleRate = some fragments)
    {f : Fragment K} (hf : f ∈ fragments) : ∃ t, f.turns = [t] := by
  apply forall_allFragments (P := fun f => ∃ t, f.turns = [t]) _ h f hf
  intro span fs hfs f hf
  obtain ⟨offset, embs, -, rfl⟩ := windowFragments_cases hfs
  obtain ⟨piece, -, rfl⟩ := List.mem_map.mp hf
  exact ⟨_, rfl⟩

omit [Field K] [LinearOrder K] [IsStrictOrderedRing K] in
theorem countP_emitted (labelled : List (Fragment K × ℤ)) (x : ℤ) :
    (labelled.flatMap fun f => f.1.turns.map fun t =>
      (⟨f.2, t.startMs, t.endMs⟩ : ScribeLocal.SpeakerTurn)).countP (covers x) =
      ((labelled.map Prod.fst).flatMap fragmentTurns).countP (covers x) := by
  rw [List.flatMap_map, List.countP_flatMap, List.countP_flatMap]
  congr 1
  apply List.map_congr_left
  intro f _
  simp only [Function.comp_apply, fragmentTurns, List.countP_map]
  rfl

omit [IsStrictOrderedRing K] in
theorem exists_labelled_iff (h : allFragments d samples sampleRate = some fragments) {k : ℤ} :
    (∃ t ∈ (emitted d fragments (labels d fragments expected)).turns,
      t.localIdx = k) ↔ k ∈ labels d fragments expected := by
  have hlength : (labels d fragments expected).length = fragments.length :=
    length_clusterFragmentsPasses fragments expected _
  simp only [emitted, sortTurns, List.mem_insertionSort, List.mem_flatMap, List.mem_map]
  constructor
  · rintro ⟨_, ⟨f, hf, t, -, rfl⟩, rfl⟩
    exact (List.of_mem_zip hf).2
  · intro hk
    rw [← List.map_snd_zip hlength.le] at hk
    obtain ⟨f, hf, rfl⟩ := List.mem_map.mp hk
    obtain ⟨t, ht⟩ := exists_turn_of_mem d h (List.of_mem_zip hf).1
    exact ⟨⟨f.2, t.startMs, t.endMs⟩, ⟨f, hf, t, by simp [ht], rfl⟩, rfl⟩

/-- Every instant that the segmentation model hears `n` voices in is in `n` turns; the speakers
are numbered without a gap, and one has a voice as soon as a piece of it could be embedded. -/
theorem diarizeWindowed_settled (hpos : 0 ≤ minPieceMs d.split) (hclips : SegmentsInClip d)
    (hlen : samples.length ≤ 2 ^ 52)
    (h : diarizeWindowed d samples sampleRate expected = some out) :
    ∃ fragments, allFragments d samples sampleRate = some fragments ∧
      Attributed d samples sampleRate
        (fragments.zip (labels d fragments expected)) out := by
  obtain ⟨fragments, hfragments, h⟩ := Option.bind_eq_some_iff.mp h
  refine ⟨fragments, hfragments, ?_⟩
  have hcount := countP_allFragments hpos hclips hlen hfragments
  by_cases hnil : fragments = []
  · rw [if_pos (List.isEmpty_iff.mpr hnil)] at h
    cases h
    subst hnil
    constructor
    · exact .nil
    · exact hcount
    · intro _ k
      simp only [List.not_mem_nil, false_and, exists_false, false_iff, Nat.cast_zero]
      omega
    · simp
  · rw [if_neg (by simpa using hnil)] at h
    cases h
    have hlength : (labels d fragments expected).length = fragments.length :=
      length_clusterFragmentsPasses fragments expected _
    constructor
    · exact List.pairwise_insertionSort KeyLe _
    · intro x
      rw [emitted, sortTurns, (List.perm_insertionSort KeyLe _).countP_eq, countP_emitted,
        List.map_fst_zip hlength.ge, hcount]
    · intro hpasses k
      rw [exists_labelled_iff d hfragments]
      exact lt_numSpeakers_iff (gapless_clusterFragmentsPasses hnil expected hpasses)
    · intro k
      obtain ⟨hsome, hweight⟩ :=
        centroids_spec (fragments.zip (labels d fragments expected)) k
      rw [← hsome]
      unfold emitted
      dsimp only
      cases hentry : ((fragments.zip (labels d fragments expected)).foldl
          centroidStep fun _ => none) k with
      | none => rfl
      | some entry => simp [(hweight entry hentry).not_ge]

end Recording

/-- Two overlapping segments, and no pause to split them at. -/
def interrupted : SherpaDiarizer ℚ where
  checks := .on
  split := ⟨none, none, none, none⟩
  windowMs := none
  passes := none
  sqrt := id
  process := fun _ => some [⟨4, 0, 12⟩, ⟨5, 7, 15⟩]
  extract := fun _ => some [1]

theorem segmentsInClip_interrupted : SegmentsInClip interrupted := by
  intro clip turns hturns t ht
  obtain rfl : [⟨4, 0, 12⟩, ⟨5, 7, 15⟩] = turns := Option.some_inj.mp hturns
  revert t
  decide

theorem interrupted_isSome : (diarizeWindowed interrupted [0.5, 0.5, 0.5] 16000 none).isSome := by
  decide +kernel

theorem diarizeWindowed_settled_interrupted : ∃ out, ∃ fragments : List (Fragment ℚ),
    diarizeWindowed interrupted [0.5, 0.5, 0.5] 16000 none = some out ∧
      Attributed interrupted [0.5, 0.5, 0.5] 16000
        (fragments.zip (labels interrupted fragments none)) out := by
  obtain ⟨out, hout⟩ := Option.isSome_iff_exists.mp interrupted_isSome
  obtain ⟨fragments, -, hsettled⟩ :=
    diarizeWindowed_settled interrupted (by decide) segmentsInClip_interrupted (by decide) hout
  exact ⟨out, fragments, hout, hsettled⟩

/-! ## A stated count of one -/

section One
variable {K : Type} [Field K] [LinearOrder K] (d : SherpaDiarizer K)

omit [Field K] [LinearOrder K] in
/-- The duration is no longer than the samples. -/
theorem exists_durationMs (sampleRate : UInt32) (hlen : samples.length ≤ 2 ^ 52) :
    ∃ duration, durationMs d samples sampleRate = some duration ∧ 0 ≤ duration ∧
      duration < 2 ^ 62 ∧ duration * sampleRate.toNat ≤ samples.length * 1000 := by
  unfold durationMs
  by_cases hrate : sampleRate = 0
  · rw [if_pos hrate, hrate]
    exact ⟨0, rfl, le_rfl, by decide, by simp⟩
  · have hle : (samples.length * 1000 : ℤ) / sampleRate.toNat ≤ samples.length * 1000 :=
      Int.ediv_le_self _ (by omega)
    rw [if_neg hrate, mulI64_of_fits (by omega), Option.map_some,
      Int.tdiv_eq_ediv_of_nonneg (by omega)]
    refine ⟨_, rfl, Int.ediv_nonneg (by omega) (Int.natCast_nonneg _), by omega, ?_⟩
    exact Int.ediv_mul_le _ (by simpa [← UInt32.toNat_inj] using hrate)

theorem computeSpeakerEmbeddings_isSome {turns : List ScribeLocal.SpeakerTurn}
    (h : ∀ t ∈ turns, (turnSlices d.checks samples.length sampleRate t).isSome) :
    (computeSpeakerEmbeddings d.sqrt d.extract d.checks samples sampleRate turns).isSome := by
  unfold computeSpeakerEmbeddings
  rw [Option.isSome_map]
  generalize (fun _ => none : Sums K) = acc
  induction turns generalizing acc with
  | nil => rfl
  | cons t turns ih =>
    obtain ⟨slices, hslices⟩ := Option.isSome_iff_exists.mp (h t List.mem_cons_self)
    rw [List.foldlM_cons, embedTurn, hslices]
    exact ih (fun t ht => h t (List.mem_cons_of_mem _ ht)) _

/-- What lies in the recording can be cut out of it. -/
theorem turnSlices_isSome {checks : OverflowChecks} {len : ℕ} {t : ScribeLocal.SpeakerTurn}
    (hlen : len ≤ 2 ^ 52) (hstart : 0 ≤ t.startMs) (hlt : t.startMs ≤ t.endMs)
    (hend : t.endMs * sampleRate.toNat ≤ len * 1000) :
    (turnSlices checks len sampleRate t).isSome := by
  have hrate : (0 : ℤ) ≤ sampleRate.toNat := Int.natCast_nonneg _
  have hlow : 0 ≤ t.startMs * (sampleRate.toNat : ℤ) := mul_nonneg hstart hrate
  have hle : t.startMs * (sampleRate.toNat : ℤ) ≤ t.endMs * sampleRate.toNat :=
    mul_le_mul_of_nonneg_right hlt hrate
  rw [turnSlices_eq (sampleAt_of_nonneg (by rwa [max_eq_left hstart])
      (by rw [max_eq_left hstart]; omega))
    (sampleAt_of_nonneg (by rw [max_eq_left hlt]; omega) (by rw [max_eq_left hlt]; omega))]
  rfl

theorem timed_whole {duration : ℤ} (hnonneg : 0 ≤ duration) (hfits : duration < 2 ^ 63) :
    Timed ⟨0, 0, duration⟩ :=
  ⟨.of_nonneg le_rfl (by norm_num), .of_nonneg hnonneg hfits⟩

omit [Field K] [LinearOrder K] in
/-- The recording, or the pieces of it that follow each other. -/
theorem wholeTurns_cases (hpos : 0 ≤ minPieceMs d.split) (hlen : samples.length ≤ 2 ^ 58)
    (sampleRate : UInt32) {duration : ℤ} (hnonneg : 0 ≤ duration) (hfits : duration < 2 ^ 63) :
    duration = 0 ∧ wholeTurns d samples sampleRate duration = [⟨0, 0, duration⟩] ∨
      0 < duration ∧ wholeTurns d samples sampleRate duration =
        (turnPieces d.split samples sampleRate ⟨0, 0, duration⟩).map fun p => ⟨0, p.1, p.2⟩ := by
  have hsplit := split_turnPieces hpos hlen sampleRate (timed_whole hnonneg hfits)
  have hnumber (i : ℤ) (ps : List (ℤ × ℤ)) : (number i ps).map (fun t => { t with localIdx := 0 }) =
      ps.map fun p => (⟨0, p.1, p.2⟩ : ScribeLocal.SpeakerTurn) := by
    induction ps generalizing i with
    | nil => rfl
    | cons p ps ih => rw [number, List.map_cons, ih, List.map_cons]
  unfold wholeTurns
  dsimp only
  rw [splitTurnsAtSilence_eq, List.flatMap_singleton, hnumber]
  rcases hnonneg.eq_or_lt with rfl | hlt
  · rw [hsplit.none le_rfl le_rfl]
    exact .inl ⟨rfl, rfl⟩
  · refine .inr ⟨hlt, if_neg fun hnil => ?_⟩
    rw [List.isEmpty_iff, List.map_eq_nil_iff] at hnil
    exact (hsplit.tiles hlt).ne_nil hlt hnil

omit [Field K] [LinearOrder K] in
theorem wholeTurns_ne_nil (hpos : 0 ≤ minPieceMs d.split) (hlen : samples.length ≤ 2 ^ 58)
    (sampleRate : UInt32) {duration : ℤ} (hnonneg : 0 ≤ duration) (hfits : duration < 2 ^ 63) :
    wholeTurns d samples sampleRate duration ≠ [] := by
  have hsplit := split_turnPieces hpos hlen sampleRate (timed_whole hnonneg hfits)
  rcases wholeTurns_cases d hpos hlen sampleRate hnonneg hfits with ⟨-, hwhole⟩ | ⟨hlt, hpieces⟩
  · rw [hwhole]
    exact List.cons_ne_nil _ _
  · rw [hpieces]
    exact mt List.map_eq_nil_iff.mp ((hsplit.tiles hlt).ne_nil hlt)

omit [Field K] [LinearOrder K] in
/-- They lie within the recording, and are all of one speaker. -/
theorem mem_wholeTurns (hpos : 0 ≤ minPieceMs d.split) (hlen : samples.length ≤ 2 ^ 58)
    (sampleRate : UInt32) {duration : ℤ} (hnonneg : 0 ≤ duration) (hfits : duration < 2 ^ 63)
    {t : ScribeLocal.SpeakerTurn} (ht : t ∈ wholeTurns d samples sampleRate duration) :
    0 ≤ t.startMs ∧ t.startMs ≤ t.endMs ∧ t.endMs ≤ duration ∧ t.localIdx = 0 := by
  have hsplit := split_turnPieces hpos hlen sampleRate (timed_whole hnonneg hfits)
  rcases wholeTurns_cases d hpos hlen sampleRate hnonneg hfits with ⟨-, hwhole⟩ | ⟨hlt, hpieces⟩
  · rw [hwhole] at ht
    rw [List.mem_singleton.mp ht]
    exact ⟨le_rfl, hnonneg, le_rfl, rfl⟩
  · rw [hpieces] at ht
    obtain ⟨p, hp, rfl⟩ := List.mem_map.mp ht
    obtain ⟨hlow, hbetween, hhigh⟩ := (hsplit.tiles hlt).bounds hp
    exact ⟨hlow, hbetween.le, hhigh, rfl⟩

end One

end ScribeLocal.Asr
