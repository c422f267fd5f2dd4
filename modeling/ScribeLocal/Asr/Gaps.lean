import Mathlib.Data.Real.Basic
import ScribeLocal.Asr.Windows
import ScribeLocal.Uncovered

/-!
# Stretches without words

The pass of `recover_gaps` over the words finds the stretches that none of them covers, and
each long one is decoded.
-/
namespace ScribeLocal.Asr
open Traced Uncovered

/-- A point of the recording's time. -/
def ms (x : Int64) : ℝ := x.toInt

def AsrWord.span (w : AsrWord) : ℝ × ℝ := (ms w.startMs, ms w.endMs)

variable {t : SherpaTranscriber} {env : Env} {sr : UInt32} {samples : Samples}
  {gapMs totalMs prevEnd a b : Int64} {ws : List AsrWord}

theorem ms_le_ms : ms a ≤ ms b ↔ a ≤ b := by
  rw [ms, ms, Int.cast_le, Int64.le_iff_toInt_le]

theorem ms_lt_ms : ms a < ms b ↔ a < b := by
  rw [ms, ms, Int.cast_lt, Int64.lt_iff_toInt_lt]

theorem ms_zero : ms 0 = 0 := Int.cast_zero

theorem ms_max : ms (max a b) = max (ms a) (ms b) := by
  have hmax : max a b = if a ≤ b then b else a := rfl
  rw [hmax, max_def, if_congr ms_le_ms rfl rfl, apply_ite ms]

/-- Between two points of the recording nothing wraps around. -/
theorem ms_sub (ha : 0 ≤ a) (hb : 0 ≤ b) : ms (a - b) = ms a - ms b := by
  rw [Int64.le_iff_toInt_le, Int64.toInt_zero] at ha hb
  have hlta := a.toInt_lt
  have hltb := b.toInt_lt
  have hsub : (a - b).toInt = a.toInt - b.toInt := by
    rw [Int64.toInt_sub]
    apply Int.bmod_eq_of_le <;> omega
  rw [ms, hsub, Int.cast_sub]
  rfl

/-! ## The pass over the words -/

/-- The stretches found are the long ones of the sweep. -/
theorem map_gapsFrom (hprev : 0 ≤ prevEnd) (htotal : 0 ≤ totalMs)
    (hstart : ∀ w ∈ ws, 0 ≤ w.startMs) :
    (gapsFrom gapMs totalMs ws prevEnd).map (Prod.map ms ms) =
      (sweep (ms prevEnd) (ms totalMs) (ws.map AsrWord.span)).filter
        fun p => ms gapMs ≤ p.2 - p.1 := by
  induction ws generalizing prevEnd with
  | nil =>
    have hlong : ms gapMs ≤ ms totalMs - ms prevEnd ↔ gapMs ≤ totalMs - prevEnd := by
      rw [← ms_sub htotal hprev, ms_le_ms]
    by_cases h : gapMs ≤ totalMs - prevEnd
    · simp [gapsFrom, sweep, h, hlong]
    · simp [gapsFrom, sweep, h, hlong]
  | cons w ws ih =>
    rw [List.forall_mem_cons] at hstart
    have hlong : ms gapMs ≤ ms w.startMs - ms prevEnd ↔ gapMs ≤ w.startMs - prevEnd := by
      rw [← ms_sub hstart.1 hprev, ms_le_ms]
    have hmax : 0 ≤ max prevEnd w.endMs := by
      rw [← ms_le_ms, ms_max]
      exact (ms_le_ms.mpr hprev).trans (le_max_left _ _)
    have hrest := ih hmax hstart.2
    rw [ms_max] at hrest
    by_cases h : gapMs ≤ w.startMs - prevEnd
    · simp [gapsFrom, sweep, AsrWord.span, h, hlong, hrest]
    · simp [gapsFrom, sweep, AsrWord.span, h, hlong, hrest]

/-- What `recover_gaps` is given: words within the recording, in the order of their starts. -/
structure Placed (totalMs : Int64) (ws : List AsrWord) : Prop where
  sorted : ws.Pairwise fun v w => v.startMs ≤ w.startMs
  within : ∀ w ∈ ws, 0 ≤ w.startMs ∧ w.startMs ≤ w.endMs ∧ w.endMs ≤ totalMs

theorem Placed.sorted_spans (h : Placed totalMs ws) :
    (ws.map AsrWord.span).Pairwise fun v w => v.1 ≤ w.1 := by
  rw [List.pairwise_map]
  exact h.sorted.imp fun hle => ms_le_ms.mpr hle

theorem Placed.proper (h : Placed totalMs ws) : ∀ p ∈ ws.map AsrWord.span, p.1 ≤ p.2 := by
  intro p hp
  obtain ⟨w, hw, rfl⟩ := List.mem_map.mp hp
  exact ms_le_ms.mpr (h.within w hw).2.1

theorem Placed.le_total (h : Placed totalMs ws) : ∀ p ∈ ws.map AsrWord.span, p.2 ≤ ms totalMs := by
  intro p hp
  obtain ⟨w, hw, rfl⟩ := List.mem_map.mp hp
  exact ms_le_ms.mpr (h.within w hw).2.2

/-- The conversion of a length may wrap around; then no word lies within the recording. -/
theorem Placed.gaps_eq_nil (h : Placed totalMs ws) (htotal : ¬ 0 ≤ totalMs) (hpos : 0 < gapMs) :
    gaps gapMs totalMs ws = [] := by
  have hshort : ¬ gapMs ≤ totalMs - 0 := by
    rw [Int64.sub_zero]
    exact fun hle => htotal (Int64.le_of_lt (Int64.lt_of_lt_of_le hpos hle))
  cases ws with
  | nil => rw [gaps, gapsFrom, if_neg hshort]
  | cons w ws =>
    obtain ⟨hstart, hproper, hle⟩ := h.within w (List.mem_cons_self ..)
    exact absurd (Int64.le_trans hstart (Int64.le_trans hproper hle)) htotal

/-- The stretches are the long ones among the largest that no word meets. -/
theorem mem_gaps_iff (h : Placed totalMs ws) (hpos : 0 < gapMs) (x y : ℝ) :
    (x, y) ∈ (gaps gapMs totalMs ws).map (Prod.map ms ms) ↔
      Maximal 0 (ms totalMs) (ws.map AsrWord.span) x y ∧ ms gapMs ≤ y - x := by
  have hgap : ms 0 < ms gapMs := ms_lt_ms.mpr hpos
  rw [ms_zero] at hgap
  by_cases htotal : 0 ≤ totalMs
  · rw [gaps, map_gapsFrom (Int64.le_refl 0) htotal fun w hw => (h.within w hw).1,
      List.mem_filter, ms_zero, ← mem_sweep_iff h.sorted_spans h.proper h.le_total,
      decide_eq_true_eq]
    constructor
    · rintro ⟨hmem, hlong⟩
      exact ⟨⟨hmem, by linarith⟩, hlong⟩
    · rintro ⟨⟨hmem, -⟩, hlong⟩
      exact ⟨hmem, hlong⟩
  · rw [h.gaps_eq_nil htotal hpos, List.map_nil]
    constructor
    · nofun
    · rintro ⟨⟨hfree, -⟩, -⟩
      have hwhole := hfree.lo_le.trans (hfree.lt.le.trans hfree.le_hi)
      rw [← ms_zero, ms_le_ms] at hwhole
      exact absurd hwhole htotal

theorem pairwise_gaps (h : Placed totalMs ws) (hpos : 0 < gapMs) :
    (gaps gapMs totalMs ws).Pairwise fun g k => g.2 ≤ k.1 := by
  by_cases htotal : 0 ≤ totalMs
  · have hmap : ((gaps gapMs totalMs ws).map (Prod.map ms ms)).Pairwise fun p q => p.2 ≤ q.1 := by
      rw [gaps, map_gapsFrom (Int64.le_refl 0) htotal fun w hw => (h.within w hw).1]
      exact (pairwise_sweep h.proper).filter _
    exact (List.pairwise_map.mp hmap).imp fun hle => ms_le_ms.mp hle
  · rw [h.gaps_eq_nil htotal hpos]
    exact .nil

/-! ## The samples of a stretch -/

/-- Short of the recording's end the conversion back to samples does not wrap around. -/
theorem msToSamples_eq (ha : 0 ≤ a) (hlt : a.toInt * sr.toNat < 2 ^ 63) :
    (msToSamples a sr : ℤ) = a.toInt * sr.toNat / 1000 := by
  rw [Int64.le_iff_toInt_le, Int64.toInt_zero] at ha
  have hprod : 0 ≤ a.toInt * sr.toNat := by positivity
  have hmul : (a * rate sr).toInt = a.toInt * sr.toNat := by
    rw [Int64.toInt_mul, toInt_rate]
    apply Int.bmod_eq_of_le <;> omega
  have hquot : (a * rate sr / 1000).toInt = a.toInt * sr.toNat / 1000 := by
    rw [Int64.toInt_div_of_ne_right _ _ (by decide), hmul]
    exact Int.tdiv_eq_ediv_of_nonneg hprod
  have hnonneg : 0 ≤ a * rate sr / 1000 := by
    rw [Int64.le_iff_toInt_le, hquot, Int64.toInt_zero]
    omega
  unfold msToSamples
  split
  · rename_i hle
    rw [Int64.le_iff_toInt_le, Int64.toInt_zero] at hle
    have hzero : a.toInt = 0 := le_antisymm hle ha
    rw [hzero, zero_mul]
    rfl
  · rw [Int64.toNat_toUInt64_of_le hnonneg, ← hquot]
    exact Int.toNat_of_nonneg (Int64.le_iff_toInt_le.mp hnonneg)

theorem rate_ne (sr : UInt32) : rate sr ≠ -1 := by
  intro heq
  have hint := toInt_rate sr
  rw [heq, show (-1 : Int64).toInt = -1 by decide] at hint
  omega

/-- A time up to the end of the recording is at most its samples. -/
theorem mul_rate_le {n : ℕ} (hn : n < 2 ^ 61) (hsr : 0 < sr.toNat) (hb : 0 < b)
    (hle : b ≤ samplesToMs n sr) :
    b.toInt * sr.toNat ≤ n * 1000 ∧ b.toInt * sr.toNat < 2 ^ 63 := by
  have hne : sr ≠ 0 := by
    rintro rfl
    exact absurd hsr (by decide)
  rw [Int64.lt_iff_toInt_lt, Int64.toInt_zero] at hb
  rw [Int64.le_iff_toInt_le, samplesToMs, if_neg hne, Int64.toInt_div_of_ne_right _ _ (rate_ne sr),
    Int64.toInt_mul, toInt_rate, Int64.toInt_ofNat_of_lt (by omega),
    show (1000 : Int64).toInt = 1000 by decide] at hle
  have hwrap := @bmod_le (n * 1000) (by omega)
  have hlt : ((n : ℤ) * 1000).bmod (2 ^ 64) < (2 ^ 64 + 1) / 2 := Int.bmod_lt (by decide)
  have hmul : b.toInt * sr.toNat ≤ (((n : ℤ) * 1000).bmod (2 ^ 64)).tdiv sr.toNat * sr.toNat :=
    mul_le_mul_of_nonneg_right hle (by omega)
  rcases @tdiv_mul_le (((n : ℤ) * 1000).bmod (2 ^ 64)) sr.toNat (by omega) (by omega) with
    hquot | hzero
  · omega
  · omega

/-- From 1,000 samples a second on every stretch holds a sample. -/
theorem msToSamples_lt {n : ℕ} (hn : n < 2 ^ 61) (hsr : 1000 ≤ sr.toNat) (ha : 0 ≤ a)
    (hab : a < b) (hle : b ≤ samplesToMs n sr) : msToSamples a sr < min (msToSamples b sr) n := by
  have hb : 0 < b := Int64.lt_of_le_of_lt ha hab
  obtain ⟨hsamples, hlt⟩ := mul_rate_le hn (by omega) hb hle
  have hstop := msToSamples_eq (Int64.le_of_lt hb) hlt
  have hab' := Int64.lt_iff_toInt_lt.mp hab
  have hstep : a.toInt * sr.toNat + 1000 ≤ b.toInt * sr.toNat := by
    have hmul : (a.toInt + 1) * sr.toNat ≤ b.toInt * sr.toNat :=
      mul_le_mul_of_nonneg_right (by omega) (by omega)
    rw [add_one_mul] at hmul
    omega
  have hstart := @msToSamples_eq sr a ha (by omega)
  omega

theorem gapClip_ne_nil {g : Int64 × Int64} (h : msToSamples g.1 sr <
    min (msToSamples g.2 sr) samples.length) : gapClip sr samples g ≠ [] := by
  have hlen : (gapClip sr samples g).length =
      min (msToSamples g.2 sr) samples.length - min (msToSamples g.1 sr) samples.length :=
    length_gapClip g
  intro hnil
  rw [hnil, List.length_nil] at hlen
  omega

/-! ## What is recovered -/

def decodeStretches (t : SherpaTranscriber) (sr : UInt32) (samples : Samples) :
    List (Int64 × Int64) → Traced Samples String (List Transcript)
  | [] => pure []
  | g :: gs => do
    let part ← decodeSpan t sr (gapClip sr samples g) g.1
    let parts ← decodeStretches t sr samples gs
    pure (part :: parts)

/-- The first transcript with the recovered parts in their places. -/
def merged (first : Transcript) (parts : List Transcript) : Transcript :=
  let recovered := parts.flatMap Transcript.words
  let words := first.words ++ recovered
  let words := if 0 < recovered.length then words.mergeSort AsrWord.before else words
  ⟨" ".intercalate (words.map AsrWord.text), words⟩

/-- The loop decodes one stretch after the other, and leaves none out. -/
theorem decodeGaps_eq {gs : List (Int64 × Int64)} {recovered : ℕ}
    (hclip : ∀ g ∈ gs, gapClip sr samples g ≠ []) :
    decodeGaps t sr samples gs ws recovered = (do
      let parts ← decodeStretches t sr samples gs
      pure (ws ++ parts.flatMap Transcript.words,
        recovered + (parts.flatMap Transcript.words).length)) := by
  induction gs generalizing ws recovered with
  | nil => simp [decodeGaps, decodeStretches]
  | cons g gs ih =>
    rw [List.forall_mem_cons] at hclip
    have hlen : (gapClip sr samples g).length =
        min (msToSamples g.2 sr) samples.length - min (msToSamples g.1 sr) samples.length :=
      length_gapClip g
    have hpos := List.length_pos_iff.mpr hclip.1
    rw [decodeGaps, if_neg (by omega), decodeStretches]
    simp only [bind_assoc, pure_bind]
    congr 1
    funext part
    rw [ih hclip.2]
    simp [add_assoc]

/-- The recognizer is handed ends of stretches only, and, if it never fails, every stretch. -/
theorem items_decodeStretches {gs : List (Int64 × Int64)} :
    (decodeStretches t sr samples gs).All (fun clip => ∃ g ∈ gs, clip <:+ gapClip sr samples g) ∧
      ∀ parts, (decodeStretches t sr samples gs).result = .ok parts → ∀ g ∈ gs,
        gapClip sr samples g ∈ (decodeStretches t sr samples gs).items := by
  induction gs with
  | nil => exact ⟨all_pure _, fun _ _ _ hg => absurd hg List.not_mem_nil⟩
  | cons g gs ih =>
    obtain ⟨hends, hwhole⟩ := items_decodeSpan t sr (gapClip sr samples g) g.1
    constructor
    · simp only [decodeStretches, all_bind, all_pure, implies_true, and_true]
      refine ⟨hends.imp fun clip hclip => ⟨g, List.mem_cons_self, hclip⟩, fun part _ => ?_⟩
      refine ih.1.imp ?_
      rintro clip ⟨k, hk, hclip⟩
      exact ⟨k, List.mem_cons_of_mem _ hk, hclip⟩
    · intro parts hparts k hk
      rw [decodeStretches] at hparts ⊢
      obtain ⟨part, hpart, hrest⟩ := exists_of_result_bind hparts
      obtain ⟨parts', hparts', -⟩ := exists_of_result_bind hrest
      rw [items_bind_of_ok hpart, items_bind_of_ok hparts', items_pure, List.append_nil,
        List.mem_append]
      rcases List.mem_cons.mp hk with rfl | hk
      · exact .inl hwhole
      · exact .inr (ih.2 parts' hparts' k hk)

/-- The times of a word decide its place. -/
theorem before_iff {v w : AsrWord} : v.before w = true ↔
    v.startMs < w.startMs ∨ v.startMs = w.startMs ∧ v.endMs ≤ w.endMs := by
  simp [AsrWord.before]

theorem before_trans (u v w : AsrWord) (huv : u.before v = true) (hvw : v.before w = true) :
    u.before w = true := by
  simp only [before_iff, Int64.lt_iff_toInt_lt, Int64.le_iff_toInt_le, ← Int64.toInt_inj] at *
  omega

theorem before_total (v w : AsrWord) : (v.before w || w.before v) = true := by
  simp only [Bool.or_eq_true, before_iff, Int64.lt_iff_toInt_lt, Int64.le_iff_toInt_le,
    ← Int64.toInt_inj]
  omega

theorem perm_merged (first : Transcript) (parts : List Transcript) :
    (merged first parts).words.Perm (first.words ++ parts.flatMap Transcript.words) := by
  unfold merged
  dsimp only
  split
  · exact List.mergeSort_perm _ _
  · exact .refl _

theorem sorted_merged (first : Transcript) (parts : List Transcript)
    (h : parts.flatMap Transcript.words ≠ []) : (merged first parts).words.Pairwise fun v w =>
      v.startMs < w.startMs ∨ v.startMs = w.startMs ∧ v.endMs ≤ w.endMs := by
  have hpos := List.length_pos_iff.mpr h
  unfold merged
  dsimp only
  rw [if_pos hpos]
  exact (List.pairwise_mergeSort before_trans before_total _).imp fun hle => before_iff.mp hle

/-- What `recover_gaps` decodes are the largest stretches of the recording that no word meets,
as far as they are long enough: their samples and ends of these are what the recognizer is handed.
It keeps every word, and sorts them when there are new ones. -/
theorem gaps_recovered (t : SherpaTranscriber) (env : Env) (audio : WavData) (first : Transcript)
    (hrate : 1000 ≤ audio.sampleRate.toNat) (hpos : 0 < env.gapMs.getD gapRecoveryMs)
    (hplaced : Placed (samplesToMs audio.samples.length audio.sampleRate) first.words) :
    ∃ stretches : List (Int64 × Int64),
      (∀ x y : ℝ, (x, y) ∈ stretches.map (Prod.map ms ms) ↔
        Maximal 0 (ms (samplesToMs audio.samples.length audio.sampleRate))
            (first.words.map AsrWord.span) x y ∧
          ms (env.gapMs.getD gapRecoveryMs) ≤ y - x) ∧
      (stretches.Pairwise fun g k => g.2 ≤ k.1) ∧
      (∀ g ∈ stretches, gapClip audio.sampleRate audio.samples g ≠ []) ∧
      (recoverGaps t env audio.sampleRate audio.samples first = do
        let parts ← decodeStretches t audio.sampleRate audio.samples stretches
        pure (merged first parts)) ∧
      (∀ clip ∈ (recoverGaps t env audio.sampleRate audio.samples first).items,
        ∃ g ∈ stretches, clip <:+ gapClip audio.sampleRate audio.samples g) ∧
      (∀ out, (recoverGaps t env audio.sampleRate audio.samples first).result = .ok out →
        ∀ g ∈ stretches, gapClip audio.sampleRate audio.samples g ∈
          (recoverGaps t env audio.sampleRate audio.samples first).items) ∧
      ∀ parts, (merged first parts).words.Perm (first.words ++ parts.flatMap Transcript.words) ∧
        (parts.flatMap Transcript.words ≠ [] → (merged first parts).words.Pairwise fun v w =>
          v.startMs < w.startMs ∨ v.startMs = w.startMs ∧ v.endMs ≤ w.endMs) := by
  have hmem := mem_gaps_iff hplaced hpos
  have hclip : ∀ g ∈ gaps (env.gapMs.getD gapRecoveryMs)
      (samplesToMs audio.samples.length audio.sampleRate) first.words,
      gapClip audio.sampleRate audio.samples g ≠ [] := by
    intro g hg
    obtain ⟨⟨hfree, -⟩, -⟩ := (hmem _ _).mp (List.mem_map_of_mem hg)
    have hlow := hfree.lo_le
    rw [← ms_zero, ms_le_ms] at hlow
    apply gapClip_ne_nil
    exact msToSamples_lt audio.length_lt hrate hlow (ms_lt_ms.mp hfree.lt) (ms_le_ms.mp hfree.le_hi)
  have heq : recoverGaps t env audio.sampleRate audio.samples first = (do
      let parts ← decodeStretches t audio.sampleRate audio.samples (gaps
        (env.gapMs.getD gapRecoveryMs) (samplesToMs audio.samples.length audio.sampleRate)
          first.words)
      pure (merged first parts)) := by
    rw [recoverGaps, if_neg (Int64.not_le.mpr hpos), decodeGaps_eq hclip]
    simp [merged]
  rw [heq]
  refine ⟨_, hmem, pairwise_gaps hplaced hpos, hclip, rfl, ?_, fun out hout => ?_, fun parts =>
    ⟨perm_merged first parts, sorted_merged first parts⟩⟩
  · rw [items_bind_pure]
    exact items_decodeStretches.1
  · obtain ⟨parts, hparts, -⟩ := exists_of_result_bind hout
    rw [items_bind_pure]
    exact items_decodeStretches.2 parts hparts

/-- A short word within a long one. -/
def nested : List AsrWord := [⟨"so", 1000, 20000, 1⟩, ⟨"it", 2000, 3000, 1⟩]

theorem gaps_recovered_nested : ∃ stretches : List (Int64 × Int64),
    (∀ x y : ℝ, (x, y) ∈ stretches.map (Prod.map ms ms) ↔
      Maximal 0 (ms 60000) (nested.map AsrWord.span) x y ∧ ms 1500 ≤ y - x) ∧
    recoverGaps deaf ⟨none, none⟩ 16000 minute.samples ⟨"so it", nested⟩ = (do
      let parts ← decodeStretches deaf 16000 minute.samples stretches
      pure (merged ⟨"so it", nested⟩ parts)) := by
  have htotal : samplesToMs minute.samples.length minute.sampleRate = 60000 := by
    rw [show minute.samples.length = 960000 from List.length_replicate]
    decide
  have hplaced : Placed (samplesToMs minute.samples.length minute.sampleRate) nested := by
    rw [htotal]
    exact ⟨by decide, by decide⟩
  obtain ⟨stretches, hmem, -, -, hdecode, -⟩ := gaps_recovered deaf ⟨none, none⟩ minute
    ⟨"so it", nested⟩ (by decide) (by decide) hplaced
  rw [htotal] at hmem
  exact ⟨stretches, hmem, hdecode⟩

end ScribeLocal.Asr
