import ScribeLocal.Asr.Transcribe
import ScribeLocal.Tiling

/-!
# Windows and passes

The window loop of `transcribe` cuts the samples into windows, and `decode_span` goes over
each in passes.
-/
namespace ScribeLocal.Asr
open Traced Tiling

/-- The windows of the loop, from `start` on. -/
def windows (samples : Samples) (window : ℕ) (hw : 0 < window) (start : ℕ) : List (ℕ × ℕ) :=
  if _h : start < samples.length then
    let stop := chooseWindowEnd samples start (min (start + window) samples.length)
    (start, stop) :: windows samples window hw stop
  else []
termination_by samples.length - start
decreasing_by
  have hmem := @chooseWindowEnd_mem samples _ _
    (show start < min (start + window) samples.length by omega) (Nat.min_le_right _ _)
  omega

def decodeEach (t : SherpaTranscriber) (sr : UInt32) (samples : Samples) :
    List (ℕ × ℕ) → Transcript → Traced Samples String Transcript
  | [], acc => pure acc
  | w :: ws, acc => do
    let part ← decodeSpan t sr (samples.extract w.1 w.2) (Int64.ofNat w.1 * 1000 / rate sr)
    decodeEach t sr samples ws (acc.append part)

variable {t : SherpaTranscriber} {sr : UInt32} {samples : Samples} {window start : ℕ}
  {hw : 0 < window}

/-- The loop decodes one window after the other. -/
theorem windowLoop_eq {acc : Transcript} : windowLoop t sr samples window hw start acc =
    decodeEach t sr samples (windows samples window hw start) acc := by
  fun_induction windowLoop t sr samples window hw start acc with
  | case1 start acc h nominal stop offsetMs ih =>
    rw [windows, dif_pos h]
    dsimp only
    rw [decodeEach]
    congr 1
    funext part
    exact ih part
  | case2 start acc h =>
    rw [windows, dif_neg h]
    rfl

theorem chooseWindowEnd_bounds (hw : 0 < window) (h : start < samples.length) :
    start < chooseWindowEnd samples start (min (start + window) samples.length) ∧
      chooseWindowEnd samples start (min (start + window) samples.length) ≤
        min (start + window) samples.length :=
  chooseWindowEnd_mem (by omega) (Nat.min_le_right _ _)

/-- A window that ends before the samples do is cut in its last quarter. -/
theorem le_chooseWindowEnd (h : start + window < samples.length) :
    start + window * 3 / 4 ≤ chooseWindowEnd samples start (start + window) := by
  unfold chooseWindowEnd
  rw [if_neg (by omega)]
  dsimp only
  by_cases hband : (start + window - start) / cutSearchFraction < cutFrame * 2
  · rw [if_pos hband]
    omega
  · rw [if_neg hband]
    have hmem := @quietest_mem samples
      (start + window - (start + window - start) / cutSearchFraction) (start + window) _
      (start + window) maxEnergy le_rfl (by simp only [cutFrame, cutSearchFraction] at *; omega)
      le_rfl
    simp only [cutSearchFraction] at *
    omega

theorem tiles_windows (samples : Samples) (hw : 0 < window) (h : start ≤ samples.length) :
    Tiles start (windows samples window hw start) samples.length := by
  fun_induction windows samples window hw start with
  | case1 start hstart stop ih =>
    obtain ⟨hlt, hle⟩ := chooseWindowEnd_bounds hw hstart
    exact ⟨rfl, hlt, ih (by omega)⟩
  | case2 start hstart => exact le_antisymm h (not_lt.mp hstart)

theorem length_windows (samples : Samples) (hw : 0 < window) (start : ℕ) :
    ∀ w ∈ windows samples window hw start, w.2 - w.1 ≤ window := by
  fun_induction windows samples window hw start with
  | case1 start hstart stop ih =>
    obtain ⟨-, hle⟩ := chooseWindowEnd_bounds hw hstart
    exact List.forall_mem_cons.mpr ⟨by dsimp only; omega, ih⟩
  | case2 => exact nofun

/-- Every window but the last is at least three quarters of what was asked for. -/
theorem le_length_windows (samples : Samples) (hw : 0 < window) (start : ℕ) :
    ∀ w ∈ (windows samples window hw start).dropLast, window * 3 / 4 ≤ w.2 - w.1 := by
  fun_induction windows samples window hw start with
  | case1 start hstart stop ih =>
    by_cases hlast : stop < samples.length
    · have hne : windows samples window hw stop ≠ [] := by
        rw [windows, dif_pos hlast]
        exact List.cons_ne_nil _ _
      have hwhole : start + window < samples.length := by
        by_contra hend
        have hnominal : stop = samples.length := by
          change chooseWindowEnd samples start _ = _
          rw [chooseWindowEnd, if_pos (by omega)]
        omega
      have hcut : start + window * 3 / 4 ≤ stop := by
        have hle := le_chooseWindowEnd hwhole
        rwa [← min_eq_left hwhole.le] at hle
      rw [List.dropLast_cons_of_ne_nil hne]
      exact List.forall_mem_cons.mpr ⟨by dsimp only; omega, ih⟩
    · rw [windows, dif_neg hlast]
      exact nofun
  | case2 => exact nofun

/-! ## Passes -/

theorem of_needsRecovery {cursor next total : ℕ} (h : needsRecovery cursor next total sr = true) :
    cursor < next ∧ next < total := by
  unfold needsRecovery at h
  by_cases hout : (next ≤ cursor || total ≤ next) = true
  · rw [if_pos hout] at h
    cases h
  · simp only [Bool.or_eq_true, decide_eq_true_eq, not_or] at hout
    omega

/-- A pass is the last one, or another follows it further in. -/
theorem items_decodePasses (t : SherpaTranscriber) (sr : UInt32) (samples : Samples)
    (offsetMs : Int64) (n : ℕ) (acc : Transcript) (cursor : ℕ) :
    (decodePasses t sr samples offsetMs (n + 1) acc cursor).items = [samples.drop cursor] ∨
      ∃ acc' next, cursor < next ∧ next < samples.length ∧
        (decodePasses t sr samples offsetMs (n + 1) acc cursor).items =
          samples.drop cursor :: (decodePasses t sr samples offsetMs n acc' next).items := by
  have hclip : (decodeClip t sr (samples.drop cursor)
      (offsetMs + samplesToMs cursor sr)).items = [samples.drop cursor] := items_hand _ _
  rw [decodePasses, items_bind, hclip]
  cases (decodeClip t sr (samples.drop cursor) (offsetMs + samplesToMs cursor sr)).result with
  | error e => exact .inl rfl
  | ok part =>
    cases hlast : part.words.getLast? with
    | none =>
      left
      simp [hlast]
    | some last =>
      by_cases hmore :
          needsRecovery cursor (msToSamples (last.endMs - offsetMs) sr) samples.length sr = true
      · right
        obtain ⟨hlt, hin⟩ := of_needsRecovery hmore
        refine ⟨acc.append part, _, hlt, hin, ?_⟩
        simp [hlast, hmore]
      · left
        simp [hlast, hmore]

/-- Each pass starts after the one before it, and before the end of the samples. -/
theorem exists_passes (t : SherpaTranscriber) (sr : UInt32) (samples : Samples) (offsetMs : Int64)
    (n : ℕ) (acc : Transcript) (cursor : ℕ) : ∃ passes : List ℕ,
      (decodePasses t sr samples offsetMs n acc cursor).items = passes.map samples.drop ∧
        passes.length ≤ n ∧ passes.IsChain (· < ·) ∧ (∀ c ∈ passes.head?, c = cursor) ∧
        ∀ c ∈ passes, c = cursor ∨ c < samples.length := by
  induction n generalizing acc cursor with
  | zero => exact ⟨[], rfl, le_rfl, .nil, nofun, nofun⟩
  | succ n ih =>
    rcases items_decodePasses t sr samples offsetMs n acc cursor with
      hitems | ⟨acc', next, hlt, hin, hitems⟩
    · exact ⟨[cursor], hitems, by simp, .singleton _, by simp, by simp⟩
    · obtain ⟨passes, hrest, hlength, hchain, hhead, hall⟩ := ih acc' next
      refine ⟨cursor :: passes, ?_, ?_, ?_, ?_, ?_⟩
      · rw [hitems, hrest]
        rfl
      · simpa using hlength
      · apply List.isChain_cons.mpr
        refine ⟨fun c hc => ?_, hchain⟩
        rw [hhead c hc]
        exact hlt
      · simp
      · intro c hc
        rcases List.mem_cons.mp hc with rfl | hrest
        · exact .inl rfl
        · right
          rcases hall c hrest with rfl | hc
          · exact hin
          · exact hc

/-- Of a span its own samples are handed out first, and after them ends of it only. -/
theorem items_decodeSpan (t : SherpaTranscriber) (sr : UInt32) (span : Samples) (offsetMs : Int64) :
    (decodeSpan t sr span offsetMs).All (· <:+ span) ∧ span ∈ (decodeSpan t sr span offsetMs).items := by
  constructor
  · obtain ⟨passes, hitems, -⟩ := exists_passes t sr span offsetMs (maxRecoveryPasses + 1) ⟨"", []⟩ 0
    intro clip hclip
    rw [decodeSpan, hitems] at hclip
    obtain ⟨c, -, rfl⟩ := List.mem_map.mp hclip
    exact List.drop_suffix _ _
  · rw [decodeSpan]
    rcases items_decodePasses t sr span offsetMs maxRecoveryPasses ⟨"", []⟩ 0 with
      hitems | ⟨acc', next, -, -, hitems⟩ <;> rw [hitems, List.drop_zero] <;> exact List.mem_cons_self

/-- The recognizer is handed ends of windows only, and, if it never fails, every window. -/
theorem items_decodeEach {ws : List (ℕ × ℕ)} {acc : Transcript} :
    (decodeEach t sr samples ws acc).All (fun clip => ∃ w ∈ ws, clip <:+ samples.extract w.1 w.2) ∧
      ∀ out, (decodeEach t sr samples ws acc).result = .ok out → ∀ w ∈ ws,
        samples.extract w.1 w.2 ∈ (decodeEach t sr samples ws acc).items := by
  induction ws generalizing acc with
  | nil => exact ⟨all_pure _, fun _ _ _ hw => absurd hw List.not_mem_nil⟩
  | cons w ws ih =>
    obtain ⟨hends, hwhole⟩ := items_decodeSpan t sr (samples.extract w.1 w.2)
      (Int64.ofNat w.1 * 1000 / rate sr)
    constructor
    · rw [decodeEach, all_bind]
      refine ⟨hends.imp fun clip hclip => ⟨w, List.mem_cons_self, hclip⟩, fun part _ => ?_⟩
      exact ih.1.imp fun clip ⟨v, hv, hclip⟩ => ⟨v, List.mem_cons_of_mem _ hv, hclip⟩
    · intro out hout v hv
      rw [decodeEach] at hout ⊢
      obtain ⟨part, hpart, hrest⟩ := exists_of_result_bind hout
      rw [items_bind_of_ok hpart, List.mem_append]
      rcases List.mem_cons.mp hv with rfl | hv
      · exact .inl hwhole
      · exact .inr (ih.2 out hrest v hv)

/-- The windows tile the samples, none is longer than asked for and only the last is shorter
than three quarters of it. The recognizer is handed them and ends of them. A span takes few passes,
the first over all of it, each further in than the one before. -/
theorem windows_tile (t : SherpaTranscriber) (sr : UInt32) (samples : Samples) (window : ℕ)
    (hw : 0 < window) :
    windowLoop t sr samples window hw 0 ⟨"", []⟩ =
        decodeEach t sr samples (windows samples window hw 0) ⟨"", []⟩ ∧
      (∀ clip ∈ (windowLoop t sr samples window hw 0 ⟨"", []⟩).items,
        ∃ w ∈ windows samples window hw 0, clip <:+ samples.extract w.1 w.2) ∧
      (∀ out, (windowLoop t sr samples window hw 0 ⟨"", []⟩).result = .ok out →
        ∀ w ∈ windows samples window hw 0,
          samples.extract w.1 w.2 ∈ (windowLoop t sr samples window hw 0 ⟨"", []⟩).items) ∧
      Tiles 0 (windows samples window hw 0) samples.length ∧
      (∀ i < samples.length, ∃! w, w ∈ windows samples window hw 0 ∧ w.1 ≤ i ∧ i < w.2) ∧
      (∀ w ∈ windows samples window hw 0, w.2 - w.1 ≤ window) ∧
      (∀ w ∈ (windows samples window hw 0).dropLast, window * 3 / 4 ≤ w.2 - w.1) ∧
      ∀ (span : Samples) (offsetMs : Int64), ∃ passes : List ℕ,
        (decodeSpan t sr span offsetMs).items = passes.map span.drop ∧
          passes.length ≤ maxRecoveryPasses + 1 ∧ passes.IsChain (· < ·) ∧
          (∀ c ∈ passes.head?, c = 0) ∧ ∀ c ∈ passes, c = 0 ∨ c < span.length := by
  have htiles := tiles_windows samples hw (Nat.zero_le samples.length)
  rw [windowLoop_eq]
  refine ⟨rfl, items_decodeEach.1, items_decodeEach.2, htiles, fun i hi => htiles.existsUnique (Nat.zero_le i) hi,
    length_windows samples hw 0, le_length_windows samples hw 0, fun span offsetMs => ?_⟩
  exact exists_passes t sr span offsetMs (maxRecoveryPasses + 1) ⟨"", []⟩ 0

theorem windows_tile_minute : Tiles 0 (windows minute.samples 480000 (by decide) 0) 960000 := by
  have htile := (windows_tile deaf 16000 minute.samples 480000 (by decide)).2.2.2.1
  rwa [show minute.samples.length = 960000 from List.length_replicate] at htile

end ScribeLocal.Asr
