import ScribeLocal.Asr.InferredCount
import ScribeLocal.Asr.Contiguous

/-!
# A person's worth of speech

Folding leaves only speakers that hold enough speech to be somebody. The voice pass after it
moves fragments between them without counting again.
-/
namespace ScribeLocal.Asr
open Finset

variable {K : Type*}

/-! ## What a speaker holds -/

theorem speechAt_nonneg (fragments : List (Fragment K)) (i : ℕ) : 0 ≤ speechAt fragments i := by
  rw [speechAt]
  cases fragments[i]? with
  | none => exact le_rfl
  | some f => exact le_max_right _ _

theorem speechOf_le_allSpeech (fragments : List (Fragment K)) (a : Assignment) (c : ℤ) :
    speechOf fragments a c ≤ allSpeech fragments := by
  rw [speechOf_eq_sum, allSpeech]
  exact sum_le_sum_of_subset_of_nonneg (filter_subset _ _) fun i _ _ => speechAt_nonneg fragments i

/-- Enough speech in whole milliseconds. -/
theorem substantial_iff (total ms : ℤ) :
    substantial total ms ↔ minSpeakerSpeechMs ≤ ms ∧ total ≤ 100 * ms := by
  rw [substantial, Bool.and_eq_true, decide_eq_true_eq, minSpeakerSpeechMs]
  apply and_congr_right
  intro hfloor
  rw [Bool.or_eq_true, decide_eq_true_eq, decide_eq_true_eq]
  by_cases htotal : total ≤ 0
  · simp only [htotal, true_or, true_iff]
    omega
  · have hpos : (0 : ℚ) < total := by exact_mod_cast not_le.mp htotal
    simp only [htotal, false_or]
    rw [minSpeakerShare, div_le_div_iff₀ (by norm_num) hpos, one_mul, mul_comm (ms : ℚ)]
    exact_mod_cast Iff.rfl

theorem substantial_mono {total ms ms' : ℤ} (hle : ms ≤ ms') (h : substantial total ms) :
    substantial total ms' := by
  rw [substantial_iff] at h ⊢
  omega

/-- What a speaker holds depends only on which fragments are together. -/
theorem speechOf_congr {fragments : List (Fragment K)} {a b : Assignment} {i : ℕ}
    (h : ∀ j < fragments.length, a j = a i ↔ b j = b i) :
    speechOf fragments a (a i) = speechOf fragments b (b i) := by
  rw [speechOf_eq_sum, speechOf_eq_sum]
  congr 1
  ext j
  simp only [mem_filter, mem_range]
  exact and_congr_right fun hj => h j hj

theorem renumber_eq_iff {m : ℕ} {a : Assignment} {i j : ℕ} (hi : i < m) :
    renumber m a j = renumber m a i ↔ a j = a i := by
  have hmem : a i ∈ seen m a := mem_seen.mpr (mem_speakers.mpr ⟨i, hi, rfl⟩)
  rw [renumber, renumber, Nat.cast_inj, eq_comm, List.idxOf_inj hmem, eq_comm]

/-- Whether every speaker in use holds enough. -/
def AllSubstantial (fragments : List (Fragment K)) (a : Assignment) : Prop :=
  ∀ i < fragments.length, substantial (allSpeech fragments) (speechOf fragments a (a i))

theorem allSubstantial_renumber {fragments : List (Fragment K)} {a : Assignment} :
    AllSubstantial fragments (renumber fragments.length a) ↔ AllSubstantial fragments a := by
  apply forall₂_congr
  intro i hi
  rw [speechOf_congr (a := renumber fragments.length a) fun j _ => renumber_eq_iff hi]

/-! ## After folding -/

theorem mem_surviving_iff {fragments : List (Fragment K)} {a : Assignment} {c : ℤ} :
    c ∈ surviving fragments a ↔ c ∈ speakers fragments.length a ∧
      substantial (allSpeech fragments) (speechOf fragments a c) := by
  rw [surviving, sum_speechOf, List.mem_filter, mem_seen]

variable [Field K] [LinearOrder K] (sqrt : K → K)

theorem foldTarget_getD_mem {fragments : List (Fragment K)} {a : Assignment}
    (emb : Option (List K)) (h : surviving fragments a ≠ []) :
    (emb.bind (foldTarget sqrt fragments a)).getD ((surviving fragments a).headD 0) ∈
      surviving fragments a := by
  cases htarget : emb.bind (foldTarget sqrt fragments a) with
  | some c =>
    obtain ⟨v, -, hv⟩ := Option.bind_eq_some_iff.mp htarget
    exact foldTarget_mem sqrt hv
  | none =>
    cases hs : surviving fragments a with
    | nil => exact absurd hs h
    | cons c cs => simp

/-- Folding leaves every speaker enough, where one had it. -/
theorem allSubstantial_fold {fragments : List (Fragment K)} {a : Assignment}
    (h : surviving fragments a ≠ []) :
    AllSubstantial fragments (foldSlightSpeakers sqrt fragments a) := by
  have hempty : (surviving fragments a).isEmpty = false := by simpa using h
  rw [foldSlightSpeakers]
  by_cases hall : (surviving fragments a).length = (seen fragments.length a).length
  · simp only [hall, or_true, if_true]
    intro i hi
    have hsurvive := List.length_filter_eq_length_iff.mp hall (a i)
      (mem_seen.mpr (mem_speakers.mpr ⟨i, hi, rfl⟩))
    rwa [sum_speechOf] at hsurvive
  · simp only [hempty, hall, Bool.false_eq_true, or_self, if_false]
    rw [allSubstantial_renumber]
    set b : Assignment := fun i =>
      if a i ∈ surviving fragments a then a i
      else ((fragments[i]?.bind Fragment.embedding).bind (foldTarget sqrt fragments a)).getD
        ((surviving fragments a).headD 0) with hb
    have hkept : ∀ i, a i ∈ surviving fragments a → b i = a i := fun i hi => if_pos hi
    have htarget : ∀ i, b i ∈ surviving fragments a := by
      intro i
      rw [hb]
      dsimp only
      split
      · assumption
      · exact foldTarget_getD_mem sqrt _ h
    intro i _
    obtain ⟨-, henough⟩ := mem_surviving_iff.mp (htarget i)
    apply substantial_mono _ henough
    rw [speechOf_eq_sum, speechOf_eq_sum]
    apply sum_le_sum_of_subset_of_nonneg
    · intro j hj
      rw [mem_filter] at hj ⊢
      refine ⟨hj.1, ?_⟩
      rw [hkept j (by rw [hj.2]; exact htarget i), hj.2]
    · intro j _ _
      exact speechAt_nonneg fragments j

/-! ## After the voice pass -/

/-- The speech of the fragments of a speaker that resemble its voice more than any other. -/
def ownSpeech (fragments : List (Fragment K)) (a : Assignment) (c : ℤ) : ℤ :=
  ∑ i ∈ range fragments.length with a i = c ∧ Resembles sqrt fragments a i c, speechAt fragments i

/-- What a speaker holds after the voice pass: its own speech, and what comes to it. -/
theorem speechOf_voiced (fragments : List (Fragment K)) (a : Assignment) (c : ℤ) :
    speechOf fragments (voiced sqrt fragments a) c = ownSpeech sqrt fragments a c +
      ∑ i ∈ range fragments.length with a i ≠ c ∧ Resembles sqrt fragments a i c,
        speechAt fragments i := by
  rw [speechOf_eq_sum, ownSpeech]
  simp only [voiced_eq_iff]
  rw [← sum_filter_add_sum_filter_not _ (fun i => a i = c), filter_filter, filter_filter]
  simp only [and_comm]

theorem voiced_mem {fragments : List (Fragment K)} {a : Assignment} {i : ℕ}
    (hi : i < fragments.length) : voiced sqrt fragments a i ∈ speakers fragments.length a := by
  rw [voiced]
  split
  · exact mem_speakers.mpr ⟨i, hi, rfl⟩
  · exact revoiced_mem sqrt hi

theorem allSubstantial_refine {fragments : List (Fragment K)} {a : Assignment} :
    AllSubstantial fragments (refineAssignment sqrt fragments 1 a) ↔
      AllSubstantial fragments (voiced sqrt fragments a) := by
  rw [refineAssignment, voiced]
  by_cases hvoices : (voices sqrt fragments a).length < 2
  · simp only [hvoices, if_true]
  · simp only [hvoices, if_false]
    split <;> exact allSubstantial_renumber

/-! ## The labels that come back -/

/-- The labels of a recording as an assignment. -/
def labelAt (labels : List ℤ) : Assignment := fun i => labels.getD i (-1)

/-- Where a cluster held enough before folding, every speaker that comes back does. -/
def PersonsWorth (fragments : List (Fragment K)) (labels : List ℤ) : Prop :=
  surviving fragments (placedAt fragments (inferredClusters sqrt fragments)) ≠ [] →
    ∀ c ∈ labels, substantial (allSpeech fragments) (speechOf fragments (labelAt labels) c)

/-- The speakers before the voice pass. -/
def inferredSpeakers (fragments : List (Fragment K)) : Assignment :=
  foldSlightSpeakers sqrt fragments (placedAt fragments (inferredClusters sqrt fragments))

/-- After folding, every speaker can do without the fragments that resemble another voice more. -/
def Sustained (fragments : List (Fragment K)) : Prop :=
  surviving fragments (placedAt fragments (inferredClusters sqrt fragments)) ≠ [] →
    ∀ c ∈ speakers fragments.length (inferredSpeakers sqrt fragments),
      (∃ i ∈ List.range fragments.length,
        Resembles sqrt fragments (inferredSpeakers sqrt fragments) i c) →
        substantial (allSpeech fragments)
          (ownSpeech sqrt fragments (inferredSpeakers sqrt fragments) c)

instance (fragments : List (Fragment K)) : Decidable (Sustained sqrt fragments) :=
  inferInstanceAs (Decidable (_ → _))

omit [Field K] [LinearOrder K] in
theorem forall_labels_iff {fragments : List (Fragment K)} {a : Assignment} {labels : List ℤ}
    (h : labels = (List.range fragments.length).map a) :
    (∀ c ∈ labels, substantial (allSpeech fragments) (speechOf fragments (labelAt labels) c)) ↔
      AllSubstantial fragments a := by
  have hlabel : ∀ i < fragments.length, labelAt labels i = a i := by
    intro i hi
    simp [labelAt, h, hi]
  have hspeech : ∀ c, speechOf fragments (labelAt labels) c = speechOf fragments a c := by
    intro c
    rw [speechOf_eq_sum, speechOf_eq_sum]
    apply sum_congr _ fun _ _ => rfl
    apply filter_congr
    intro i hi
    rw [hlabel i (mem_range.mp hi)]
  simp only [h, List.forall_mem_map, List.mem_range] at hspeech ⊢
  exact forall₂_congr fun i hi => by rw [hspeech]

theorem forall_inferred_iff {fragments : List (Fragment K)}
    (hsurviving : surviving fragments (placedAt fragments (inferredClusters sqrt fragments)) ≠ []) :
    (∀ c ∈ clusterFragments sqrt fragments none, substantial (allSpeech fragments)
      (speechOf fragments (labelAt (clusterFragments sqrt fragments none)) c)) ↔
    AllSubstantial fragments (voiced sqrt fragments (inferredSpeakers sqrt fragments)) := by
  by_cases hempty : (embedded fragments).isEmpty
  · have hlabels : clusterFragments sqrt fragments none =
        (List.range fragments.length).map fun _ => 0 := by
      rw [List.map_const', List.length_range]
      exact if_pos hempty
    apply iff_of_true
    · rw [forall_labels_iff hlabels]
      intro i _
      obtain ⟨c, hc⟩ := List.exists_mem_of_ne_nil _ hsurviving
      obtain ⟨-, henough⟩ := mem_surviving_iff.mp hc
      apply substantial_mono (speechOf_le_allSpeech _ _ _) at henough
      rw [speechOf_eq_sum, filter_true_of_mem fun _ _ => rfl]
      exact henough
    · have hsingle : (voices sqrt fragments (inferredSpeakers sqrt fragments)).length < 2 := by
        rw [voices_length_lt_two, List.isEmpty_iff.mp hempty]
        simp
      rw [voiced, if_pos hsingle]
      exact allSubstantial_fold sqrt hsurviving
  · have hlabels : clusterFragments sqrt fragments none = (List.range fragments.length).map
        (refineAssignment sqrt fragments 1 (inferredSpeakers sqrt fragments)) := if_neg hempty
    rw [forall_labels_iff hlabels, allSubstantial_refine]

/-- Two takes of one voice, and a second voice whose short take leans towards the first. -/
def leaning : List (Fragment ℚ) :=
  [⟨[⟨0, 5000⟩], some [24 / 25, 7 / 25, 0], 5000⟩,
    ⟨[⟨5000, 10000⟩], some [24 / 25, -7 / 25, 0], 5000⟩,
    ⟨[⟨10000, 12880⟩], some [8127 / 18785, 0, 16936 / 18785], 2880⟩,
    ⟨[⟨12880, 13115⟩], some [56 / 65, 0, 33 / 65], 235⟩]

end ScribeLocal.Asr
