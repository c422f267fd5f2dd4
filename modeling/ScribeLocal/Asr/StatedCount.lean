import ScribeLocal.Asr.Voices

/-!
# A stated speaker count

The count selects a point of the merge sequence. The passes after it count speech again, now
with the fragments that were placed, and move fragments between speakers.
-/
namespace ScribeLocal.Asr

section Stated
variable {K : Type*}

/-- The count a caller states, as far as there are fragments to tell apart. -/
def stated (fragments : List (Fragment K)) (c : ℤ) : ℕ := min c.toNat (embedded fragments).length

/-- The speakers at a point of the merge sequence, every fragment placed. -/
def placedAt (fragments : List (Fragment K)) (clusters : List (List ℕ)) : Assignment :=
  place fragments (assign clusters)

/-! ## Speech counted again -/

def allSpeech (fragments : List (Fragment K)) : ℤ :=
  ∑ i ∈ Finset.range fragments.length, speechAt fragments i

theorem speechOf_eq_sum (fragments : List (Fragment K)) (a : Assignment) (c : ℤ) :
    speechOf fragments a c =
      ∑ i ∈ (Finset.range fragments.length).filter fun i => a i = c, speechAt fragments i := by
  rw [speechOf, ← List.sum_toFinset _ (List.nodup_range.filter _)]
  congr 1
  ext i
  simp

/-- The folding pass divides by the speech of all fragments. -/
theorem sum_speechOf (fragments : List (Fragment K)) (a : Assignment) :
    ((seen fragments.length a).map (speechOf fragments a)).sum = allSpeech fragments := by
  rw [← List.sum_toFinset _ (seen_nodup _ _), seen_toFinset, allSpeech, speakers]
  simp only [speechOf_eq_sum]
  exact Finset.sum_fiberwise_of_maps_to (fun i hi => Finset.mem_image_of_mem a hi) _

theorem clusterSpeech_eq_sum (fragments : List (Fragment K)) {members : List ℕ}
    (h : members.Nodup) :
    clusterSpeech fragments members = ∑ i ∈ members.toFinset, speechAt fragments i :=
  (List.sum_toFinset _ h).symm

/-- The people of the folding pass are clusters counted with what was placed beside them. -/
theorem surviving_length {fragments : List (Fragment K)} {clusters : List (List ℕ)}
    (h : Partition (embedded fragments) clusters) (hne : embedded fragments ≠ []) :
    (surviving fragments (placedAt fragments clusters)).length =
      clusters.zipIdx.countP fun c =>
        substantial (allSpeech fragments) (speechOf fragments (placedAt fragments clusters) c.2) := by
  have hnumbers : (clusters.zipIdx.map fun c => (c.2 : ℤ)) =
      (List.range clusters.length).map Int.ofNat := by
    rw [List.range_eq_range', ← List.zipIdx_map_snd 0 clusters, List.map_map]
    rfl
  have hperm : (seen fragments.length (placedAt fragments clusters)).Perm
      (clusters.zipIdx.map fun c => (c.2 : ℤ)) := by
    rw [hnumbers, List.perm_ext_iff_of_nodup (seen_nodup _ _)
      (List.nodup_range.map fun i k hik => Int.ofNat.inj hik)]
    intro c
    rw [mem_seen, placedAt, speakers_placed h hne]
    simp
  rw [surviving, sum_speechOf, ← List.countP_eq_length_filter, hperm.countP_eq, List.countP_map]
  rfl

/-- The speech placed beside a cluster makes nobody slight a person, and no person slight. -/
def KeepsPeople (fragments : List (Fragment K)) (clusters : List (List ℕ)) : Prop :=
  ∀ c ∈ clusters.zipIdx,
    substantial (allSpeech fragments) (speechOf fragments (placedAt fragments clusters) c.2) =
      substantial (embeddedSpeech fragments) (clusterSpeech fragments c.1)

instance (fragments : List (Fragment K)) (clusters : List (List ℕ)) :
    Decidable (KeepsPeople fragments clusters) :=
  inferInstanceAs (Decidable (∀ c ∈ clusters.zipIdx, _))

/-- Then as many people stand as were counted. -/
theorem KeepsPeople.surviving_length {fragments : List (Fragment K)} {clusters : List (List ℕ)}
    (hkeeps : KeepsPeople fragments clusters) (h : Partition (embedded fragments) clusters)
    (hne : embedded fragments ≠ []) :
    (surviving fragments (placedAt fragments clusters)).length = people fragments clusters := by
  have hclusters : people fragments clusters = clusters.zipIdx.countP fun c =>
      substantial (embeddedSpeech fragments) (clusterSpeech fragments c.1) := by
    rw [people]
    nth_rewrite 1 [← List.zipIdx_map_fst 0 clusters]
    rw [List.countP_map]
    rfl
  rw [Asr.surviving_length h hne, hclusters]
  apply List.countP_congr
  intro c hc
  rw [hkeeps c hc]

/-- Fragments that could not be embedded and hold no speech change no cluster's count. -/
theorem keepsPeople_of_silent {fragments : List (Fragment K)} {clusters : List (List ℕ)}
    (h : Partition (embedded fragments) clusters) (hne : embedded fragments ≠ [])
    (silent : ∀ i < fragments.length, i ∉ embedded fragments → speechAt fragments i = 0) :
    KeepsPeople fragments clusters := by
  obtain ⟨j, hj⟩ := List.exists_mem_of_ne_nil _ hne
  obtain ⟨hextends, -⟩ := place_extends (mem_embedded.mp hj).1 ((assign_nonneg_iff h).mpr hj)
  have hall : allSpeech fragments = embeddedSpeech fragments := by
    rw [embeddedSpeech, ← List.sum_toFinset _ (embedded_nodup fragments), allSpeech]
    symm
    apply Finset.sum_subset
    · intro i hi
      exact Finset.mem_range.mpr (mem_embedded.mp (List.mem_toFinset.mp hi)).1
    · intro i hi hnot
      exact silent i (Finset.mem_range.mp hi) fun hmem => hnot (List.mem_toFinset.mpr hmem)
  rintro ⟨c, i⟩ hc
  have hi : clusters[i]? = some c := List.mk_mem_zipIdx_iff_getElem?.mp hc
  have hcmem : c ∈ clusters := List.mem_of_getElem? hi
  have hspeech : speechOf fragments (placedAt fragments clusters) i = clusterSpeech fragments c := by
    rw [clusterSpeech_eq_sum fragments ((List.nodup_flatten.mp h.nodup).1 c hcmem),
      speechOf_eq_sum]
    symm
    apply Finset.sum_subset
    · intro f hf
      have hassigned := assign_of_mem h hi (List.mem_toFinset.mp hf)
      have hmem : f ∈ embedded fragments := (assign_nonneg_iff h).mp (by omega)
      rw [Finset.mem_filter, Finset.mem_range, placedAt, hextends.keeps f (by omega)]
      exact ⟨(mem_embedded.mp hmem).1, hassigned⟩
    · intro f hf hnot
      rw [Finset.mem_filter, Finset.mem_range] at hf
      apply silent f hf.1
      intro hmem
      have hkeeps := hextends.keeps f ((assign_nonneg_iff h).mpr hmem)
      rw [placedAt, hkeeps] at hf
      exact hnot (List.mem_toFinset.mpr ((assign_eq_iff h hi).mp hf.2))
  rw [hall, hspeech]

/-! ## The count that comes back -/

variable [Field K] [LinearOrder K] (sqrt : K → K)

/-- Where the merge sequence holds the stated number of people, as many speakers come back. -/
def Honoured (fragments : List (Fragment K)) (c : ℤ) : Prop :=
  (∃ P ∈ points sqrt fragments, people fragments P = stated fragments c) →
    (clusterFragments sqrt fragments (some c)).toFinset.card = stated fragments c

/-- Every speaker has a fragment that resembles its voice more than any other. -/
def EachResembled (fragments : List (Fragment K)) (a : Assignment) : Prop :=
  ∀ c ∈ speakers fragments.length a, ∃ i ∈ List.range fragments.length, Resembles sqrt fragments a i c

instance (fragments : List (Fragment K)) (a : Assignment) :
    Decidable (EachResembled sqrt fragments a) :=
  inferInstanceAs (Decidable (∀ c ∈ speakers fragments.length a, _))

theorem emptied_eq_empty_iff {fragments : List (Fragment K)} {a : Assignment} :
    emptied sqrt fragments a = ∅ ↔ EachResembled sqrt fragments a := by
  rw [emptied, Finset.filter_eq_empty_iff]
  refine forall₂_congr fun c _ => ?_
  push Not
  simp only [List.mem_range, voiced_eq_iff]

theorem toFinset_map_range (m : ℕ) (a : Assignment) :
    ((List.range m).map a).toFinset = speakers m a := by
  ext c
  simp [speakers]

theorem lastPoint_spec {fragments : List (Fragment K)} {t : ℕ} {P : List (List ℕ)}
    (h : lastPoint sqrt fragments t = some P) :
    P ∈ points sqrt fragments ∧ people fragments P = t := by
  have hmem := List.mem_of_find?_eq_some h
  have ht := List.find?_some h
  exact ⟨List.mem_reverse.mp hmem, of_decide_eq_true ht⟩

theorem lastPoint_isSome {fragments : List (Fragment K)} {t : ℕ} {P : List (List ℕ)}
    (hmem : P ∈ points sqrt fragments) (ht : people fragments P = t) :
    ∃ Q, lastPoint sqrt fragments t = some Q := by
  rw [← Option.isSome_iff_exists, lastPoint, List.find?_isSome]
  exact ⟨P, List.mem_reverse.mpr hmem, decide_eq_true ht⟩

theorem embedded_ne_nil_of_mem_points {fragments : List (Fragment K)} {P : List (List ℕ)}
    (h : P ∈ points sqrt fragments) : embedded fragments ≠ [] := by
  intro hnil
  simp [points, hnil] at h

/-- The speakers that come back are the ones that stand, less the ones that are emptied. -/
theorem card_clusterFragments {fragments : List (Fragment K)} {c : ℤ} (hc : 1 ≤ c)
    {P : List (List ℕ)} (h : lastPoint sqrt fragments (stated fragments c) = some P) :
    (clusterFragments sqrt fragments (some c)).toFinset.card +
      (emptied sqrt fragments
        (foldSlightSpeakers sqrt fragments (placedAt fragments P))).card =
      standing fragments (placedAt fragments P) := by
  have hne := embedded_ne_nil_of_mem_points sqrt (lastPoint_spec sqrt h).1
  have hempty : (embedded fragments).isEmpty = false := by simpa using hne
  simp only [clusterFragments, hempty, Bool.false_eq_true, if_false]
  rw [replay_cut sqrt hc h, toFinset_map_range, card_speakers_refine, ← placedAt,
    card_speakers_voiced, card_speakers_fold]

/-- Where placing keeps the people, as many come back as were stated, less the ones emptied. -/
theorem card_of_keepsPeople {fragments : List (Fragment K)} {c : ℤ} (hc : 1 ≤ c)
    {P : List (List ℕ)} (h : lastPoint sqrt fragments (stated fragments c) = some P)
    (hkeeps : KeepsPeople fragments P) :
    (clusterFragments sqrt fragments (some c)).toFinset.card +
      (emptied sqrt fragments
        (foldSlightSpeakers sqrt fragments (placedAt fragments P))).card =
      stated fragments c := by
  obtain ⟨hmem, ht⟩ := lastPoint_spec sqrt h
  have hne := embedded_ne_nil_of_mem_points sqrt hmem
  have hlength := hkeeps.surviving_length (partition_of_mem_points sqrt hmem) hne
  have hpos : 0 < stated fragments c := by
    have := List.length_pos_of_ne_nil hne
    rw [stated]
    omega
  have hsurviving : ¬(surviving fragments (placedAt fragments P)).isEmpty := by
    rw [List.isEmpty_iff_length_eq_zero]
    omega
  rw [card_clusterFragments sqrt hc h, standing, if_neg hsurviving, hlength, ht]

/-- Two people and the long stretches between them. -/
def threeVoices : List (Fragment ℚ) :=
  [⟨[⟨0, 10000⟩], some [1, 0, 0], 10000⟩, ⟨[⟨10000, 20000⟩], some [0, 1, 0], 10000⟩,
    ⟨[⟨20000, 30000⟩], none, 10000⟩, ⟨[⟨30000, 40000⟩], some [4 / 5, 3 / 5, 0], 10000⟩]

/-- Two people, a third voice of two seconds, and two seconds beside it without a voice. -/
def overheard : List (Fragment ℚ) :=
  [⟨[⟨0, 10000⟩], some [1, 0, 0], 10000⟩, ⟨[⟨10000, 20000⟩], some [3 / 5, 4 / 5, 0], 10000⟩,
    ⟨[⟨20000, 22000⟩], some [0, 0, 1], 2000⟩, ⟨[⟨22000, 24000⟩], none, 2000⟩]

/-- Where everything with speech was embedded, no more speakers come back than were stated, and
fewer only for the ones that the voice pass empties. -/
theorem card_of_silent {fragments : List (Fragment K)} {c : ℤ} (hc : 1 ≤ c)
    (silent : ∀ i < fragments.length, i ∉ embedded fragments → speechAt fragments i = 0)
    {P : List (List ℕ)} (h : lastPoint sqrt fragments (stated fragments c) = some P) :
    (clusterFragments sqrt fragments (some c)).toFinset.card +
      (emptied sqrt fragments
        (foldSlightSpeakers sqrt fragments (placedAt fragments P))).card =
      stated fragments c := by
  have hmem := (lastPoint_spec sqrt h).1
  exact card_of_keepsPeople sqrt hc h (keepsPeople_of_silent (partition_of_mem_points sqrt hmem)
    (embedded_ne_nil_of_mem_points sqrt hmem) silent)

-- Two people with one voice: on a tie the voice pass takes the lower index.
example : clusterFragments Rat.sqrt
    [⟨[⟨0, 5000⟩], some [1, 0], 5000⟩, ⟨[⟨5000, 10000⟩], some [1, 0], 5000⟩] (some 2) = [0, 0] := by
  decide +kernel

end Stated

end ScribeLocal.Asr
