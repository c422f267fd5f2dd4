import ScribeLocal.Asr.Cluster

/-!
# The merge sequence and its partitions

The loop counts people from running totals, and the cut is replayed from the pairs alone.
Both describe the same partitions of the embedded fragments.
-/
namespace ScribeLocal.Asr

variable {K : Type*}

def clusterSpeech (fragments : List (Fragment K)) (members : List ℕ) : ℤ :=
  (members.map (speechAt fragments)).sum

/-- How many clusters of a partition are people-sized. -/
def people (fragments : List (Fragment K)) (clusters : List (List ℕ)) : ℕ :=
  clusters.countP fun members =>
    substantial (embeddedSpeech fragments) (clusterSpeech fragments members)

@[simp] theorem clusterSpeech_nil (fragments : List (Fragment K)) :
    clusterSpeech fragments [] = 0 := rfl

@[simp] theorem clusterSpeech_append (fragments : List (Fragment K)) (xs ys : List ℕ) :
    clusterSpeech fragments (xs ++ ys) = clusterSpeech fragments xs + clusterSpeech fragments ys := by
  simp [clusterSpeech]

/-! ## Replays -/

/-- Every embedded fragment is in one cluster, and only live clusters have members. -/
structure Replay.Sound (n : ℕ) (embedded : List ℕ) (r : Replay) : Prop where
  nodup : ∀ i, (r.members i).Nodup
  nonempty : ∀ i < n, r.alive i → r.members i ≠ []
  inside : ∀ i, ∀ f ∈ r.members i, f ∈ embedded ∧ i < n ∧ r.alive i
  apart : ∀ i k f, f ∈ r.members i → f ∈ r.members k → i = k
  cover : ∀ f ∈ embedded, ∃ i, f ∈ r.members i

theorem Replay.start_sound {e : List ℕ} (he : e.Nodup) : (Replay.start e).Sound e.length e where
  nodup i := by
    cases h : e[i]? <;> simp [start, h]
  nonempty i hi _ := by
    simp [start, List.getElem?_eq_getElem hi]
  inside i f hf := by
    simp only [start, Option.mem_toList] at hf
    have hi : i < e.length := (List.getElem?_eq_some_iff.mp hf).1
    exact ⟨List.mem_of_getElem? hf, hi, rfl⟩
  apart i k f hi hk := by
    simp only [start, Option.mem_toList] at hi hk
    have hlt : i < e.length := (List.getElem?_eq_some_iff.mp hi).1
    exact (List.getElem?_inj hlt he).mp (hi.trans hk.symm)
  cover f hf := by
    obtain ⟨i, hi, rfl⟩ := List.mem_iff_getElem.mp hf
    exact ⟨i, by simp [start, List.getElem?_eq_getElem hi]⟩

/-- Where a fragment is after one cluster absorbs another. -/
theorem Replay.mem_absorb {r : Replay} {i j k f : ℕ} (hij : i ≠ j) :
    f ∈ (r.absorb (i, j)).members k ↔
      k ≠ j ∧ (f ∈ r.members k ∨ k = i ∧ f ∈ r.members j) := by
  by_cases hki : k = i
  · subst hki
    simp [absorb, hij]
  · by_cases hkj : k = j
    · subst hkj
      simp [absorb, hki]
    · simp [absorb, hki, hkj]

theorem Replay.Sound.absorb {n : ℕ} {e : List ℕ} {r : Replay} {i j : ℕ} (h : r.Sound n e)
    (hij : i ≠ j) (hi : i < n) (alive : r.alive i) : (r.absorb (i, j)).Sound n e where
  nodup k := by
    by_cases hki : k = i
    · subst hki
      have hdis : (r.members k).Disjoint (r.members j) :=
        fun f hk hj => hij (h.apart k j f hk hj)
      simpa [Replay.absorb] using (h.nodup k).append (h.nodup j) hdis
    · by_cases hkj : k = j
      · subst hkj
        simp [Replay.absorb, hki]
      · simpa [Replay.absorb, hki, hkj] using h.nodup k
  nonempty k hk hlive := by
    have hkj : k ≠ j := by
      rintro rfl
      simp [Replay.absorb] at hlive
    have hmem : r.members k ≠ [] := h.nonempty k hk (by simpa [Replay.absorb, hkj] using hlive)
    by_cases hki : k = i
    · subst hki
      simp [Replay.absorb, hmem]
    · simpa [Replay.absorb, hki, hkj] using hmem
  inside k f hf := by
    obtain ⟨hkj, own | ⟨rfl, absorbed⟩⟩ := (Replay.mem_absorb hij).mp hf
    · obtain ⟨he, hk, hlive⟩ := h.inside k f own
      exact ⟨he, hk, by simpa [Replay.absorb, hkj] using hlive⟩
    · exact ⟨(h.inside j f absorbed).1, hi, by simpa [Replay.absorb, hkj] using alive⟩
  apart k l f hk hl := by
    obtain ⟨hkj, inK | ⟨hki, inK⟩⟩ := (Replay.mem_absorb hij).mp hk <;>
      obtain ⟨hlj, inL | ⟨hli, inL⟩⟩ := (Replay.mem_absorb hij).mp hl
    · exact h.apart k l f inK inL
    · exact absurd (h.apart k j f inK inL) hkj
    · exact absurd (h.apart l j f inL inK) hlj
    · rw [hki, hli]
  cover f hf := by
    obtain ⟨k, hk⟩ := h.cover f hf
    by_cases hkj : k = j
    · subst hkj
      exact ⟨i, (Replay.mem_absorb hij).mpr ⟨hij, .inr ⟨rfl, hk⟩⟩⟩
    · exact ⟨k, (Replay.mem_absorb hij).mpr ⟨hkj, .inl hk⟩⟩

/-- A partition of the embedded fragments into clusters that all have members. -/
structure Partition (embedded : List ℕ) (clusters : List (List ℕ)) : Prop where
  nonempty : ∀ c ∈ clusters, c ≠ []
  nodup : clusters.flatten.Nodup
  mem : ∀ f, f ∈ clusters.flatten ↔ f ∈ embedded

theorem Replay.Sound.partition {n : ℕ} {e : List ℕ} {r : Replay} (h : r.Sound n e) :
    Partition e (r.clusters n) where
  nonempty c hc := by
    simp only [clusters, List.mem_map, List.mem_filter, List.mem_range] at hc
    obtain ⟨i, ⟨hi, hlive⟩, rfl⟩ := hc
    exact h.nonempty i hi hlive
  nodup := by
    rw [List.nodup_flatten]
    constructor
    · intro c hc
      simp only [clusters, List.mem_map] at hc
      obtain ⟨i, -, rfl⟩ := hc
      exact h.nodup i
    · rw [clusters, List.pairwise_map]
      have hrange : ((List.range n).filter r.alive).Nodup := List.nodup_range.filter _
      exact hrange.imp fun {i k} hik f hi hk => hik (h.apart i k f hi hk)
  mem f := by
    simp only [clusters, List.mem_flatten, List.mem_map, List.mem_filter, List.mem_range]
    constructor
    · rintro ⟨c, ⟨i, -, rfl⟩, hf⟩
      exact (h.inside i f hf).1
    · intro hf
      obtain ⟨i, hi⟩ := h.cover f hf
      exact ⟨r.members i, ⟨i, (h.inside i f hi).2, rfl⟩, hi⟩

/-! ## The loop -/

/-- The clusters after the merges of `history`. -/
def replayed (fragments : List (Fragment K)) (history : List (Merge K)) : Replay :=
  (history.map Merge.pair).foldl Replay.absorb (Replay.start (embedded fragments))

theorem replay_eq (fragments : List (Fragment K)) (history : List (Merge K)) (k : ℕ) :
    replay (embedded fragments).length history k (embedded fragments) =
      (replayed fragments (history.take k)).clusters (embedded fragments).length := rfl

theorem replayed_concat (fragments : List (Fragment K)) (history : List (Merge K)) (m : Merge K) :
    replayed fragments (history ++ [m]) = (replayed fragments history).absorb m.pair := by
  simp [replayed]

theorem embedded_nodup (fragments : List (Fragment K)) : (embedded fragments).Nodup :=
  List.nodup_range.filter _

/-- The tables of the loop agree with the replay of its own history. -/
structure Merging.Follows (fragments : List (Fragment K)) (s : Merging K) : Prop where
  alive : s.alive = (replayed fragments s.history).alive
  speech : ∀ i, s.alive i → s.speech i =
    clusterSpeech fragments ((replayed fragments s.history).members i)
  sound : ∀ k, (replayed fragments (s.history.take k)).Sound (embedded fragments).length
    (embedded fragments)
  counts : s.substantial = (List.range (s.history.length + 1)).map fun k =>
    people fragments (replay (embedded fragments).length s.history k (embedded fragments))

/-- Counting over the tables is counting over the clusters. -/
theorem countSubstantial_eq (fragments : List (Fragment K)) (n : ℕ) (r : Replay)
    (speech : ℕ → ℤ) (h : ∀ i, r.alive i → speech i = clusterSpeech fragments (r.members i)) :
    countSubstantial n (embeddedSpeech fragments) r.alive speech =
      people fragments (r.clusters n) := by
  rw [people, Replay.clusters, List.countP_map, List.countP_filter, countSubstantial]
  apply List.countP_congr
  intro i _
  by_cases hlive : r.alive i
  · simp [hlive, h i hlive]
  · simp [hlive]

variable [Field K] [LinearOrder K] (sqrt : K → K)

theorem Merging.start_follows (fragments : List (Fragment K)) :
    (Merging.start sqrt fragments).Follows fragments where
  alive := rfl
  speech i _ := by
    show (embedded fragments)[i]?.elim 0 (speechAt fragments) =
      clusterSpeech fragments (embedded fragments)[i]?.toList
    cases (embedded fragments)[i]? <;> simp [clusterSpeech]
  sound k := by
    rw [show (Merging.start sqrt fragments).history = [] from rfl, List.take_nil]
    exact Replay.start_sound (embedded_nodup fragments)
  counts := by
    have hcount := countSubstantial_eq fragments (embedded fragments).length
      (Replay.start (embedded fragments))
      (fun i => (embedded fragments)[i]?.elim 0 (speechAt fragments)) (by
        intro i _
        cases h : (embedded fragments)[i]? <;> simp [Replay.start, clusterSpeech, h])
    exact congrArg (fun c => [c]) hcount

omit [Field K] in
theorem Merging.best_spec {n : ℕ} {s : Merging K} {p : ℕ × ℕ} (h : s.best n = some p) :
    p.1 < p.2 ∧ p.2 < n ∧ s.alive p.1 ∧ s.alive p.2 := by
  have hmem := List.argmax_mem h
  simp only [List.mem_filter, List.mem_flatMap, List.mem_map, List.mem_range, List.mem_range'_1,
    Bool.and_eq_true] at hmem
  obtain ⟨⟨i, hi, j, hj, rfl⟩, halive⟩ := hmem
  exact ⟨by dsimp only; omega, by dsimp only; omega, halive⟩

theorem Merging.Follows.join {fragments : List (Fragment K)} {s : Merging K} {p : ℕ × ℕ}
    (h : s.Follows fragments) (live : ℕ) (hp : s.best (embedded fragments).length = some p) :
    (s.join (embedded fragments).length (embeddedSpeech fragments) live p).Follows fragments := by
  obtain ⟨i, j⟩ := p
  obtain ⟨hij, hj, hi, hlive⟩ := Merging.best_spec hp
  dsimp only at hij hj hi hlive
  have hsound := h.sound s.history.length
  rw [List.take_length] at hsound
  have hlive' : (replayed fragments s.history).alive i := by rwa [← h.alive]
  have hspeech : ∀ k, ((replayed fragments s.history).absorb (i, j)).alive k →
      Function.update s.speech i (s.speech i + s.speech j) k =
        clusterSpeech fragments (((replayed fragments s.history).absorb (i, j)).members k) := by
    intro k hk
    have hkj : k ≠ j := by
      rintro rfl
      simp [Replay.absorb] at hk
    by_cases hki : k = i
    · subst hki
      simp [Replay.absorb, h.speech k hi, h.speech j hlive]
    · have hk : s.alive k := by
        rw [h.alive]
        simpa [Replay.absorb, hkj] using hk
      simp [Replay.absorb, hki, hkj, h.speech k hk]
  have halive : Function.update s.alive j false =
      ((replayed fragments s.history).absorb (i, j)).alive := by
    rw [h.alive]
    rfl
  have hreplayed := replayed_concat fragments s.history ⟨live, s.sim i j, (i, j)⟩
  constructor
  · show Function.update s.alive j false = (replayed fragments (s.history ++ [_])).alive
    rw [hreplayed, halive]
  · intro k hk
    show Function.update s.speech i (s.speech i + s.speech j) k =
      clusterSpeech fragments ((replayed fragments (s.history ++ [_])).members k)
    rw [hreplayed]
    exact hspeech k (by rwa [← halive])
  · intro k
    show (replayed fragments ((s.history ++ [_]).take k)).Sound _ _
    by_cases hk : k ≤ s.history.length
    · rw [List.take_append_of_le_length hk]
      exact h.sound k
    · rw [List.take_of_length_le (by simp; omega), hreplayed]
      exact hsound.absorb hij.ne (hij.trans hj) hlive'
  · show s.substantial ++ [countSubstantial _ _ (Function.update s.alive j false) _] =
      (List.range ((s.history ++ [_]).length + 1)).map _
    rw [List.length_append, List.length_singleton, List.range_succ, List.map_append, h.counts]
    congr 1
    · apply List.map_congr_left
      intro k hk
      have hk : k ≤ s.history.length := by simpa using hk
      rw [replay_eq, replay_eq]
      show _ = people fragments ((replayed fragments ((s.history ++ [_]).take k)).clusters _)
      rw [List.take_append_of_le_length hk]
    · rw [halive, countSubstantial_eq fragments _ _ _ hspeech, List.map_singleton, replay_eq]
      show _ = [people fragments ((replayed fragments ((s.history ++ [_]).take _)).clusters _)]
      rw [List.take_of_length_le (by simp), hreplayed]

theorem Merging.Follows.run {fragments : List (Fragment K)} {s : Merging K}
    (h : s.Follows fragments) (live : ℕ) :
    (Merging.run (embedded fragments).length (embeddedSpeech fragments) live s).Follows
      fragments := by
  fun_induction Merging.run _ _ live s with
  | case1 live s p hp ih => exact ih (h.join (live + 2) hp)
  | case2 live s hp => exact h
  | case3 live s hlast => exact h

theorem merging_follows (fragments : List (Fragment K)) :
    (merging sqrt fragments).Follows fragments :=
  (Merging.start_follows sqrt fragments).run _

/-! ## The point that is cut at -/

/-- The partitions of the merge sequence, before any merge and after each. There are none when
nothing is embedded: nothing is merged then. -/
def points (fragments : List (Fragment K)) : List (List (List ℕ)) :=
  if (embedded fragments).isEmpty then []
  else (List.range ((merging sqrt fragments).history.length + 1)).map fun k =>
    replay (embedded fragments).length (merging sqrt fragments).history k (embedded fragments)

/-- The last point with `t` people. -/
def lastPoint (fragments : List (Fragment K)) (t : ℕ) : Option (List (List ℕ)) :=
  (points sqrt fragments).reverse.find? fun P => people fragments P = t

theorem partition_of_mem_points {fragments : List (Fragment K)} {P : List (List ℕ)}
    (h : P ∈ points sqrt fragments) : Partition (embedded fragments) P := by
  rw [points] at h
  split at h
  · simp at h
  · obtain ⟨k, -, rfl⟩ := List.mem_map.mp h
    rw [replay_eq]
    exact ((merging_follows sqrt fragments).sound k).partition

theorem target_stated {c : ℤ} (hc : 1 ≤ c) (n : ℕ) : target n (some c) = some (min c.toNat n) := by
  simp [target, Option.filter, hc]

/-- A stated count keeps the merges that lead to the last point with that many people. -/
theorem replay_cut {fragments : List (Fragment K)} {c : ℤ} (hc : 1 ≤ c) {P : List (List ℕ)}
    (h : lastPoint sqrt fragments (min c.toNat (embedded fragments).length) = some P) :
    replay (embedded fragments).length (merging sqrt fragments).history
      (cut sqrt fragments (some c)) (embedded fragments) = P := by
  have hcounts := (merging_follows sqrt fragments).counts
  simp only [cut, target_stated hc]
  generalize min c.toNat (embedded fragments).length = t at h ⊢
  rw [lastPoint, points] at h
  split at h
  · simp at h
  · rw [← List.map_reverse, List.find?_map, Option.map_eq_some_iff] at h
    obtain ⟨k, hk, rfl⟩ := h
    have hlength : (merging sqrt fragments).substantial.length =
        (merging sqrt fragments).history.length + 1 := by
      rw [hcounts, List.length_map, List.length_range]
    have hfind : ((List.range ((merging sqrt fragments).history.length + 1)).reverse.find? fun k =>
        (merging sqrt fragments).substantial[k]? == some t) = some k := by
      rw [← hk]
      apply List.find?_congr
      intro x hx
      rw [List.mem_reverse, List.mem_range] at hx
      rw [hcounts, List.getElem?_map, List.getElem?_range hx]
      rfl
    rw [hlength, hfind]
    rfl

end ScribeLocal.Asr
