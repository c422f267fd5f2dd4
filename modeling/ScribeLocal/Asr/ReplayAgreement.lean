import ScribeLocal.Asr.InferredCount

/-!
# Replays and the state of the loop

The partition that is replayed from `k` merges is the one that the loop had when it had made
`k` merges, though the loop keeps only tables about it.
-/
namespace ScribeLocal.Asr

variable {K : Type*} [Field K] [LinearOrder K] (sqrt : K → K)

/-- The loop over the fragments when it has turned `k` times. -/
def mergingAfter (fragments : List (Fragment K)) (k : ℕ) : Merging K :=
  Merging.after (embedded fragments).length (embeddedSpeech fragments)
    (Merging.start sqrt fragments) k

/-- The partition is that of the clusters that are alive, and the array holds their speech. -/
def Held (fragments : List (Fragment K)) (s : Merging K) (clusters : List (List ℕ)) : Prop :=
  ∃ members : ℕ → List ℕ,
    clusters = ((List.range (embedded fragments).length).filter s.alive).map members ∧
      ∀ i < (embedded fragments).length, s.alive i →
        s.speech i = clusterSpeech fragments (members i)

variable {sqrt} {fragments : List (Fragment K)} {s : Merging K} {n k : ℕ} {total : ℤ}

/-- A turn only adds to the history. -/
theorem Merging.history_after (d : ℕ) : ∃ later,
    (Merging.after n total s (k + d)).history = (Merging.after n total s k).history ++ later := by
  induction d with
  | zero => exact ⟨[], (List.append_nil _).symm⟩
  | succ d ih =>
    obtain ⟨later, heq⟩ := ih
    rw [← Nat.add_assoc, Merging.after]
    cases hp : (Merging.after n total s (k + d)).best n with
    | none => exact ⟨later, heq⟩
    | some p =>
      have hjoin : ∃ m, ((Merging.after n total s (k + d)).join n total (n - (k + d)) p).history =
          (Merging.after n total s (k + d)).history ++ [m] := ⟨_, rfl⟩
      obtain ⟨m, hm⟩ := hjoin
      exact ⟨later ++ [m], by rw [hm, heq, List.append_assoc]⟩

theorem merging_of_embedded_eq_nil (h : embedded fragments = []) :
    merging sqrt fragments = Merging.start sqrt fragments := by
  rw [merging, h]
  rfl

theorem exists_counted : ∃ live, (merging sqrt fragments).Counted fragments live := by
  by_cases hne : embedded fragments = []
  · rw [merging_of_embedded_eq_nil hne]
    exact ⟨_, Merging.start_counted sqrt fragments⟩
  · exact ⟨1, merging_counted sqrt hne⟩

theorem mergingAfter_counted (hk : k ≤ (merging sqrt fragments).history.length) :
    (mergingAfter sqrt fragments k).Counted fragments ((embedded fragments).length - k) := by
  by_cases hne : embedded fragments = []
  · rw [merging_of_embedded_eq_nil hne] at hk
    obtain rfl : k = 0 := Nat.le_zero.mp hk
    exact Merging.start_counted sqrt fragments
  · have hlength := (merging_counted sqrt hne).length
    exact Merging.Counted.after sqrt fragments (by omega)

/-- The first `k` merges are those that the loop has made when it has turned `k` times. -/
theorem history_mergingAfter (hk : k ≤ (merging sqrt fragments).history.length) :
    (mergingAfter sqrt fragments k).history = (merging sqrt fragments).history.take k := by
  by_cases hne : embedded fragments = []
  · rw [merging_of_embedded_eq_nil hne] at hk ⊢
    obtain rfl : k = 0 := Nat.le_zero.mp hk
    rfl
  · have hlength := (merging_counted sqrt hne).length
    have hturns := (mergingAfter_counted hk).length
    obtain ⟨d, hd⟩ : ∃ d, (embedded fragments).length - 1 = k + d :=
      ⟨(embedded fragments).length - 1 - k, by omega⟩
    have hlater := @Merging.history_after _ _ _ (Merging.start sqrt fragments)
      (embedded fragments).length k (embeddedSpeech fragments) d
    obtain ⟨later, heq⟩ := hlater
    rw [merging_eq_after sqrt hne, hd, heq, List.take_left']
    · rfl
    · change (mergingAfter sqrt fragments k).history.length = k
      omega

omit [Field K] [LinearOrder K] in
theorem Merging.Follows.held (h : s.Follows fragments) :
    Held fragments s ((replayed fragments s.history).clusters (embedded fragments).length) :=
  ⟨(replayed fragments s.history).members, by rw [Replay.clusters, h.alive], fun i _ => h.speech i⟩

end ScribeLocal.Asr
