import ScribeLocal.Asr.StatedCount

/-!
# Speaker indices without a gap

A speaker index is also a count: `diarize` reports the largest index and one more as the number
of speakers. Placing and folding leave no index out, and every pass but one that ends early
renumbers.
-/
namespace ScribeLocal.Asr

variable {K : Type*}

/-- The speakers in use are `0`, `1` and so on, none left out. -/
def Gapless (s : Finset ℤ) : Prop := ∃ k : ℕ, ∀ c, c ∈ s ↔ 0 ≤ c ∧ c < k

/-- The number of speakers that `diarize` reports. -/
def numSpeakers (labels : List ℤ) : ℕ := labels.max?.elim 0 fun m => m.toNat + 1

theorem gapless_iff {s : Finset ℤ} :
    Gapless s ↔ (∀ c ∈ s, 0 ≤ c) ∧ ∀ c ∈ s, ∀ d, 0 ≤ d → d < c → d ∈ s := by
  constructor
  · rintro ⟨k, hk⟩
    constructor
    · intro c hc
      exact ((hk c).mp hc).1
    · intro c hc d hd hdc
      exact (hk d).mpr ⟨hd, hdc.trans ((hk c).mp hc).2⟩
  · rintro ⟨hpos, hdown⟩
    by_cases hs : s.Nonempty
    · have hmem := s.max'_mem hs
      have hmax := hpos _ hmem
      refine ⟨(s.max' hs).toNat + 1, fun c => ?_⟩
      rw [Nat.cast_add, Int.toNat_of_nonneg hmax, Nat.cast_one, Int.lt_add_one_iff]
      constructor
      · intro hc
        exact ⟨hpos c hc, s.le_max' c hc⟩
      · rintro ⟨hc, hle⟩
        obtain heq | hlt := hle.eq_or_lt
        · rwa [heq]
        · exact hdown _ hmem c hc hlt
    · rw [Finset.not_nonempty_iff_eq_empty] at hs
      exact ⟨0, fun c => by simp [hs]⟩

theorem Gapless.card {s : Finset ℤ} {k : ℕ} (h : ∀ c, c ∈ s ↔ 0 ≤ c ∧ c < k) : s.card = k := by
  have hs : s = (Finset.range k).image fun (i : ℕ) => (i : ℤ) := by
    ext c
    rw [h, Finset.mem_image]
    constructor
    · rintro ⟨hc, hk⟩
      exact ⟨c.toNat, Finset.mem_range.mpr (by omega), by omega⟩
    · rintro ⟨i, hi, rfl⟩
      have hi := Finset.mem_range.mp hi
      omega
  rw [hs, Finset.card_image_of_injective _ Nat.cast_injective, Finset.card_range]

/-- Without a gap, the largest index and one more is the number of speakers. -/
theorem numSpeakers_of_gapless {labels : List ℤ} (h : Gapless labels.toFinset) :
    numSpeakers labels = labels.toFinset.card := by
  obtain ⟨k, hk⟩ := h
  rw [Gapless.card hk, numSpeakers]
  simp only [List.mem_toFinset] at hk
  cases hmax : labels.max? with
  | none =>
    rw [List.max?_eq_none_iff] at hmax
    subst hmax
    have hzero := hk 0
    simp only [List.not_mem_nil, false_iff] at hzero
    simp only [Option.elim_none]
    omega
  | some m =>
    obtain ⟨hmem, hle⟩ := List.max?_eq_some_iff.mp hmax
    obtain ⟨hpos, hlt⟩ := (hk m).mp hmem
    have hlast := hle (k - 1) ((hk (k - 1)).mpr (by omega))
    simp only [Option.elim_some]
    omega

/-! ## Before the passes -/

theorem gapless_renumber (m : ℕ) (a : Assignment) : Gapless (speakers m (renumber m a)) := by
  refine ⟨(seen m a).length, fun c => ?_⟩
  rw [mem_speakers]
  constructor
  · rintro ⟨i, hi, rfl⟩
    have hmem : a i ∈ seen m a := mem_seen.mpr (mem_speakers.mpr ⟨i, hi, rfl⟩)
    have hlt := List.idxOf_lt_length_of_mem hmem
    exact ⟨Int.natCast_nonneg _, Int.ofNat_lt.mpr hlt⟩
  · rintro ⟨hc, hlt⟩
    have hlt : c.toNat < (seen m a).length := by omega
    obtain ⟨i, hi, heq⟩ := mem_speakers.mp (mem_seen.mp (List.getElem_mem hlt))
    refine ⟨i, hi, ?_⟩
    rw [renumber, heq, (seen_nodup m a).idxOf_getElem, Int.toNat_of_nonneg hc]

theorem gapless_placedAt {fragments : List (Fragment K)} {clusters : List (List ℕ)}
    (h : Partition (embedded fragments) clusters) (hne : embedded fragments ≠ []) :
    Gapless (speakers fragments.length (placedAt fragments clusters)) := by
  refine ⟨clusters.length, fun c => ?_⟩
  rw [placedAt, speakers_placed h hne, Finset.mem_image]
  constructor
  · rintro ⟨i, hi, rfl⟩
    have hi := Finset.mem_range.mp hi
    omega
  · rintro ⟨hc, hlt⟩
    exact ⟨c.toNat, Finset.mem_range.mpr (by omega), by omega⟩

variable [Field K] [LinearOrder K] (sqrt : K → K)

theorem gapless_fold {fragments : List (Fragment K)} {a : Assignment}
    (h : Gapless (speakers fragments.length a)) :
    Gapless (speakers fragments.length (foldSlightSpeakers sqrt fragments a)) := by
  rw [foldSlightSpeakers]
  split
  · exact h
  · exact gapless_renumber _ _

/-! ## The passes -/

theorem iterate_of_single {fragments : List (Fragment K)} {a : Assignment}
    (h : (voices sqrt fragments a).length < 2) (k : ℕ) : (revoiced sqrt fragments)^[k] a = a :=
  Function.iterate_fixed (revoiced_of_single sqrt h) k

/-- The test whether a pass moved anything. -/
theorem all_eq_iff {fragments : List (Fragment K)} {a : Assignment} :
    ((List.range fragments.length).all fun i => revoiced sqrt fragments a i == a i) ↔
      revoiced sqrt fragments a = a := by
  simp only [List.all_eq_true, List.mem_range, beq_iff_eq]
  constructor
  · intro h
    funext i
    by_cases hi : i < fragments.length
    · exact h i hi
    · exact revoiced_of_notMem sqrt fun hmem => hi (mem_embedded.mp hmem).1
  · intro h i _
    rw [h]

/-- Where one voice is left before the last pass, the speakers come back as they are. -/
theorem refine_of_single {fragments : List (Fragment K)} (p : ℕ) {a : Assignment}
    (h : (voices sqrt fragments ((revoiced sqrt fragments)^[p] a)).length < 2) :
    refineAssignment sqrt fragments (p + 1) a = (revoiced sqrt fragments)^[p] a := by
  induction p generalizing a with
  | zero => exact if_pos h
  | succ p ih =>
    rw [refineAssignment]
    by_cases hvoices : (voices sqrt fragments a).length < 2
    · rw [if_pos hvoices, iterate_of_single sqrt hvoices]
    · rw [if_neg hvoices]
      have hmoved : ¬revoiced sqrt fragments a = a := by
        intro hfixed
        rw [Function.iterate_fixed hfixed] at h
        exact hvoices h
      rw [Function.iterate_succ_apply] at h ⊢
      dsimp only
      rw [if_neg (by rwa [all_eq_iff]), ih h]

/-- Where two voices are left, they come back renumbered. -/
theorem refine_of_several {fragments : List (Fragment K)} (p : ℕ) {a : Assignment}
    (h : ¬(voices sqrt fragments ((revoiced sqrt fragments)^[p] a)).length < 2) :
    ∃ b, refineAssignment sqrt fragments (p + 1) a = renumber fragments.length b := by
  induction p generalizing a with
  | zero =>
    rw [Function.iterate_zero_apply] at h
    rw [refineAssignment, if_neg h]
    dsimp only
    split
    · exact ⟨_, rfl⟩
    · exact ⟨_, rfl⟩
  | succ p ih =>
    have hvoices : ¬(voices sqrt fragments a).length < 2 := by
      intro hlt
      rw [iterate_of_single sqrt hlt] at h
      exact h hlt
    rw [refineAssignment, if_neg hvoices]
    dsimp only
    split
    · exact ⟨_, rfl⟩
    · rw [Function.iterate_succ_apply] at h
      exact ih h

/-! ## The labels that come back -/

/-- `cluster_fragments` with the hook that sets how many times fragments are moved. -/
def clusterFragmentsPasses (fragments : List (Fragment K)) (expected : Option ℤ) (passes : ℕ) :
    List ℤ :=
  if (embedded fragments).isEmpty then List.replicate fragments.length 0
  else
    let clusters := replay (embedded fragments).length (merging sqrt fragments).history
      (cut sqrt fragments expected) (embedded fragments)
    let placed := place fragments (assign clusters)
    (List.range fragments.length).map
      (refineAssignment sqrt fragments passes (foldSlightSpeakers sqrt fragments placed))

theorem clusterFragments_eq (fragments : List (Fragment K)) (expected : Option ℤ) :
    clusterFragments sqrt fragments expected = clusterFragmentsPasses sqrt fragments expected 1 :=
  rfl

/-- The speakers before fragments are moved between voices. -/
def folded (fragments : List (Fragment K)) (expected : Option ℤ) : Assignment :=
  foldSlightSpeakers sqrt fragments (placedAt fragments
    (replay (embedded fragments).length (merging sqrt fragments).history
      (cut sqrt fragments expected) (embedded fragments)))

theorem gapless_folded {fragments : List (Fragment K)} (hne : embedded fragments ≠ [])
    (expected : Option ℤ) :
    Gapless (speakers fragments.length (folded sqrt fragments expected)) := by
  apply gapless_fold
  apply gapless_placedAt _ hne
  rw [replay_eq]
  exact ((merging_follows sqrt fragments).sound _).partition

/-- The speakers of what has no voice: no pass moves it. -/
def unmoved (fragments : List (Fragment K)) (a : Assignment) : Finset ℤ :=
  ((Finset.range fragments.length).filter fun i => i ∉ embedded fragments).image a

theorem iterate_of_notMem {fragments : List (Fragment K)} {i : ℕ} (hi : i ∉ embedded fragments)
    (k : ℕ) (a : Assignment) : (revoiced sqrt fragments)^[k] a i = a i := by
  induction k generalizing a with
  | zero => rfl
  | succ k ih => rw [Function.iterate_succ_apply, ih, revoiced_of_notMem sqrt hi]

theorem iterate_mem {fragments : List (Fragment K)} {i : ℕ} (hi : i < fragments.length)
    (k : ℕ) (a : Assignment) :
    (revoiced sqrt fragments)^[k] a i ∈ speakers fragments.length a := by
  induction k generalizing i with
  | zero => exact mem_speakers.mpr ⟨i, hi, rfl⟩
  | succ k ih =>
    rw [Function.iterate_succ_apply']
    obtain ⟨j, hj, heq⟩ := mem_speakers.mp (revoiced_mem sqrt hi)
    rw [← heq]
    exact ih hj

omit [Field K] [LinearOrder K] in
/-- The speakers once all embedded fragments share the speaker of `i`. -/
theorem speakers_of_single {fragments : List (Fragment K)} {a b : Assignment} {i : ℕ}
    (hi : i ∈ embedded fragments) (hsame : ∀ j ∈ embedded fragments, b j = b i)
    (hunmoved : ∀ j, j ∉ embedded fragments → b j = a j) :
    speakers fragments.length b = insert (b i) (unmoved fragments a) := by
  ext c
  rw [mem_speakers, Finset.mem_insert, unmoved, Finset.mem_image]
  simp only [Finset.mem_filter, Finset.mem_range]
  constructor
  · rintro ⟨j, hj, rfl⟩
    by_cases hmem : j ∈ embedded fragments
    · exact .inl (hsame j hmem)
    · exact .inr ⟨j, ⟨hj, hmem⟩, (hunmoved j hmem).symm⟩
  · rintro (rfl | ⟨j, ⟨hj, hmem⟩, rfl⟩)
    · exact ⟨i, (mem_embedded.mp hi).1, rfl⟩
    · exact ⟨j, hj, hunmoved j hmem⟩

/-- Where the passes before the last leave one voice, its speaker and those of the fragments
without a voice leave no index out. -/
def LeavesNoneOut (fragments : List (Fragment K)) (a : Assignment) (passes : ℕ) : Prop :=
  let last := (revoiced sqrt fragments)^[passes - 1] a
  ∀ i ∈ embedded fragments, (∀ j ∈ embedded fragments, last j = last i) →
    ∀ c ∈ insert (last i) (unmoved fragments a), ∀ d, 0 ≤ d → d < c →
      d ∈ insert (last i) (unmoved fragments a)

/-- One label for each fragment, the labels `0` to `k - 1` each used, and so the reported number
of speakers the number of speakers there are. -/
def Contiguous (fragments : List (Fragment K)) (labels : List ℤ) : Prop :=
  labels.length = fragments.length ∧ Gapless labels.toFinset ∧
    numSpeakers labels = labels.toFinset.card

/-- Refining keeps the indices contiguous exactly where its early return does no harm. -/
theorem gapless_refine_iff {fragments : List (Fragment K)} {a : Assignment} (passes : ℕ)
    (hne : embedded fragments ≠ []) (h : Gapless (speakers fragments.length a)) :
    Gapless (speakers fragments.length (refineAssignment sqrt fragments passes a)) ↔
      LeavesNoneOut sqrt fragments a passes := by
  cases passes with
  | zero =>
    apply iff_of_true (gapless_renumber _ _)
    intro i hi hsame
    have hspeakers := speakers_of_single (a := a) hi hsame fun j hj => rfl
    rw [← hspeakers]
    exact (gapless_iff.mp h).2
  | succ p =>
    rw [LeavesNoneOut]
    by_cases hsingle : (voices sqrt fragments ((revoiced sqrt fragments)^[p] a)).length < 2
    · rw [refine_of_single sqrt p hsingle, gapless_iff, Nat.add_sub_cancel]
      have hsame := (voices_length_lt_two sqrt).mp hsingle
      have hspeakers : ∀ i ∈ embedded fragments,
          speakers fragments.length ((revoiced sqrt fragments)^[p] a) =
            insert ((revoiced sqrt fragments)^[p] a i) (unmoved fragments a) := fun i hi =>
        speakers_of_single hi (fun j hj => hsame j hj i hi) fun j hj => iterate_of_notMem sqrt hj p a
      constructor
      · rintro ⟨-, hdown⟩ i hi -
        rwa [← hspeakers i hi]
      · intro hnone
        constructor
        · intro c hc
          obtain ⟨j, hj, rfl⟩ := mem_speakers.mp hc
          exact (gapless_iff.mp h).1 _ (iterate_mem sqrt hj p a)
        · obtain ⟨i, hi⟩ := List.exists_mem_of_ne_nil _ hne
          rw [hspeakers i hi]
          exact hnone i hi fun j hj => hsame j hj i hi
    · obtain ⟨b, hb⟩ := refine_of_several sqrt p hsingle
      rw [hb]
      apply iff_of_true (gapless_renumber _ _)
      intro i hi hsame
      apply absurd _ hsingle
      rw [voices_length_lt_two]
      intro j hj k hk
      exact (hsame j hj).trans (hsame k hk).symm

/-- The labels are contiguous exactly where moving fragments does not end on a single voice that
stands beside a gap. -/
theorem contiguous_iff (fragments : List (Fragment K)) (expected : Option ℤ) (passes : ℕ) :
    Contiguous fragments (clusterFragmentsPasses sqrt fragments expected passes) ↔
      LeavesNoneOut sqrt fragments (folded sqrt fragments expected) passes := by
  by_cases hempty : (embedded fragments).isEmpty
  · have hlabels : clusterFragmentsPasses sqrt fragments expected passes =
        List.replicate fragments.length 0 := if_pos hempty
    have hgapless : Gapless (List.replicate fragments.length (0 : ℤ)).toFinset := by
      rw [gapless_iff]
      simp only [List.mem_toFinset, List.mem_replicate]
      constructor
      · rintro c ⟨-, rfl⟩
        rfl
      · rintro c ⟨-, rfl⟩ d hd hlt
        omega
    rw [hlabels]
    apply iff_of_true ⟨List.length_replicate, hgapless, numSpeakers_of_gapless hgapless⟩
    intro i hi
    rw [List.isEmpty_iff.mp hempty] at hi
    simp at hi
  · have hlabels : clusterFragmentsPasses sqrt fragments expected passes =
        (List.range fragments.length).map
          (refineAssignment sqrt fragments passes (folded sqrt fragments expected)) :=
      if_neg hempty
    have hne : embedded fragments ≠ [] := fun hnil => hempty (List.isEmpty_iff.mpr hnil)
    rw [← gapless_refine_iff sqrt passes hne (gapless_folded sqrt hne expected),
      ← toFinset_map_range, hlabels]
    constructor
    · exact fun h => h.2.1
    · intro h
      exact ⟨by simp, h, numSpeakers_of_gapless h⟩

/-- Three stretches of one voice, and one without a voice beside the last. -/
def oneVoice : List (Fragment ℚ) :=
  [⟨[⟨0, 5000⟩], some [1, 0], 5000⟩, ⟨[⟨5000, 10000⟩], some [1, 0], 5000⟩,
    ⟨[⟨10000, 15000⟩], some [1, 0], 5000⟩, ⟨[⟨15000, 20000⟩], none, 5000⟩]

theorem not_contiguous_oneVoice :
    clusterFragmentsPasses Rat.sqrt oneVoice (some 3) 2 = [0, 0, 0, 2] ∧
      ¬Contiguous oneVoice (clusterFragmentsPasses Rat.sqrt oneVoice (some 3) 2) := by
  have hlabels : clusterFragmentsPasses Rat.sqrt oneVoice (some 3) 2 = [0, 0, 0, 2] := by
    decide +kernel
  refine ⟨hlabels, ?_⟩
  rw [hlabels]
  rintro ⟨-, -, hcount⟩
  revert hcount
  decide

end ScribeLocal.Asr
