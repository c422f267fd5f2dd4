import ScribeLocal.Asr.ShuffledVoices

/-!
# Speakers and the order of the fragments

The windows of a recording may arrive in any order. Three steps after the cut read the order: the
placing loop reads what it placed, folding falls back on the lowest index, and an empty embedding
starts a centroid anew. Where none of them decides, the speakers are the same in every order.
-/
namespace ScribeLocal.Asr
open Finset

variable {K : Type*} [Field K] [LinearOrder K] (sqrt : K → K)

/-! ## Embeddings of one length -/

/-- Before the first merge no two pairs of fragments are equally alike. -/
theorem Merging.Distinct.pairSim {fragments : List (Fragment K)}
    (h : (Merging.start sqrt fragments).Distinct (embedded fragments).length) {f g k l : ℕ}
    (hf : f ∈ embedded fragments) (hg : g ∈ embedded fragments) (hk : k ∈ embedded fragments)
    (hl : l ∈ embedded fragments) (hfg : f ≠ g) (hkl : k ≠ l)
    (heq : pairSim sqrt fragments f g = Asr.pairSim sqrt fragments k l) :
    f = k ∧ g = l ∨ f = l ∧ g = k := by
  have hordered : ∀ {f g}, f ∈ embedded fragments → g ∈ embedded fragments → f ≠ g →
      ∃ i j, ∃ hj : j < (embedded fragments).length, ∃ hij : i < j,
        Asr.pairSim sqrt fragments f g = (Merging.start sqrt fragments).sim i j ∧
        ((embedded fragments)[i] = f ∧ (embedded fragments)[j] = g ∨
          (embedded fragments)[i] = g ∧ (embedded fragments)[j] = f) := by
    intro f g hf hg hfg
    obtain ⟨i, hi, rfl⟩ := List.mem_iff_getElem.mp hf
    obtain ⟨j, hj, rfl⟩ := List.mem_iff_getElem.mp hg
    have hij : i ≠ j := by
      rintro rfl
      exact hfg rfl
    obtain hlt | hgt := Nat.lt_or_gt_of_ne hij
    · exact ⟨i, j, hj, hlt, (similarity_eq sqrt hi hj).symm, .inl ⟨rfl, rfl⟩⟩
    · exact ⟨j, i, hi, hgt, (pairSim_comm sqrt _ _ _).trans (similarity_eq sqrt hj hi).symm,
        .inr ⟨rfl, rfl⟩⟩
  obtain ⟨i, j, hj, hij, hsim, hfg⟩ := hordered hf hg hfg
  obtain ⟨i', j', hj', hij', hsim', hkl⟩ := hordered hk hl hkl
  obtain ⟨rfl, rfl⟩ := Prod.mk.inj (h (i, j) (mem_livePairs.mpr ⟨hij, hj, rfl, rfl⟩) (i', j')
    (mem_livePairs.mpr ⟨hij', hj', rfl, rfl⟩) (by rw [← hsim, ← hsim', heq]))
  obtain ⟨h1, h2⟩ | ⟨h1, h2⟩ := hfg <;> obtain ⟨h3, h4⟩ | ⟨h3, h4⟩ := hkl
  · exact .inl ⟨h1.symm.trans h3, h2.symm.trans h4⟩
  · exact .inr ⟨h1.symm.trans h3, h2.symm.trans h4⟩
  · exact .inr ⟨h2.symm.trans h4, h1.symm.trans h3⟩
  · exact .inl ⟨h2.symm.trans h4, h1.symm.trans h3⟩

theorem pairSim_of_length_ne {fragments : List (Fragment K)} {f g : ℕ} {x y : List K}
    (hx : usableAt fragments f = some x) (hy : usableAt fragments g = some y)
    (h : x.length ≠ y.length) : pairSim sqrt fragments f g = 0 := by
  have hzero : cosine sqrt x y = 0 := if_pos (.inr h)
  rw [pairSim, hx, hy]
  dsimp only
  rw [hzero, ite_self]

/-- Without a tie, three fragments or more have embeddings of one length. -/
theorem length_eq_of_distinct {fragments : List (Fragment K)}
    (h : (Merging.start sqrt fragments).Distinct (embedded fragments).length)
    (hthree : 3 ≤ (embedded fragments).length) {f g : ℕ} {x y : List K}
    (hx : usableAt fragments f = some x) (hy : usableAt fragments g = some y) :
    x.length = y.length := by
  by_contra hne
  have hf := usableAt_eq_some hx
  have hg := usableAt_eq_some hy
  have hfg : f ≠ g := by
    rintro rfl
    rw [hx, Option.some.injEq] at hy
    exact hne (congrArg List.length hy)
  obtain ⟨k, hk, hkfg⟩ : ∃ k ∈ (embedded fragments).toFinset, k ∉ ({f, g} : Finset ℕ) := by
    by_contra hall
    push Not at hall
    have hcard := card_le_card fun k hk => hall k hk
    rw [List.toFinset_card_of_nodup (embedded_nodup fragments)] at hcard
    have htwo : #({f, g} : Finset ℕ) ≤ 2 := card_le_two
    omega
  rw [List.mem_toFinset] at hk
  rw [mem_insert, mem_singleton, not_or] at hkfg
  obtain ⟨z, hz⟩ := Option.isSome_iff_exists.mp (mem_embedded.mp hk).2
  have hzero := pairSim_of_length_ne sqrt hx hy hne
  by_cases hzx : z.length = x.length
  · have hother := pairSim_of_length_ne sqrt hz hy (hzx ▸ hne)
    obtain ⟨hkf, -⟩ | ⟨hkg, -⟩ := h.pairSim sqrt hk hg hf hg hkfg.2 hfg (hother.trans hzero.symm)
    · exact hkfg.1 hkf
    · exact hkfg.2 hkg
  · have hother := pairSim_of_length_ne sqrt hz hx hzx
    obtain ⟨hkf, -⟩ | ⟨hkg, -⟩ := h.pairSim sqrt hk hf hf hg hkfg.1 hfg (hother.trans hzero.symm)
    · exact hkfg.1 hkf
    · exact hkfg.2 hkg

/-- With two voices or more, the embeddings of one speaker have one length. -/
theorem voicesFit_of_distinct {fragments : List (Fragment K)} {a : Assignment}
    (h : (Merging.start sqrt fragments).Distinct (embedded fragments).length)
    (htwo : 2 ≤ (voices sqrt fragments a).length) : VoicesFit fragments a := by
  intro i _ j _ hij x hx y hy
  by_cases heq : i = j
  · subst heq
    rw [Option.mem_def] at hx hy
    rw [hx, Option.some.injEq] at hy
    exact congrArg List.length hy
  · by_cases hthree : 3 ≤ (embedded fragments).length
    · exact length_eq_of_distinct sqrt h hthree hx hy
    -- The two are all there is, and they share a speaker.
    · exfalso
      have hsub : ({i, j} : Finset ℕ) ⊆ (embedded fragments).toFinset := by
        intro k hk
        rw [mem_insert, mem_singleton] at hk
        rw [List.mem_toFinset]
        obtain rfl | rfl := hk
        · exact usableAt_eq_some hx
        · exact usableAt_eq_some hy
      have hall : ({i, j} : Finset ℕ) = (embedded fragments).toFinset := by
        apply eq_of_subset_of_card_le hsub
        rw [List.toFinset_card_of_nodup (embedded_nodup fragments), card_pair heq]
        omega
      have hlabel : ∀ k ∈ embedded fragments, a k = a i := by
        intro k hk
        rw [← List.mem_toFinset, ← hall, mem_insert, mem_singleton] at hk
        obtain rfl | rfl := hk
        · rfl
        · exact hij.symm
      have hsingle : (voices sqrt fragments a).length < 2 := by
        rw [voices_length_lt_two]
        intro k hk l hl
        rw [hlabel k hk, hlabel l hl]
      omega

/-- Where a standing speaker may be chosen, no empty embedding counts towards its voice. -/
def NoEmptySum (fragments : List (Fragment K)) (a : Assignment) : Prop :=
  2 ≤ (surviving fragments a).length →
    (∃ i < fragments.length, a i ∉ surviving fragments a) →
    ∀ i < fragments.length, a i ∈ surviving fragments a →
      ∀ x ∈ fragments[i]?.bind Fragment.embedding, x ≠ []

theorem embeddingsFit_of_distinct {fragments : List (Fragment K)} {a : Assignment}
    (h : (Merging.start sqrt fragments).Distinct (embedded fragments).length)
    (hembedded : ∀ i < fragments.length, ∃ e ∈ embedded fragments, a e = a i)
    (hempty : NoEmptySum fragments a) (htwo : 2 ≤ (surviving fragments a).length)
    (hslight : ∃ i < fragments.length, a i ∉ surviving fragments a) {c : ℤ}
    (hc : c ∈ surviving fragments a) : EmbeddingsFit fragments a c := by
  have hthree : 3 ≤ (embedded fragments).length := by
    obtain ⟨k, hk, hnot⟩ := hslight
    have hsub : insert (a k) (surviving fragments a).toFinset ⊆
        (embedded fragments).toFinset.image a := by
      intro d hd
      have hd : d ∈ speakers fragments.length a := by
        obtain rfl | hd := mem_insert.mp hd
        · exact mem_speakers.mpr ⟨k, hk, rfl⟩
        · exact mem_surviving (List.mem_toFinset.mp hd)
      obtain ⟨i, hi, rfl⟩ := mem_speakers.mp hd
      obtain ⟨e, he, heq⟩ := hembedded i hi
      exact mem_image.mpr ⟨e, List.mem_toFinset.mpr he, heq⟩
    have hcard := (card_le_card hsub).trans card_image_le
    rw [card_insert_of_notMem fun hmem => hnot (List.mem_toFinset.mp hmem),
      List.toFinset_card_of_nodup (surviving_nodup fragments a),
      List.toFinset_card_of_nodup (embedded_nodup fragments)] at hcard
    omega
  have husable : ∀ i < fragments.length, a i = c →
      ∀ x ∈ fragments[i]?.bind Fragment.embedding, usableAt fragments i = some x := by
    intro i hi hic x hx
    have hne := hempty htwo hslight i hi (by rwa [hic]) x hx
    rw [List.getElem?_eq_getElem hi, Option.bind_some, Option.mem_def] at hx
    rw [usableAt, List.getElem?_eq_getElem hi, Option.bind_some, Fragment.usable, hx]
    simpa [Option.filter] using hne
  intro i hi j hj hic hjc x hx y hy
  exact length_eq_of_distinct sqrt h hthree (husable i hi hic x hx) (husable j hj hjc y hy)

/-! ## The speakers in every order -/

/-- The clusters at the cut. -/
def cutClusters (fragments : List (Fragment K)) (expected : Option ℤ) : List (List ℕ) :=
  replay (embedded fragments).length (merging sqrt fragments).history
    (cut sqrt fragments expected) (embedded fragments)

theorem folded_eq (fragments : List (Fragment K)) (expected : Option ℤ) :
    folded sqrt fragments expected = foldSlightSpeakers sqrt fragments
      (placedAt fragments (cutClusters sqrt fragments expected)) := rfl

theorem partition_cutClusters (fragments : List (Fragment K)) (expected : Option ℤ) :
    Partition (embedded fragments) (cutClusters sqrt fragments expected) :=
  ((merging_follows sqrt fragments).sound (cut sqrt fragments expected)).partition

/-- No two of the similarities and no two of the time distances that are compared are equal. -/
structure NoTies (fragments : List (Fragment K)) (expected : Option ℤ) : Prop where
  merges : ∀ t < (embedded fragments).length,
    (Merging.after (embedded fragments).length (embeddedSpeech fragments)
      (Merging.start sqrt fragments) t).Distinct (embedded fragments).length
  gaps : GapsDiffer fragments
  centroids : CentroidsDiffer sqrt fragments
    (placedAt fragments (cutClusters sqrt fragments expected))
  voices : VoicesDiffer sqrt fragments (folded sqrt fragments expected)

/-- None of the steps that read the order decides anything. -/
structure OrderFree (fragments : List (Fragment K)) (expected : Option ℤ) : Prop where
  placing : GapsAgree fragments (assign (cutClusters sqrt fragments expected))
  folding : FoldsByVoice fragments (placedAt fragments (cutClusters sqrt fragments expected))
  summing : NoEmptySum fragments (placedAt fragments (cutClusters sqrt fragments expected))

variable {σ : Equiv.Perm ℕ} {fragments fragments' : List (Fragment K)} {expected : Option ℤ}
  [CharZero K]

/-- The clusters at the cut are the same in both orders. -/
theorem Shuffled.cutClusters (hσ : Shuffled σ fragments fragments')
    (hties : NoTies sqrt fragments expected) (hne : embedded fragments ≠ []) :
    ∃ r r' : Replay, r.Sound (embedded fragments).length (embedded fragments) ∧
      r'.Sound (embedded fragments).length (embedded fragments') ∧
      r.Mirrors σ (embedded fragments).length r' ∧
      Asr.cutClusters sqrt fragments expected = r.clusters (embedded fragments).length ∧
      Asr.cutClusters sqrt fragments' expected = r'.clusters (embedded fragments).length := by
  have hmirrored := merging_mirrored sqrt hσ hne hties.merges
  have hcut := hσ.cut sqrt hne hties.merges expected
  have hr' := (merging_follows sqrt fragments').sound (Asr.cut sqrt fragments expected)
  rw [hσ.embedded_length] at hr'
  refine ⟨_, _, (merging_follows sqrt fragments).sound (Asr.cut sqrt fragments expected), hr',
    hmirrored.replays _, rfl, ?_⟩
  rw [Asr.cutClusters, hcut, hσ.embedded_length]
  rfl

theorem Shuffled.assign (hσ : Shuffled σ fragments fragments')
    (hties : NoTies sqrt fragments expected) (hne : embedded fragments ≠ []) {e : ℕ}
    (he : e ∈ embedded fragments') (f : ℕ) :
    assign (Asr.cutClusters sqrt fragments' expected) e =
        assign (Asr.cutClusters sqrt fragments' expected) f ↔
      assign (Asr.cutClusters sqrt fragments expected) (σ e) =
        assign (Asr.cutClusters sqrt fragments expected) (σ f) := by
  obtain ⟨r, r', hr, hr', hmirrors, hclusters, hclusters'⟩ := hσ.cutClusters sqrt hties hne
  rw [hclusters, hclusters']
  exact hmirrors.assign hr hr' (fun f => hσ.mem_embedded) he

omit [CharZero K] in
theorem NoTies.start (hties : NoTies sqrt fragments expected) (hne : embedded fragments ≠ []) :
    (Merging.start sqrt fragments).Distinct (embedded fragments).length :=
  hties.merges 0 (List.length_pos_of_ne_nil hne)

theorem Shuffled.placed_alike (hσ : Shuffled σ fragments fragments')
    (hties : NoTies sqrt fragments expected)
    (hagree : GapsAgree fragments (Asr.assign (Asr.cutClusters sqrt fragments expected)))
    (hne : embedded fragments ≠ []) :
    Alike σ fragments.length (Asr.placedAt fragments (Asr.cutClusters sqrt fragments expected))
      (Asr.placedAt fragments' (Asr.cutClusters sqrt fragments' expected)) :=
  hσ.placedAt (partition_cutClusters sqrt fragments expected)
    (partition_cutClusters sqrt fragments' expected) (fun _ he => hσ.assign sqrt hties hne he) hne
    (hσ.embedded_ne_nil hne) hties.gaps hagree

omit [CharZero K] in
theorem exists_embedded_placed (hties : NoTies sqrt fragments expected)
    (hagree : GapsAgree fragments (assign (cutClusters sqrt fragments expected)))
    (hne : embedded fragments ≠ []) {i : ℕ} (hi : i < fragments.length) :
    ∃ e ∈ embedded fragments, placedAt fragments (cutClusters sqrt fragments expected) e =
      placedAt fragments (cutClusters sqrt fragments expected) i := by
  have hpartition := partition_cutClusters sqrt fragments expected
  exact (Settled.place hpartition hne hties.gaps hagree).exists_embedded hpartition hne hi

theorem Shuffled.labels (hσ : Shuffled σ fragments fragments')
    (hties : NoTies sqrt fragments expected) (hfree : OrderFree sqrt fragments expected)
    (hne : embedded fragments ≠ []) :
    Alike σ fragments.length (refineAssignment sqrt fragments 1 (folded sqrt fragments expected))
      (refineAssignment sqrt fragments' 1 (folded sqrt fragments' expected)) := by
  have hplaced := hσ.placed_alike sqrt hties hfree.placing hne
  have hembedded := fun i (hi : i < fragments.length) =>
    exists_embedded_placed sqrt hties hfree.placing hne hi
  have hstart := hties.start sqrt hne
  have hfolded := hσ.fold sqrt hplaced hfree.folding hties.centroids
    (fun htwo hslight c c' hc hrenamed => hσ.foldCentroid sqrt hplaced
      (embeddingsFit_of_distinct sqrt hstart hembedded hfree.summing htwo hslight hc) hrenamed)
    hembedded
  exact hσ.refine sqrt hfolded (voicesFit_of_distinct sqrt hstart) hties.voices

/-- The fragments in the order that `σ` gives. -/
def shuffle (fragments : List (Fragment K)) (σ : Equiv.Perm (Fin fragments.length)) :
    List (Fragment K) :=
  List.ofFn fun i => fragments.get (σ i)

theorem extendDomain_apply {n : ℕ} (σ : Equiv.Perm (Fin n)) (i : Fin n) :
    σ.extendDomain Fin.equivSubtype i = (σ i : ℕ) :=
  σ.extendDomain_apply_image Fin.equivSubtype i

omit [Field K] [LinearOrder K] [CharZero K] in
theorem shuffled_shuffle (fragments : List (Fragment K)) (σ : Equiv.Perm (Fin fragments.length)) :
    Shuffled (σ.extendDomain Fin.equivSubtype) fragments (shuffle fragments σ) := by
  have hinside : ∀ i (hi : i < fragments.length),
      σ.extendDomain Fin.equivSubtype i = σ ⟨i, hi⟩ := fun i hi => extendDomain_apply σ ⟨i, hi⟩
  have houtside : ∀ i, ¬i < fragments.length → σ.extendDomain Fin.equivSubtype i = i := fun i hi =>
    σ.extendDomain_apply_not_subtype Fin.equivSubtype hi
  constructor
  · rw [shuffle, List.length_ofFn]
  · intro i
    by_cases hi : i < fragments.length
    · rw [hinside i hi]
      exact iff_of_true (σ ⟨i, hi⟩).isLt hi
    · rw [houtside i hi]
  · intro i
    rw [shuffle, List.getElem?_ofFn]
    by_cases hi : i < fragments.length
    · rw [dif_pos hi, hinside i hi, List.getElem?_eq_getElem (σ ⟨i, hi⟩).isLt]
      rfl
    · rw [dif_neg hi, houtside i hi, List.getElem?_eq_none (not_lt.mp hi)]

/-- The same two fragments share a speaker in every order. -/
def SameInEveryOrder (fragments : List (Fragment K)) (expected : Option ℤ) : Prop :=
  ∀ (σ : Equiv.Perm (Fin fragments.length)) (i j : Fin fragments.length),
    labelAt (clusterFragments sqrt (shuffle fragments σ) expected) i =
        labelAt (clusterFragments sqrt (shuffle fragments σ) expected) j ↔
      labelAt (clusterFragments sqrt fragments expected) (σ i) =
        labelAt (clusterFragments sqrt fragments expected) (σ j)

omit [CharZero K] in
theorem labelAt_clusterFragments (hne : embedded fragments ≠ []) {i : ℕ}
    (hi : i < fragments.length) : labelAt (clusterFragments sqrt fragments expected) i =
      refineAssignment sqrt fragments 1 (folded sqrt fragments expected) i := by
  have hlabels : clusterFragments sqrt fragments expected = (List.range fragments.length).map
      (refineAssignment sqrt fragments 1 (folded sqrt fragments expected)) :=
    if_neg fun hempty => hne (List.isEmpty_iff.mp hempty)
  rw [hlabels]
  simp [labelAt, hi]

omit [CharZero K] in
theorem labelAt_of_none (hnone : embedded fragments = []) {i : ℕ} (hi : i < fragments.length) :
    labelAt (clusterFragments sqrt fragments expected) i = 0 := by
  have hlabels : clusterFragments sqrt fragments expected = List.replicate fragments.length 0 :=
    if_pos (by rw [hnone]; rfl)
  rw [hlabels]
  simp [labelAt, hi]

theorem same_of_orderFree (hties : NoTies sqrt fragments expected)
    (hfree : OrderFree sqrt fragments expected) : SameInEveryOrder sqrt fragments expected := by
  intro σ i j
  have hσ := shuffled_shuffle fragments σ
  have hlt : ∀ i : Fin fragments.length, (i : ℕ) < (shuffle fragments σ).length := by
    intro i
    rw [hσ.length]
    exact i.isLt
  by_cases hne : embedded fragments = []
  · have hne' : embedded (shuffle fragments σ) = [] := by
      rw [← List.length_eq_zero_iff, hσ.embedded_length, hne, List.length_nil]
    rw [labelAt_of_none sqrt hne' (hlt i), labelAt_of_none sqrt hne' (hlt j),
      labelAt_of_none sqrt hne (σ i).isLt, labelAt_of_none sqrt hne (σ j).isLt]
  · have hne' := hσ.embedded_ne_nil hne
    rw [labelAt_clusterFragments sqrt hne' (hlt i), labelAt_clusterFragments sqrt hne' (hlt j),
      labelAt_clusterFragments sqrt hne (σ i).isLt, labelAt_clusterFragments sqrt hne (σ j).isLt,
      ← extendDomain_apply σ i, ← extendDomain_apply σ j]
    exact hσ.labels sqrt hties hfree hne i i.isLt j j.isLt

end ScribeLocal.Asr
