import ScribeLocal.Asr.FirstPlaced
import ScribeLocal.Asr.OrderIndependence

/-!
# Where the order of the fragments shows

Of two fragments without an embedding beside each other, the one that is listed first may take the
other with it, and the first embedded fragment gives its speaker the number that folding falls back
on. Where every speaker keeps a fragment, no later pass hides what was decided.
-/
namespace ScribeLocal.Asr
open Finset

variable {K : Type*} [Field K] [LinearOrder K] (sqrt : K → K)

/-- Every cluster holds enough speech without what is placed beside it. -/
def StandAlone (fragments : List (Fragment K)) (clusters : List (List ℕ)) : Prop :=
  ∀ members ∈ clusters, substantial (allSpeech fragments) (clusterSpeech fragments members)

/-- The voice pass leaves every speaker an embedded fragment. Before it nothing is folded, or
folding is the first that may read the order. -/
structure Lasting (fragments : List (Fragment K)) (expected : Option ℤ) : Prop where
  heard : embedded fragments ≠ []
  keeps : ∀ e ∈ embedded fragments, ∃ f ∈ embedded fragments,
    revoiced sqrt fragments (folded sqrt fragments expected) f = folded sqrt fragments expected e
  before : StandAlone fragments (cutClusters sqrt fragments expected) ∨
    GapsAgree fragments (assign (cutClusters sqrt fragments expected)) ∧
      NoEmptySum fragments (placedAt fragments (cutClusters sqrt fragments expected))

variable {σ : Equiv.Perm ℕ} {fragments fragments' : List (Fragment K)} {expected : Option ℤ}

/-! ## Orders of the fragments -/

/-- Any two fragments come first in some order. -/
theorem exists_perm_pair {n : ℕ} {i j u v : Fin n} (hij : i ≠ j) (huv : u ≠ v) :
    ∃ σ : Equiv.Perm (Fin n), σ i = u ∧ σ j = v := by
  have hj : Equiv.swap i u j ≠ u := by
    intro heq
    exact hij ((Equiv.swap i u).injective (heq.trans (Equiv.swap_apply_left i u).symm)).symm
  refine ⟨(Equiv.swap i u).trans (Equiv.swap (Equiv.swap i u j) v), ?_, ?_⟩
  · rw [Equiv.trans_apply, Equiv.swap_apply_left, Equiv.swap_apply_of_ne_of_ne hj.symm huv]
  · rw [Equiv.trans_apply, Equiv.swap_apply_left]

theorem labelAt_eq_iff (hne : embedded fragments ≠ []) {i j : ℕ} (hi : i < fragments.length)
    (hj : j < fragments.length) :
    labelAt (clusterFragments sqrt fragments expected) i =
        labelAt (clusterFragments sqrt fragments expected) j ↔
      revoiced sqrt fragments (folded sqrt fragments expected) i =
        revoiced sqrt fragments (folded sqrt fragments expected) j := by
  rw [labelAt_clusterFragments sqrt hne hi, labelAt_clusterFragments sqrt hne hj,
    refine_eq_iff sqrt hj]

/-- Where the same embedded fragments are together, the voice pass moves them the same way. -/
theorem Shuffled.revoiced_embedded (hσ : Shuffled σ fragments fragments') {b b' : Assignment}
    (hb : ∀ e ∈ embedded fragments', ∀ f ∈ embedded fragments',
      b' e = b' f ↔ b (σ e) = b (σ f))
    (hfit : VoicesFit fragments b) (hdiffer : VoicesDiffer sqrt fragments b) {e f : ℕ}
    (he : e ∈ embedded fragments') (hf : f ∈ embedded fragments') :
    Asr.revoiced sqrt fragments' b' f = b' e ↔
      Asr.revoiced sqrt fragments b (σ f) = b (σ e) := by
  -- The fragments without an embedding are put with `e` in both orders.
  set d : Assignment := fun i => if i ∈ embedded fragments then b i else b (σ e) with hd
  set d' : Assignment := fun i => if i ∈ embedded fragments' then b' i else b' e with hd'
  have hagree : ∀ i ∈ embedded fragments, d i = b i := fun i hi => if_pos hi
  have hagree' : ∀ i ∈ embedded fragments', d' i = b' i := fun i hi => if_pos hi
  have hread : ∀ i, ∃ k ∈ embedded fragments', d' i = b' k ∧ d (σ i) = b (σ k) := by
    intro i
    by_cases hi : i ∈ embedded fragments'
    · exact ⟨i, hi, hagree' i hi, hagree (σ i) (hσ.mem_embedded.mp hi)⟩
    · exact ⟨e, he, if_neg hi, if_neg fun hmem => hi (hσ.mem_embedded.mpr hmem)⟩
  have halike : Alike σ fragments.length d d' := by
    intro i _ j _
    obtain ⟨k, hk, hk', hkσ⟩ := hread i
    obtain ⟨l, hl, hl', hlσ⟩ := hread j
    rw [hk', hl', hkσ, hlσ]
    exact hb k hk l hl
  have hfit' : VoicesFit fragments d := by
    intro i hi j hj hij x hx y hy
    rw [hagree i (usableAt_eq_some hx), hagree j (usableAt_eq_some hy)] at hij
    exact hfit i hi j hj hij x hx y hy
  have hdiffer' : VoicesDiffer sqrt fragments d := by
    rw [VoicesDiffer, voices_congr sqrt hagree]
    exact hdiffer
  have hlt : ∀ {k}, k ∈ embedded fragments' → k < fragments.length := by
    intro k hk
    rw [← hσ.length]
    exact (Asr.mem_embedded.mp hk).1
  have hiff := halike.renamed_iff (hσ.revoiced sqrt halike hfit' hdiffer' (hlt hf))
    ⟨e, hlt he, rfl, rfl⟩
  rwa [revoiced_congr sqrt hagree' hf, revoiced_congr sqrt hagree (hσ.mem_embedded.mp hf),
    hagree' e he, hagree _ (hσ.mem_embedded.mp he)] at hiff

/-- Before the voice pass the same embedded fragments are together in both orders. -/
def FoldsAlike (σ : Equiv.Perm ℕ) (fragments fragments' : List (Fragment K))
    (expected : Option ℤ) : Prop :=
  ∀ e ∈ embedded fragments', ∀ f ∈ embedded fragments',
    folded sqrt fragments' expected e = folded sqrt fragments' expected f ↔
      folded sqrt fragments expected (σ e) = folded sqrt fragments expected (σ f)

/-- Where the labels are the same in every order, an order that puts a fragment with `e` says where
it belongs. -/
theorem labelAt_of_folded (hties : NoTies sqrt fragments expected)
    (hsame : SameInEveryOrder sqrt fragments expected)
    (htwo : 2 ≤ (voices sqrt fragments (folded sqrt fragments expected)).length)
    {σ : Equiv.Perm (Fin fragments.length)}
    (halike : FoldsAlike sqrt (σ.extendDomain Fin.equivSubtype) fragments (shuffle fragments σ)
      expected) {i e f : Fin fragments.length} (hnot : (σ i : ℕ) ∉ embedded fragments)
    (he : (σ e : ℕ) ∈ embedded fragments) (hf : (f : ℕ) ∈ embedded fragments)
    (hfolded : folded sqrt (shuffle fragments σ) expected i =
      folded sqrt (shuffle fragments σ) expected e)
    (hkept : revoiced sqrt fragments (folded sqrt fragments expected) f =
      folded sqrt fragments expected (σ e)) :
    labelAt (clusterFragments sqrt fragments expected) (σ i) =
      labelAt (clusterFragments sqrt fragments expected) f := by
  have hσ := shuffled_shuffle fragments σ
  have hne : embedded fragments ≠ [] := List.ne_nil_of_mem he
  have hmem : ∀ k : Fin fragments.length, (k : ℕ) ∈ embedded (shuffle fragments σ) ↔
      (σ k : ℕ) ∈ embedded fragments := by
    intro k
    rw [hσ.mem_embedded, extendDomain_apply]
  have hlt : ∀ k : Fin fragments.length, (k : ℕ) < (shuffle fragments σ).length := by
    intro k
    rw [hσ.length]
    exact k.isLt
  have hback : σ (σ.symm f) = f := σ.apply_symm_apply f
  have hkept' := hσ.revoiced_embedded sqrt halike (voicesFit_of_distinct sqrt
    (hties.start sqrt hne) htwo) hties.voices ((hmem e).mpr he)
    ((hmem (σ.symm f)).mpr (by rwa [hback]))
  rw [extendDomain_apply, extendDomain_apply, hback] at hkept'
  rw [← hback, ← hsame σ i (σ.symm f), labelAt_eq_iff sqrt (hσ.embedded_ne_nil hne) (hlt _) (hlt _),
    revoiced_of_notMem sqrt (by rwa [hmem]), hfolded, hkept'.mpr hkept]

/-! ## Nothing is folded -/

omit [Field K] [LinearOrder K] in
/-- What is placed beside a cluster only adds to its speech. -/
theorem surviving_placedAt {clusters : List (List ℕ)} (h : Partition (embedded fragments) clusters)
    (hne : embedded fragments ≠ []) (hstands : StandAlone fragments clusters) {i : ℕ}
    (hi : i < fragments.length) :
    placedAt fragments clusters i ∈ surviving fragments (placedAt fragments clusters) := by
  have hmem : placedAt fragments clusters i ∈ speakers fragments.length
      (placedAt fragments clusters) := mem_speakers.mpr ⟨i, hi, rfl⟩
  refine mem_surviving_iff.mpr ⟨hmem, ?_⟩
  rw [placedAt, speakers_placed h hne, ← placedAt, mem_image] at hmem
  obtain ⟨l, hl, heq⟩ := hmem
  have hl : l < clusters.length := mem_range.mp hl
  have hmembers : clusters[l] ∈ clusters := List.getElem_mem hl
  apply substantial_mono _ (hstands _ hmembers)
  rw [clusterSpeech_eq_sum fragments ((List.nodup_flatten.mp h.nodup).1 _ hmembers), ← heq,
    speechOf_eq_sum]
  apply sum_le_sum_of_subset_of_nonneg
  · intro f hf
    have hf := List.mem_toFinset.mp hf
    have he : f ∈ embedded fragments := (h.mem f).mp (List.mem_flatten.mpr ⟨_, hmembers, hf⟩)
    rw [mem_filter, mem_range, placedAt_embedded h he]
    exact ⟨(mem_embedded.mp he).1, assign_of_mem h (List.getElem?_eq_getElem hl) hf⟩
  · exact fun f _ _ => speechAt_nonneg fragments f

theorem folded_of_stands (hne : embedded fragments ≠ [])
    (hstands : StandAlone fragments (cutClusters sqrt fragments expected)) :
    folded sqrt fragments expected =
      placedAt fragments (cutClusters sqrt fragments expected) := by
  set a := placedAt fragments (cutClusters sqrt fragments expected) with ha
  have hall : (surviving fragments a).length = (seen fragments.length a).length := by
    apply List.length_filter_eq_length_iff.mpr
    intro c hc
    obtain ⟨i, hi, rfl⟩ := mem_speakers.mp (mem_seen.mp hc)
    rw [sum_speechOf]
    exact (mem_surviving_iff.mp
      (surviving_placedAt (partition_cutClusters sqrt fragments expected) hne hstands hi)).2
  rw [folded_eq, ← ha, foldSlightSpeakers]
  simp only [hall, or_true, if_true]

variable [CharZero K]

theorem Shuffled.stands (hσ : Shuffled σ fragments fragments')
    (hties : NoTies sqrt fragments expected) (hne : embedded fragments ≠ [])
    (hstands : StandAlone fragments (Asr.cutClusters sqrt fragments expected)) :
    StandAlone fragments' (Asr.cutClusters sqrt fragments' expected) := by
  obtain ⟨r, r', hr, hr', hmirrors, hclusters, hclusters'⟩ := hσ.cutClusters sqrt hties hne
  rw [StandAlone, hclusters] at hstands
  rw [StandAlone, hclusters']
  simp only [Replay.clusters, List.mem_map, List.mem_filter, List.mem_range] at hstands ⊢
  rintro - ⟨k, ⟨hk, halive⟩, rfl⟩
  obtain ⟨i, hi, hlive, hmatches⟩ := hmirrors.symm hr hr' (fun f => hσ.mem_embedded) hk halive
  rw [hσ.allSpeech, hσ.clusterSpeech hr hr' hmatches]
  exact hstands _ ⟨i, ⟨hi, hlive⟩, rfl⟩


theorem Shuffled.foldsAlike_of_stands (hσ : Shuffled σ fragments fragments')
    (hties : NoTies sqrt fragments expected) (hne : embedded fragments ≠ [])
    (hstands : StandAlone fragments (Asr.cutClusters sqrt fragments expected)) :
    FoldsAlike sqrt σ fragments fragments' expected := by
  have hpartition := partition_cutClusters sqrt fragments expected
  have hpartition' := partition_cutClusters sqrt fragments' expected
  intro e he f hf
  rw [folded_of_stands sqrt hne hstands, folded_of_stands sqrt (hσ.embedded_ne_nil hne)
      (hσ.stands sqrt hties hne hstands),
    placedAt_embedded hpartition' he, placedAt_embedded hpartition' hf,
    placedAt_embedded hpartition (hσ.mem_embedded.mp he),
    placedAt_embedded hpartition (hσ.mem_embedded.mp hf)]
  exact hσ.assign sqrt hties hne he f

section Placing
variable (hties : NoTies sqrt fragments expected)
  (hsame : SameInEveryOrder sqrt fragments expected)
  (htwo : 2 ≤ (voices sqrt fragments (folded sqrt fragments expected)).length)
  (hstands : StandAlone fragments (Asr.cutClusters sqrt fragments expected))

include hties hsame htwo hstands

/-- An order that places a fragment with `e` says where it belongs. -/
theorem labelAt_of_placed {σ : Equiv.Perm (Fin fragments.length)} {i e f : Fin fragments.length}
    (hnot : (σ i : ℕ) ∉ embedded fragments) (he : (σ e : ℕ) ∈ embedded fragments)
    (hf : (f : ℕ) ∈ embedded fragments)
    (hplaced : placedAt (shuffle fragments σ) (cutClusters sqrt (shuffle fragments σ) expected) i =
      assign (cutClusters sqrt (shuffle fragments σ) expected) e)
    (hkept : revoiced sqrt fragments (folded sqrt fragments expected) f =
      folded sqrt fragments expected (σ e)) :
    labelAt (clusterFragments sqrt fragments expected) (σ i) =
      labelAt (clusterFragments sqrt fragments expected) f := by
  have hσ := shuffled_shuffle fragments σ
  have hne : embedded fragments ≠ [] := List.ne_nil_of_mem he
  have he' : (e : ℕ) ∈ embedded (shuffle fragments σ) := by
    rwa [hσ.mem_embedded, extendDomain_apply]
  apply labelAt_of_folded sqrt hties hsame htwo (hσ.foldsAlike_of_stands sqrt hties hne hstands)
    hnot he hf _ hkept
  rw [folded_of_stands sqrt (hσ.embedded_ne_nil hne) (hσ.stands sqrt hties hne hstands), hplaced,
    placedAt_embedded (partition_cutClusters sqrt (shuffle fragments σ) expected) he']

/-- Listed first, a fragment goes to its nearest embedded one. -/
theorem labelAt_nearest {u e f : ℕ} (hu : u < fragments.length) (hnot : u ∉ embedded fragments)
    (he : Nearest fragments u e) (hf : f ∈ embedded fragments)
    (hkept : revoiced sqrt fragments (folded sqrt fragments expected) f =
      folded sqrt fragments expected e) :
    labelAt (clusterFragments sqrt fragments expected) u =
      labelAt (clusterFragments sqrt fragments expected) f := by
  have helt := (mem_embedded.mp he.1).1
  have hflt := (mem_embedded.mp hf).1
  have hpos : 0 < fragments.length := by omega
  set σ := Equiv.swap (⟨0, hpos⟩ : Fin fragments.length) ⟨u, hu⟩
  have hσ := shuffled_shuffle fragments σ
  have hfirst : σ ⟨0, hpos⟩ = ⟨u, hu⟩ := Equiv.swap_apply_left _ _
  have hback : σ (σ.symm ⟨e, helt⟩) = ⟨e, helt⟩ := σ.apply_symm_apply _
  have hzero : σ.extendDomain Fin.equivSubtype 0 = u :=
    (extendDomain_apply σ ⟨0, hpos⟩).trans (congrArg Fin.val hfirst)
  have hnearest : σ.extendDomain Fin.equivSubtype (σ.symm ⟨e, helt⟩) = e := by
    rw [extendDomain_apply, hback]
  have hplaced := placedAt_zero (partition_cutClusters sqrt (shuffle fragments σ) expected)
    (hσ.gapsDiffer hties.gaps) (e := σ.symm ⟨e, helt⟩) (by rwa [hσ.length])
    (by rwa [hσ.mem_embedded, hzero]) (by rwa [hσ.nearest, hzero, hnearest])
  have hlabel := labelAt_of_placed sqrt hties hsame htwo hstands (σ := σ) (i := ⟨0, hpos⟩)
    (e := σ.symm ⟨e, helt⟩) (f := ⟨f, hflt⟩) (by rwa [hfirst]) (by rw [hback]; exact he.1) hf
    hplaced (by rwa [hback])
  rwa [hfirst] at hlabel

/-- Listed after the fragment beside it, it goes where that one goes. -/
theorem labelAt_beside {u v e f : ℕ} (hu : u < fragments.length) (hnot : u ∉ embedded fragments)
    (hv : v < fragments.length) (hbeside : Beside fragments u v) (he : Nearest fragments v e)
    (hf : f ∈ embedded fragments)
    (hkept : revoiced sqrt fragments (folded sqrt fragments expected) f =
      folded sqrt fragments expected e) :
    labelAt (clusterFragments sqrt fragments expected) u =
      labelAt (clusterFragments sqrt fragments expected) f := by
  have helt := (mem_embedded.mp he.1).1
  have hflt := (mem_embedded.mp hf).1
  have huv := hbeside.2.1
  have hlength : 1 < fragments.length := by omega
  obtain ⟨σ, hfirst, hsecond⟩ := exists_perm_pair (i := (⟨0, by omega⟩ : Fin fragments.length))
    (j := ⟨1, hlength⟩) (u := ⟨v, hv⟩) (v := ⟨u, hu⟩) (by simp) (by simpa using huv.symm)
  have hσ := shuffled_shuffle fragments σ
  have hback : σ (σ.symm ⟨e, helt⟩) = ⟨e, helt⟩ := σ.apply_symm_apply _
  have hzero : σ.extendDomain Fin.equivSubtype 0 = v :=
    (extendDomain_apply σ ⟨0, _⟩).trans (congrArg Fin.val hfirst)
  have hone : σ.extendDomain Fin.equivSubtype 1 = u :=
    (extendDomain_apply σ ⟨1, hlength⟩).trans (congrArg Fin.val hsecond)
  have hnearest : σ.extendDomain Fin.equivSubtype (σ.symm ⟨e, helt⟩) = e := by
    rw [extendDomain_apply, hback]
  have hplaced := placedAt_one (partition_cutClusters sqrt (shuffle fragments σ) expected)
    (hσ.gapsDiffer hties.gaps) (f := σ.symm ⟨e, helt⟩) (by rwa [hσ.length])
    (by rwa [hσ.mem_embedded, hone]) (by rwa [hσ.beside, hone, hzero])
    (by rwa [hσ.nearest, hzero, hnearest])
  have hlabel := labelAt_of_placed sqrt hties hsame htwo hstands (σ := σ) (i := ⟨1, hlength⟩)
    (e := σ.symm ⟨e, helt⟩) (f := ⟨f, hflt⟩) (by rwa [hsecond]) (by rw [hback]; exact he.1) hf
    hplaced (by rwa [hback])
  rwa [hsecond] at hlabel

end Placing

theorem gapsAgree_of_same (hties : NoTies sqrt fragments expected)
    (hlasting : Lasting sqrt fragments expected)
    (hstands : StandAlone fragments (cutClusters sqrt fragments expected))
    (hsame : SameInEveryOrder sqrt fragments expected) :
    GapsAgree fragments (assign (cutClusters sqrt fragments expected)) := by
  intro u hu hnot v hv hbeside e he f hf hue hvf
  have hpartition := partition_cutClusters sqrt fragments expected
  rw [← placedAt_embedded hpartition he, ← placedAt_embedded hpartition hf,
    ← folded_of_stands sqrt hlasting.heard hstands]
  by_cases htwo : (voices sqrt fragments (folded sqrt fragments expected)).length < 2
  · exact (voices_length_lt_two sqrt).mp htwo e he f hf
  · obtain ⟨e', he', hkept⟩ := hlasting.keeps e he
    obtain ⟨f', hf', hkept'⟩ := hlasting.keeps f hf
    -- `u` goes to `e` where it is listed first, and to `f` where `v` is.
    have hwith := labelAt_nearest sqrt hties hsame (not_lt.mp htwo) hstands hu hnot hue he' hkept
    have hwith' := labelAt_beside sqrt hties hsame (not_lt.mp htwo) hstands hu hnot hv hbeside hvf
      hf' hkept'
    rw [← hkept, ← hkept']
    exact (labelAt_eq_iff sqrt hlasting.heard (mem_embedded.mp he').1 (mem_embedded.mp hf').1).mp
      (hwith.symm.trans hwith')

/-! ## Folding by number -/

omit [Field K] [LinearOrder K] [CharZero K] in
theorem embedding_of_embedded {e : ℕ} (he : e ∈ embedded fragments) :
    (fragments[e]?.bind Fragment.embedding).isSome := by
  obtain ⟨hlt, husable⟩ := mem_embedded.mp he
  obtain ⟨emb, hemb⟩ := Option.isSome_iff_exists.mp husable
  rw [usableAt, List.getElem?_eq_getElem hlt, Option.bind_some] at hemb
  rw [List.getElem?_eq_getElem hlt, Option.bind_some, usable_eq_some hemb]
  rfl

section Folding
variable (hties : NoTies sqrt fragments expected)
  (hagree : GapsAgree fragments (Asr.assign (Asr.cutClusters sqrt fragments expected)))
  (hempty : NoEmptySum fragments (Asr.placedAt fragments (Asr.cutClusters sqrt fragments expected)))
  (hne : Asr.embedded fragments ≠ [])
  (hstanding : surviving fragments
    (Asr.placedAt fragments (Asr.cutClusters sqrt fragments expected)) ≠ [])

include hties hagree hempty hne hstanding

/-- Embedded fragments are folded by their voices, the same way in both orders. -/
theorem Shuffled.foldsAlike_of_placed (hσ : Shuffled σ fragments fragments') :
    FoldsAlike sqrt σ fragments fragments' expected := by
  have halike := hσ.placed_alike sqrt hties hagree hne
  have hembedded := fun i (hi : i < fragments.length) =>
    exists_embedded_placed sqrt hties hagree hne hi
  have hlt : ∀ {k}, k ∈ embedded fragments' → k < fragments.length := by
    intro k hk
    rw [← hσ.length]
    exact (Asr.mem_embedded.mp hk).1
  have hrenamed : ∀ e ∈ embedded fragments', Renamed σ fragments.length
      (Asr.placedAt fragments (Asr.cutClusters sqrt fragments expected))
      (Asr.placedAt fragments' (Asr.cutClusters sqrt fragments' expected))
      (Asr.foldedTo sqrt fragments
        (Asr.placedAt fragments (Asr.cutClusters sqrt fragments expected)) (σ e))
      (Asr.foldedTo sqrt fragments'
        (Asr.placedAt fragments' (Asr.cutClusters sqrt fragments' expected)) e) := by
    intro e he
    apply hσ.foldedTo sqrt halike hstanding hties.centroids _ hembedded (hlt he)
    · intro _ _
      exact embedding_of_embedded (hσ.mem_embedded.mp he)
    · intro htwo hslight c c' hc hrenamed
      exact hσ.foldCentroid sqrt halike (embeddingsFit_of_distinct sqrt (hties.start sqrt hne)
        hembedded hempty htwo hslight hc) hrenamed
  intro e he f hf
  have hstanding' := fun hnil => hstanding ((hσ.surviving_eq_nil halike).mp hnil)
  rw [folded_eq, folded_eq, fold_eq_iff sqrt hstanding' (Asr.mem_embedded.mp he).1
      (Asr.mem_embedded.mp hf).1,
    fold_eq_iff sqrt hstanding (hσ.lt (Asr.mem_embedded.mp he).1)
      (hσ.lt (Asr.mem_embedded.mp hf).1)]
  exact halike.renamed_iff (hrenamed e he) (hrenamed f hf)

omit hempty in
/-- What is folded without an embedding goes to the speaker of the fragment that comes first. -/
theorem Shuffled.folded_first (hσ : Shuffled σ fragments fragments')
    (hzero : 0 ∈ embedded fragments')
    (hstands : Asr.placedAt fragments (Asr.cutClusters sqrt fragments expected) (σ 0) ∈
      surviving fragments (Asr.placedAt fragments (Asr.cutClusters sqrt fragments expected))) {i : ℕ}
    (hi : i < fragments.length)
    (hslight : Asr.placedAt fragments (Asr.cutClusters sqrt fragments expected) (σ i) ∉
      surviving fragments (Asr.placedAt fragments (Asr.cutClusters sqrt fragments expected)))
    (hnone : fragments[σ i]?.bind Fragment.embedding = none) :
    folded sqrt fragments' expected i = folded sqrt fragments' expected 0 := by
  have halike := hσ.placed_alike sqrt hties hagree hne
  have hpartition' := partition_cutClusters sqrt fragments' expected
  have hpos : 0 < fragments.length := by omega
  have hstanding' := fun hnil => hstanding ((hσ.surviving_eq_nil halike).mp hnil)
  have hlabel : Asr.placedAt fragments' (Asr.cutClusters sqrt fragments' expected) 0 = 0 := by
    rw [placedAt_embedded hpartition' hzero]
    exact assign_zero sqrt _ hzero
  have hstands' := (hσ.mem_surviving halike hpos).mpr hstands
  have hslight' := fun hmem => hslight ((hσ.mem_surviving halike hi).mp hmem)
  rw [hlabel] at hstands'
  rw [folded_eq, fold_eq_iff sqrt hstanding' (by rwa [hσ.length]) (Asr.mem_embedded.mp hzero).1,
    Asr.foldedTo, Asr.foldedTo, if_neg hslight', hσ.get, hnone, Option.bind_none, Option.getD_none,
    surviving_headD (placedAt_nonneg hpartition' (hσ.embedded_ne_nil hne)) hstands', hlabel,
    if_pos hstands']

variable (hsame : SameInEveryOrder sqrt fragments expected)
  (htwo : 2 ≤ (voices sqrt fragments (folded sqrt fragments expected)).length)

include hsame htwo

/-- A slight fragment without an embedding belongs with whoever is listed first. -/
theorem labelAt_slight {i e f : ℕ} (hi : i < fragments.length)
    (hslight : placedAt fragments (cutClusters sqrt fragments expected) i ∉
      surviving fragments (placedAt fragments (cutClusters sqrt fragments expected)))
    (hnone : fragments[i]?.bind Fragment.embedding = none) (he : e ∈ embedded fragments)
    (hstands : placedAt fragments (cutClusters sqrt fragments expected) e ∈
      surviving fragments (placedAt fragments (cutClusters sqrt fragments expected)))
    (hf : f ∈ embedded fragments)
    (hkept : revoiced sqrt fragments (folded sqrt fragments expected) f =
      folded sqrt fragments expected e) :
    labelAt (clusterFragments sqrt fragments expected) i =
      labelAt (clusterFragments sqrt fragments expected) f := by
  have helt := (mem_embedded.mp he).1
  have hflt := (mem_embedded.mp hf).1
  have hpos : 0 < fragments.length := by omega
  have hnot : i ∉ embedded fragments := by
    intro hmem
    have hsome := embedding_of_embedded hmem
    rw [hnone] at hsome
    cases hsome
  set σ := Equiv.swap (⟨0, hpos⟩ : Fin fragments.length) ⟨e, helt⟩
  have hσ := shuffled_shuffle fragments σ
  have hfirst : σ ⟨0, hpos⟩ = ⟨e, helt⟩ := Equiv.swap_apply_left _ _
  have hback : σ (σ.symm ⟨i, hi⟩) = ⟨i, hi⟩ := σ.apply_symm_apply _
  have hzero : σ.extendDomain Fin.equivSubtype 0 = e :=
    (extendDomain_apply σ ⟨0, hpos⟩).trans (congrArg Fin.val hfirst)
  have hmoved : σ.extendDomain Fin.equivSubtype (σ.symm ⟨i, hi⟩) = i := by
    rw [extendDomain_apply, hback]
  have hfolded := hσ.folded_first sqrt hties hagree hne hstanding
    (by rwa [hσ.mem_embedded, hzero]) (by rwa [hzero]) (σ.symm ⟨i, hi⟩).isLt (by rwa [hmoved])
    (by rwa [hmoved])
  have hlabel := labelAt_of_folded sqrt hties hsame htwo
    (hσ.foldsAlike_of_placed sqrt hties hagree hempty hne hstanding) (i := σ.symm ⟨i, hi⟩)
    (e := ⟨0, hpos⟩) (f := ⟨f, hflt⟩) (by rwa [hback]) (by rwa [hfirst]) hf hfolded
    (by rwa [hfirst])
  rwa [hback] at hlabel

end Folding

theorem foldsByVoice_of_same (hties : NoTies sqrt fragments expected)
    (hlasting : Lasting sqrt fragments expected)
    (hagree : GapsAgree fragments (assign (cutClusters sqrt fragments expected)))
    (hempty : NoEmptySum fragments (placedAt fragments (cutClusters sqrt fragments expected)))
    (hsame : SameInEveryOrder sqrt fragments expected) :
    FoldsByVoice fragments (placedAt fragments (cutClusters sqrt fragments expected)) := by
  intro hseveral i hi hslight
  by_contra hnone
  rw [Option.not_isSome_iff_eq_none] at hnone
  have hstanding : surviving fragments
      (placedAt fragments (cutClusters sqrt fragments expected)) ≠ [] :=
    List.ne_nil_of_length_pos (by omega)
  have hspeaker : ∀ c ∈ surviving fragments
      (placedAt fragments (cutClusters sqrt fragments expected)), ∃ e ∈ embedded fragments,
        placedAt fragments (cutClusters sqrt fragments expected) e = c := by
    intro c hc
    obtain ⟨j, hj, rfl⟩ := mem_speakers.mp (mem_surviving hc)
    exact exists_embedded_placed sqrt hties hagree hlasting.heard hj
  have hc := List.getElem_mem (show 0 < (surviving fragments
    (placedAt fragments (cutClusters sqrt fragments expected))).length by omega)
  have hd := List.getElem_mem (show 1 < (surviving fragments
    (placedAt fragments (cutClusters sqrt fragments expected))).length by omega)
  obtain ⟨e, he, hec⟩ := hspeaker _ hc
  obtain ⟨f, hf, hfd⟩ := hspeaker _ hd
  rw [← hec] at hc
  rw [← hfd] at hd
  have hjoined : folded sqrt fragments expected e = folded sqrt fragments expected f := by
    by_cases htwo : (voices sqrt fragments (folded sqrt fragments expected)).length < 2
    · exact (voices_length_lt_two sqrt).mp htwo e he f hf
    · obtain ⟨e', he', hkept⟩ := hlasting.keeps e he
      obtain ⟨f', hf', hkept'⟩ := hlasting.keeps f hf
      -- It goes to `e` where that is listed first, and to `f` where that is.
      have hwith := labelAt_slight sqrt hties hagree hempty hlasting.heard hstanding hsame
        (not_lt.mp htwo) hi hslight hnone he hc he' hkept
      have hwith' := labelAt_slight sqrt hties hagree hempty hlasting.heard hstanding hsame
        (not_lt.mp htwo) hi hslight hnone hf hd hf' hkept'
      rw [← hkept, ← hkept']
      exact (labelAt_eq_iff sqrt hlasting.heard (mem_embedded.mp he').1 (mem_embedded.mp hf').1).mp
        (hwith.symm.trans hwith')
  rw [folded_eq, fold_eq_iff sqrt hstanding (mem_embedded.mp he).1 (mem_embedded.mp hf).1, foldedTo,
    foldedTo, if_pos hc, if_pos hd, hec, hfd, (surviving_nodup _ _).getElem_inj_iff] at hjoined
  exact absurd hjoined zero_ne_one

theorem orderFree_of_same (hties : NoTies sqrt fragments expected)
    (hlasting : Lasting sqrt fragments expected)
    (hsame : SameInEveryOrder sqrt fragments expected) : OrderFree sqrt fragments expected := by
  obtain hstands | ⟨hagree, hempty⟩ := hlasting.before
  · have hall := fun i hi => surviving_placedAt (i := i)
      (partition_cutClusters sqrt fragments expected) hlasting.heard hstands hi
    constructor
    · exact gapsAgree_of_same sqrt hties hlasting hstands hsame
    · intro _ i hi hslight
      exact absurd (hall i hi) hslight
    · rintro _ ⟨i, hi, hslight⟩
      exact absurd (hall i hi) hslight
  · exact ⟨hagree, foldsByVoice_of_same sqrt hties hlasting hagree hempty hsame, hempty⟩

/-- Two people, and two stretches without a voice after the first. -/
def afterFirst : List (Fragment ℚ) :=
  [⟨[⟨0, 10000⟩], some [1, 0], 10000⟩, ⟨[⟨100000, 110000⟩], some [0, 1], 10000⟩,
    ⟨[⟨20000, 30000⟩], none, 10000⟩, ⟨[⟨30000, 40000⟩], none, 10000⟩]

/-- Two people, and two stretches without a voice between them. -/
def between : List (Fragment ℚ) :=
  [⟨[⟨0, 10000⟩], some [1, 0], 10000⟩, ⟨[⟨100000, 110000⟩], some [0, 1], 10000⟩,
    ⟨[⟨40000, 50000⟩], none, 10000⟩, ⟨[⟨60000, 70000⟩], none, 10000⟩]

end ScribeLocal.Asr
