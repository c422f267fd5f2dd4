import ScribeLocal.Asr.ShuffledSpeakers

/-!
# The voices of a shuffled recording

A voice is a weighted sum over fragments, so it does not depend on their order as long as the
embeddings that are summed have one length.
-/
namespace ScribeLocal.Asr
open Finset

variable {K : Type*} [Field K] [LinearOrder K] {σ : Equiv.Perm ℕ}
  {fragments fragments' : List (Fragment K)}

/-! ## Sums over the fragments -/

omit [LinearOrder K] in
theorem addWeighted_comm (s a b : List K) (v w : K) :
    addWeighted (addWeighted s a v) b w = addWeighted (addWeighted s b w) a v := by
  simp only [addWeighted]
  induction s generalizing a b with
  | nil => simp
  | cons x s ih =>
    cases a with
    | nil => simp
    | cons y a =>
      cases b with
      | nil => simp
      | cons z b =>
        simp only [List.zipWith_cons_cons, ih]
        rw [add_right_comm]

omit [LinearOrder K] in
@[simp] theorem addWeighted_length (s a : List K) (w : K) :
    (addWeighted s a w).length = min s.length a.length := by
  simp [addWeighted]

/-- What one fragment adds to the centroid of `c` while folding. -/
def foldStep (a : Assignment) (c : ℤ) (entry : Option (List K × K)) (f : Fragment K × ℕ) :
    Option (List K × K) :=
  match f.1.embedding with
  | none => entry
  | some emb =>
    if a f.2 = c then
      let (sum, weight) := entry.getD (List.replicate emb.length 0, 0)
      let sum := if sum.length ≠ emb.length then List.replicate emb.length 0 else sum
      some (addWeighted sum emb f.1.weight, weight + f.1.weight)
    else entry

theorem foldCentroid_eq (sqrt : K → K) (fragments : List (Fragment K)) (a : Assignment) (c : ℤ) :
    foldCentroid sqrt fragments a c =
      (fragments.zipIdx.foldl (foldStep a c) none).map fun (sum, weight) =>
        l2Normalize sqrt (if 0 < weight then sum.map (· / weight) else sum) := rfl

/-- The sum and weight of a centroid with one more fragment. An embedding of another length starts
the sum anew. -/
def foldAdd (entry : Option (List K × K)) (f : Fragment K × ℕ) (emb : List K) : List K × K :=
  let (sum, weight) := entry.getD (List.replicate emb.length 0, 0)
  let sum := if sum.length ≠ emb.length then List.replicate emb.length 0 else sum
  (addWeighted sum emb f.1.weight, weight + f.1.weight)

omit [LinearOrder K] in
theorem foldStep_eq (a : Assignment) (c : ℤ) (entry : Option (List K × K))
    (f : Fragment K × ℕ) : foldStep a c entry f =
      (if a f.2 = c then f.1.embedding else none).elim entry fun emb =>
        some (foldAdd entry f emb) := by
  rw [foldStep]
  cases f.1.embedding with
  | none => simp
  | some emb =>
    by_cases hc : a f.2 = c
    · simp only [hc, if_true, foldAdd, Option.elim_some]
    · simp [hc]

omit [LinearOrder K] in
/-- Embeddings of one length are added to a voice in either order. -/
theorem voiceAdd_comm (entry : Option (List K × K)) (f g : Fragment K × ℕ) {x y : List K}
    (hlength : x.length = y.length) :
    voiceAdd (some (voiceAdd entry f x)) g y = voiceAdd (some (voiceAdd entry g y)) f x := by
  cases entry with
  | none =>
    simp only [voiceAdd, Option.getD_none, Option.getD_some, List.length_replicate,
      addWeighted_length, hlength, min_self, ne_eq, not_true_eq_false, if_false]
    rw [addWeighted_comm, add_right_comm]
  | some entry =>
    by_cases hsum : entry.1.length = y.length
    · simp only [voiceAdd, Option.getD_some, addWeighted_length, hlength, hsum, min_self, ne_eq,
        not_true_eq_false, if_false]
      rw [addWeighted_comm, add_right_comm]
    · simp only [voiceAdd, Option.getD_some, hlength, hsum, ne_eq, not_false_eq_true, if_true]

omit [LinearOrder K] in
/-- Embeddings of one length are added to a centroid in either order. -/
theorem foldAdd_comm (entry : Option (List K × K)) (f g : Fragment K × ℕ) {x y : List K}
    (hlength : x.length = y.length) :
    foldAdd (some (foldAdd entry f x)) g y = foldAdd (some (foldAdd entry g y)) f x := by
  have hfits : ∀ sum : List K, sum.length = y.length → ∀ weight : K,
      foldAdd (some (foldAdd (some (sum, weight)) f x)) g y =
        foldAdd (some (foldAdd (some (sum, weight)) g y)) f x := by
    intro sum hsum weight
    simp only [foldAdd, Option.getD_some, addWeighted_length, hlength, hsum, min_self, ne_eq,
      not_true_eq_false, if_false]
    rw [addWeighted_comm, add_right_comm]
  -- Without a sum, or with one of another length, both orders start from zeros.
  have hzeros : ∀ {entry} {f : Fragment K × ℕ} {z : List K}, z.length = y.length →
      (∀ s ∈ entry, s.1.length ≠ y.length) → foldAdd entry f z =
        foldAdd (some (List.replicate y.length 0, (entry.map Prod.snd).getD 0)) f z := by
    intro entry f z hz hmisfit
    cases entry with
    | none => simp [foldAdd, hz]
    | some s =>
      have hne := hmisfit s rfl
      simp [foldAdd, hz, hne]
  by_cases hmisfit : ∀ s ∈ entry, s.1.length ≠ y.length
  · rw [hzeros hlength hmisfit, hzeros rfl hmisfit]
    exact hfits _ List.length_replicate _
  · push Not at hmisfit
    obtain ⟨⟨sum, weight⟩, rfl, hsum⟩ := hmisfit
    exact hfits sum hsum weight

omit [Field K] [LinearOrder K] in
/-- A sum over the fragments that does not depend on their order. -/
theorem Shuffled.foldl_zipIdx {β : Type*} (hσ : Shuffled σ fragments fragments')
    {step step' : β → Fragment K × ℕ → β}
    (hstep : ∀ z f, ∀ i < fragments.length, step' z (f, i) = step z (f, σ i))
    (hcomm : ∀ f ∈ fragments.zipIdx, ∀ g ∈ fragments.zipIdx, ∀ z,
      step (step z f) g = step (step z g) f) (z : β) :
    fragments'.zipIdx.foldl step' z = fragments.zipIdx.foldl step z := by
  have hnodup : ∀ l : List (Fragment K), l.zipIdx.Nodup := by
    intro l
    apply List.Nodup.of_map Prod.snd
    rw [List.zipIdx_map_snd]
    exact List.nodup_range'
  have hperm : (fragments'.zipIdx.map fun f => (f.1, σ f.2)).Perm fragments.zipIdx := by
    rw [List.perm_ext_iff_of_nodup _ (hnodup _)]
    · rintro ⟨f, j⟩
      rw [List.mem_map, List.mk_mem_zipIdx_iff_getElem?]
      constructor
      · rintro ⟨⟨g, i⟩, hg, heq⟩
        obtain ⟨rfl, rfl⟩ := Prod.mk.inj heq
        rw [← hσ.get]
        exact List.mk_mem_zipIdx_iff_getElem?.mp hg
      · intro hf
        refine ⟨(f, σ.symm j), List.mk_mem_zipIdx_iff_getElem?.mpr ?_, by simp⟩
        rw [hσ.get, σ.apply_symm_apply, hf]
    · apply (hnodup _).map
      rintro ⟨f, i⟩ ⟨g, j⟩ heq
      obtain ⟨hfg, hij⟩ := Prod.mk.inj heq
      exact Prod.ext hfg (σ.injective hij)
  rw [hperm.symm.foldl_eq' hcomm z, List.foldl_map]
  apply List.foldl_ext
  rintro z ⟨f, i⟩ hf
  have hi := (List.getElem?_eq_some_iff.mp (List.mk_mem_zipIdx_iff_getElem?.mp hf)).1
  exact hstep z f i (by rwa [← hσ.length])

/-! ## Centroids and voices -/

/-- The embeddings that are summed into the centroid of `c` have one length. -/
def EmbeddingsFit (fragments : List (Fragment K)) (a : Assignment) (c : ℤ) : Prop :=
  ∀ i < fragments.length, ∀ j < fragments.length, a i = c → a j = c →
    ∀ x ∈ fragments[i]?.bind Fragment.embedding, ∀ y ∈ fragments[j]?.bind Fragment.embedding,
      x.length = y.length

/-- The embeddings that are summed into one voice have one length. -/
def VoicesFit (fragments : List (Fragment K)) (a : Assignment) : Prop :=
  ∀ i < fragments.length, ∀ j < fragments.length, a i = a j →
    ∀ x ∈ usableAt fragments i, ∀ y ∈ usableAt fragments j, x.length = y.length

variable (sqrt : K → K)

theorem Shuffled.foldCentroid (hσ : Shuffled σ fragments fragments') {a a' : Assignment}
    (h : Alike σ fragments.length a a') {c c' : ℤ} (hfit : EmbeddingsFit fragments a c)
    (hc : Renamed σ fragments.length a a' c c') :
    foldCentroid sqrt fragments' a' c' = foldCentroid sqrt fragments a c := by
  rw [foldCentroid_eq, foldCentroid_eq]
  congr 1
  apply hσ.foldl_zipIdx
  · intro z f i hi
    have hiff : a' i = c' ↔ a (σ i) = c := h.renamed_iff ⟨i, hi, rfl, rfl⟩ hc
    simp only [foldStep, hiff]
  · rintro ⟨f, i⟩ hf ⟨g, j⟩ hg z
    have hf := List.mk_mem_zipIdx_iff_getElem?.mp hf
    have hg := List.mk_mem_zipIdx_iff_getElem?.mp hg
    apply step_comm (foldStep_eq a c)
    intro x hx y hy
    obtain ⟨hi, hx⟩ := Option.mem_ite_none_right.mp hx
    obtain ⟨hj, hy⟩ := Option.mem_ite_none_right.mp hy
    apply foldAdd_comm
    exact hfit i (List.getElem?_eq_some_iff.mp hf).1 j (List.getElem?_eq_some_iff.mp hg).1 hi hj x
      (by rw [hf]; exact hx) y (by rw [hg]; exact hy)

theorem Shuffled.voiceOf (hσ : Shuffled σ fragments fragments') {a a' : Assignment}
    (h : Alike σ fragments.length a a') (hfit : VoicesFit fragments a) {c c' : ℤ}
    (hc : Renamed σ fragments.length a a' c c') :
    voiceOf sqrt fragments' a' c' = voiceOf sqrt fragments a c := by
  rw [voiceOf_eq, voiceOf_eq]
  congr 1
  apply hσ.foldl_zipIdx
  · intro z f i hi
    have hiff : a' i = c' ↔ a (σ i) = c := h.renamed_iff ⟨i, hi, rfl, rfl⟩ hc
    simp only [voiceStep, hiff]
  · rintro ⟨f, i⟩ hf ⟨g, j⟩ hg z
    have hf := List.mk_mem_zipIdx_iff_getElem?.mp hf
    have hg := List.mk_mem_zipIdx_iff_getElem?.mp hg
    apply step_comm (voiceStep_eq a c)
    intro x hx y hy
    obtain ⟨hi, hx⟩ := Option.mem_ite_none_right.mp hx
    obtain ⟨hj, hy⟩ := Option.mem_ite_none_right.mp hy
    apply voiceAdd_comm
    exact hfit i (List.getElem?_eq_some_iff.mp hf).1 j (List.getElem?_eq_some_iff.mp hg).1
      (hi.trans hj.symm) x
      (by rw [Asr.usableAt, hf]; exact hx) y (by rw [Asr.usableAt, hg]; exact hy)

omit [Field K] [LinearOrder K] in
theorem usable_eq_some {f : Fragment K} {emb : List K} (h : f.usable = some emb) :
    f.embedding = some emb := by
  rw [Fragment.usable, Option.filter_eq_some_iff] at h
  exact h.1

/-- A speaker with an embedded fragment has a centroid. -/
theorem foldCentroid_isSome {a : Assignment} {e : ℕ} (he : e ∈ embedded fragments) :
    (foldCentroid sqrt fragments a (a e)).isSome := by
  obtain ⟨hlt, husable⟩ := mem_embedded.mp he
  obtain ⟨emb, hemb⟩ := Option.isSome_iff_exists.mp husable
  rw [usableAt, List.getElem?_eq_getElem hlt, Option.bind_some] at hemb
  rw [foldCentroid_eq, Option.isSome_map, foldl_isSome_iff (foldStep_eq a (a e))]
  right
  refine ⟨(fragments[e], e), List.mk_mem_zipIdx_iff_getElem?.mpr (by simp), ?_⟩
  rw [if_pos rfl, usable_eq_some hemb]
  rfl

/-! ## Folding -/

/-- The target is a standing speaker whose voice is at least as close as any other. -/
theorem foldTarget_spec {a : Assignment} {emb : List K} {c : ℤ}
    (h : foldTarget sqrt fragments a emb = some c) :
    c ∈ surviving fragments a ∧ ∃ v ∈ foldCentroid sqrt fragments a c,
      ∀ d ∈ surviving fragments a, ∀ u ∈ foldCentroid sqrt fragments a d,
        cosine sqrt u emb ≤ cosine sqrt v emb := by
  obtain ⟨⟨d, x⟩, hd, rfl⟩ := Option.map_eq_some_iff.mp h
  have hmem := List.argmax_mem hd
  obtain ⟨e, he, heq⟩ := List.mem_filterMap.mp hmem
  obtain ⟨v, hv, hpair⟩ := Option.map_eq_some_iff.mp heq
  obtain ⟨rfl, rfl⟩ := Prod.mk.inj hpair
  refine ⟨he, v, hv, fun d hd' u hu => ?_⟩
  have hentry : (d, cosine sqrt u emb) ∈ (surviving fragments a).filterMap fun c =>
      (foldCentroid sqrt fragments a c).map fun centroid => (c, cosine sqrt centroid emb) := by
    rw [List.mem_filterMap]
    exact ⟨d, hd', by rw [hu, Option.map_some]⟩
  exact List.le_of_mem_argmax (f := Prod.snd) hentry hd

theorem foldTarget_isSome {a : Assignment} (emb : List K) {c : ℤ}
    (hc : c ∈ surviving fragments a) (hv : (foldCentroid sqrt fragments a c).isSome) :
    ∃ d, foldTarget sqrt fragments a emb = some d := by
  rw [← Option.isSome_iff_exists, foldTarget, Option.isSome_map]
  by_contra hnone
  rw [Option.not_isSome_iff_eq_none, List.argmax_eq_none] at hnone
  obtain ⟨v, hv⟩ := Option.isSome_iff_exists.mp hv
  have hentry : (c, cosine sqrt v emb) ∈ ([] : List (ℤ × K)) := by
    rw [← hnone, List.mem_filterMap]
    exact ⟨c, hc, by rw [hv, Option.map_some]⟩
  exact List.not_mem_nil hentry

/-- No two standing voices are equally close to a fragment that is folded. -/
def CentroidsDiffer (fragments : List (Fragment K)) (a : Assignment) : Prop :=
  ∀ i < fragments.length, a i ∉ surviving fragments a →
    ∀ emb ∈ fragments[i]?.bind Fragment.embedding,
    ∀ c ∈ surviving fragments a, ∀ d ∈ surviving fragments a,
    ∀ u ∈ foldCentroid sqrt fragments a c, ∀ v ∈ foldCentroid sqrt fragments a d,
      cosine sqrt u emb = cosine sqrt v emb → c = d

/-- Where there is a choice between standing speakers, what is folded has an embedding. -/
def FoldsByVoice (fragments : List (Fragment K)) (a : Assignment) : Prop :=
  2 ≤ (surviving fragments a).length → ∀ i < fragments.length, a i ∉ surviving fragments a →
    (fragments[i]?.bind Fragment.embedding).isSome

/-- The speaker each fragment has once the slight ones are folded. -/
def foldedTo (fragments : List (Fragment K)) (a : Assignment) : Assignment := fun i =>
  if a i ∈ surviving fragments a then a i
  else ((fragments[i]?.bind Fragment.embedding).bind (foldTarget sqrt fragments a)).getD
    ((surviving fragments a).headD 0)

/-- The closest standing speaker is the same one in both orders. -/
theorem Shuffled.foldTarget (hσ : Shuffled σ fragments fragments') {a a' : Assignment}
    (h : Alike σ fragments.length a a')
    (hcentroid : ∀ c c', c ∈ surviving fragments a → Renamed σ fragments.length a a' c c' →
      Asr.foldCentroid sqrt fragments' a' c' = Asr.foldCentroid sqrt fragments a c)
    {emb : List K}
    (hdiffer : ∀ c ∈ surviving fragments a, ∀ d ∈ surviving fragments a,
      ∀ u ∈ Asr.foldCentroid sqrt fragments a c, ∀ v ∈ Asr.foldCentroid sqrt fragments a d,
        cosine sqrt u emb = cosine sqrt v emb → c = d)
    {c c' : ℤ} (hc : Asr.foldTarget sqrt fragments a emb = some c)
    (hc' : Asr.foldTarget sqrt fragments' a' emb = some c') :
    Renamed σ fragments.length a a' c c' := by
  obtain ⟨hmem, v, hv, hmax⟩ := foldTarget_spec sqrt hc
  obtain ⟨hmem', v', hv', hmax'⟩ := foldTarget_spec sqrt hc'
  obtain ⟨d, hd⟩ := hσ.exists_old a (Asr.mem_surviving hmem')
  obtain ⟨d', hd'⟩ := hσ.exists_new a' (Asr.mem_surviving hmem)
  have hdmem := (hσ.renamed_surviving h hd).mp hmem'
  rw [hcentroid d c' hdmem hd] at hv'
  have hle := hmax d hdmem v' hv'
  have hge := hmax' d' ((hσ.renamed_surviving h hd').mpr hmem) v
    (by rwa [hcentroid c d' hmem hd'])
  obtain rfl := hdiffer d hdmem c hmem v' hv' v hv (le_antisymm hle hge)
  exact hd

/-- Folding moves each fragment to the same voice in both orders. -/
theorem Shuffled.foldedTo (hσ : Shuffled σ fragments fragments') {a a' : Assignment}
    (h : Alike σ fragments.length a a') (hne : surviving fragments a ≠ [])
    (hdiffer : CentroidsDiffer sqrt fragments a)
    (hcentroid : 2 ≤ (surviving fragments a).length →
      (∃ i < fragments.length, a i ∉ surviving fragments a) →
      ∀ c c', c ∈ surviving fragments a → Renamed σ fragments.length a a' c c' →
        Asr.foldCentroid sqrt fragments' a' c' = Asr.foldCentroid sqrt fragments a c)
    (hembedded : ∀ i < fragments.length, ∃ e ∈ embedded fragments, a e = a i) {i : ℕ}
    (hi : i < fragments.length)
    (hvoice : 2 ≤ (surviving fragments a).length → a (σ i) ∉ surviving fragments a →
      (fragments[σ i]?.bind Fragment.embedding).isSome) :
    Renamed σ fragments.length a a' (Asr.foldedTo sqrt fragments a (σ i))
      (Asr.foldedTo sqrt fragments' a' i) := by
  have hiff := hσ.mem_surviving h hi
  have hlt := (hσ.lt_iff i).mpr hi
  rw [Asr.foldedTo, Asr.foldedTo]
  by_cases hstands : a (σ i) ∈ surviving fragments a
  · rw [if_pos hstands, if_pos (hiff.mpr hstands)]
    exact ⟨i, hi, rfl, rfl⟩
  · rw [if_neg hstands, if_neg fun hmem => hstands (hiff.mp hmem), hσ.get]
    have hne' : surviving fragments' a' ≠ [] := fun hnil => hne ((hσ.surviving_eq_nil h).mp hnil)
    have hmem := foldTarget_getD_mem sqrt (fragments[σ i]?.bind Fragment.embedding) hne
    have hmem' := foldTarget_getD_mem sqrt (fragments[σ i]?.bind Fragment.embedding) hne'
    obtain ⟨d, hd⟩ := hσ.exists_old a (Asr.mem_surviving hmem')
    by_cases hone : (surviving fragments a).length ≤ 1
    -- With one standing speaker there is nothing to choose.
    · have heq : d = ((fragments[σ i]?.bind Fragment.embedding).bind
          (Asr.foldTarget sqrt fragments a)).getD ((surviving fragments a).headD 0) := by
        have hdmem := (hσ.renamed_surviving h hd).mp hmem'
        have hpos := List.length_pos_of_ne_nil hne
        obtain ⟨c, hs⟩ := List.length_eq_one_iff.mp
          (show (surviving fragments a).length = 1 by omega)
        rw [hs] at hdmem hmem ⊢
        exact (List.mem_singleton.mp hdmem).trans (List.mem_singleton.mp hmem).symm
      rwa [← heq]
    · have htwo : 2 ≤ (surviving fragments a).length := by omega
      have hcentroid := hcentroid htwo ⟨σ i, hlt, hstands⟩
      obtain ⟨emb, hemb⟩ := Option.isSome_iff_exists.mp (hvoice htwo hstands)
      have hsome : ∀ c ∈ surviving fragments a, (Asr.foldCentroid sqrt fragments a c).isSome := by
        intro c hc
        obtain ⟨j, hj, rfl⟩ := mem_speakers.mp (Asr.mem_surviving hc)
        obtain ⟨e, he, heq⟩ := hembedded j hj
        rw [← heq]
        exact foldCentroid_isSome sqrt he
      obtain ⟨c, hc⟩ := List.exists_mem_of_ne_nil _ hne
      obtain ⟨t, ht⟩ := foldTarget_isSome sqrt emb hc (hsome c hc)
      obtain ⟨c', hc'⟩ := hσ.exists_new a' (Asr.mem_surviving hc)
      obtain ⟨t', ht'⟩ := foldTarget_isSome sqrt emb ((hσ.renamed_surviving h hc').mpr hc)
        (by rw [hcentroid c c' hc hc']; exact hsome c hc)
      rw [hemb, Option.bind_some, Option.bind_some, ht, ht', Option.getD_some, Option.getD_some]
      exact hσ.foldTarget sqrt h hcentroid (hdiffer (σ i) hlt hstands emb hemb) ht ht'

/-- Folding keeps together what has one target. -/
theorem fold_eq_iff {a : Assignment} (hne : surviving fragments a ≠ []) {i j : ℕ}
    (hi : i < fragments.length) (hj : j < fragments.length) :
    foldSlightSpeakers sqrt fragments a i = foldSlightSpeakers sqrt fragments a j ↔
      foldedTo sqrt fragments a i = foldedTo sqrt fragments a j := by
  have hempty : (surviving fragments a).isEmpty = false := by simpa using hne
  rw [foldSlightSpeakers]
  by_cases hall : (surviving fragments a).length = (seen fragments.length a).length
  · simp only [hall, or_true, if_true]
    have hstands : ∀ k < fragments.length, foldedTo sqrt fragments a k = a k := by
      intro k hk
      apply if_pos
      have hkept := List.length_filter_eq_length_iff.mp hall (a k)
        (mem_seen.mpr (mem_speakers.mpr ⟨k, hk, rfl⟩))
      rw [sum_speechOf] at hkept
      exact mem_surviving_iff.mpr ⟨mem_speakers.mpr ⟨k, hk, rfl⟩, hkept⟩
    rw [hstands i hi, hstands j hj]
  · simp only [hempty, hall, Bool.false_eq_true, or_self, if_false]
    exact renumber_eq_iff hj

theorem Shuffled.fold (hσ : Shuffled σ fragments fragments') {a a' : Assignment}
    (h : Alike σ fragments.length a a') (hvoice : FoldsByVoice fragments a)
    (hdiffer : CentroidsDiffer sqrt fragments a)
    (hcentroid : 2 ≤ (surviving fragments a).length →
      (∃ i < fragments.length, a i ∉ surviving fragments a) →
      ∀ c c', c ∈ surviving fragments a → Renamed σ fragments.length a a' c c' →
        Asr.foldCentroid sqrt fragments' a' c' = Asr.foldCentroid sqrt fragments a c)
    (hembedded : ∀ i < fragments.length, ∃ e ∈ embedded fragments, a e = a i) :
    Alike σ fragments.length (foldSlightSpeakers sqrt fragments a)
      (foldSlightSpeakers sqrt fragments' a') := by
  by_cases hne : surviving fragments a = []
  · have hsame : ∀ {l : List (Fragment K)} {b : Assignment}, surviving l b = [] →
        foldSlightSpeakers sqrt l b = b := by
      intro l b hnil
      rw [foldSlightSpeakers]
      simp only [hnil, List.isEmpty_nil, true_or, if_true]
    rwa [hsame hne, hsame ((hσ.surviving_eq_nil h).mpr hne)]
  · have hfolded := h.of_renamed fun i hi =>
      hσ.foldedTo sqrt h hne hdiffer hcentroid hembedded hi fun htwo =>
        hvoice htwo (σ i) ((hσ.lt_iff i).mpr hi)
    intro i hi j hj
    rw [fold_eq_iff sqrt (fun hnil => hne ((hσ.surviving_eq_nil h).mp hnil))
        (by rwa [hσ.length]) (by rwa [hσ.length]),
      fold_eq_iff sqrt hne ((hσ.lt_iff i).mpr hi) ((hσ.lt_iff j).mpr hj)]
    exact hfolded i hi j hj

/-! ## Moving fragments between voices -/

/-- A fragment stays, no voice being better than the least number; or it goes to a voice that no
other is better than. -/
theorem nearestVoice_spec (fragments : List (Fragment K)) (a : Assignment) (own : ℤ)
    (emb : List K) :
    (nearestVoice sqrt (voices sqrt fragments a) own emb = own ∧
      ∀ v ∈ voices sqrt fragments a, v.2.length = emb.length →
        cosine sqrt v.2 emb ≤ -f32Max) ∨
    ∃ v ∈ voices sqrt fragments a, v.2.length = emb.length ∧ -f32Max < cosine sqrt v.2 emb ∧
      nearestVoice sqrt (voices sqrt fragments a) own emb = v.1 ∧
      ∀ u ∈ voices sqrt fragments a, u.2.length = emb.length →
        cosine sqrt u.2 emb ≤ cosine sqrt v.2 emb := by
  rcases nearestVoice_closest sqrt (voices_sorted sqrt fragments a) own emb with
    ⟨hnone, heq⟩ | ⟨v, hv, ⟨hlength, hbetter, hall⟩, heq⟩
  · exact .inl ⟨heq, hnone⟩
  · exact .inr ⟨v, hv, hlength, hbetter, heq, fun u hu hulength => (hall u hu hulength).1⟩

theorem mem_voices_iff {a : Assignment} {c : ℤ} {v : List K} :
    (c, v) ∈ voices sqrt fragments a ↔
      c ∈ speakers fragments.length a ∧ voiceOf sqrt fragments a c = some v := by
  rw [voices, List.mem_filterMap, ← mem_seen]
  constructor
  · rintro ⟨d, hd, heq⟩
    obtain ⟨w, hw, hpair⟩ := Option.map_eq_some_iff.mp heq
    obtain ⟨rfl, rfl⟩ := Prod.mk.inj hpair
    exact ⟨hd, hw⟩
  · rintro ⟨hc, hv⟩
    exact ⟨c, hc, by rw [hv, Option.map_some]⟩

/-- No two voices are equally close to an embedded fragment. -/
def VoicesDiffer (fragments : List (Fragment K)) (a : Assignment) : Prop :=
  ∀ i < fragments.length, ∀ emb ∈ usableAt fragments i,
    ∀ u ∈ voices sqrt fragments a, ∀ v ∈ voices sqrt fragments a,
      u.2.length = emb.length → v.2.length = emb.length →
        cosine sqrt u.2 emb = cosine sqrt v.2 emb → u.1 = v.1

/-- The voices are the same under other names. -/
theorem Shuffled.mem_voices (hσ : Shuffled σ fragments fragments') {a a' : Assignment}
    (h : Alike σ fragments.length a a') (hfit : VoicesFit fragments a) {c c' : ℤ}
    (hc : Renamed σ fragments.length a a' c c') (v : List K) :
    (c', v) ∈ voices sqrt fragments' a' ↔ (c, v) ∈ voices sqrt fragments a := by
  rw [mem_voices_iff, mem_voices_iff, hσ.voiceOf sqrt h hfit hc, mem_speakers, mem_speakers]
  obtain ⟨i, hi, rfl, rfl⟩ := hc
  exact and_congr_left' (iff_of_true ⟨i, by rwa [hσ.length], rfl⟩ ⟨σ i, (hσ.lt_iff i).mpr hi, rfl⟩)

theorem Shuffled.exists_voice (hσ : Shuffled σ fragments fragments') {a a' : Assignment}
    (h : Alike σ fragments.length a a') (hfit : VoicesFit fragments a) {v' : ℤ × List K}
    (hv : v' ∈ voices sqrt fragments' a') :
    ∃ v ∈ voices sqrt fragments a, v.2 = v'.2 ∧ Renamed σ fragments.length a a' v.1 v'.1 := by
  obtain ⟨c, hrenamed⟩ := hσ.exists_old a ((mem_voices_iff sqrt).mp hv).1
  exact ⟨(c, v'.2), (hσ.mem_voices sqrt h hfit hrenamed v'.2).mp hv, rfl, hrenamed⟩

theorem Shuffled.exists_voice' (hσ : Shuffled σ fragments fragments') {a a' : Assignment}
    (h : Alike σ fragments.length a a') (hfit : VoicesFit fragments a) {v : ℤ × List K}
    (hv : v ∈ voices sqrt fragments a) :
    ∃ v' ∈ voices sqrt fragments' a', v'.2 = v.2 ∧ Renamed σ fragments.length a a' v.1 v'.1 := by
  obtain ⟨c', hrenamed⟩ := hσ.exists_new a' ((mem_voices_iff sqrt).mp hv).1
  exact ⟨(c', v.2), (hσ.mem_voices sqrt h hfit hrenamed v.2).mpr hv, rfl, hrenamed⟩

/-- Each fragment moves to the same voice in both orders. -/
theorem Shuffled.revoiced (hσ : Shuffled σ fragments fragments') {a a' : Assignment}
    (h : Alike σ fragments.length a a') (hfit : VoicesFit fragments a)
    (hdiffer : VoicesDiffer sqrt fragments a) {i : ℕ} (hi : i < fragments.length) :
    Renamed σ fragments.length a a' (Asr.revoiced sqrt fragments a (σ i))
      (Asr.revoiced sqrt fragments' a' i) := by
  rw [Asr.revoiced, Asr.revoiced, hσ.usableAt]
  cases husable : Asr.usableAt fragments (σ i) with
  | none => exact ⟨i, hi, rfl, rfl⟩
  | some emb =>
    dsimp only
    obtain ⟨hstays, hleast⟩ | ⟨v, hv, hlength, hbetter, heq, hmax⟩ :=
      nearestVoice_spec sqrt fragments a (a (σ i)) emb
    · obtain ⟨hstays', -⟩ | ⟨v', hv', hlength', hbetter', -, -⟩ :=
        nearestVoice_spec sqrt fragments' a' (a' i) emb
      · rw [hstays, hstays']
        exact ⟨i, hi, rfl, rfl⟩
      · obtain ⟨v, hv, hsame, -⟩ := hσ.exists_voice sqrt h hfit hv'
        rw [← hsame] at hlength' hbetter'
        exact absurd (hleast v hv hlength') (not_le.mpr hbetter')
    · obtain ⟨w', hw', hsame, hrenamed⟩ := hσ.exists_voice' sqrt h hfit hv
      obtain ⟨-, hleast'⟩ | ⟨v', hv', hlength', -, heq', hmax'⟩ :=
        nearestVoice_spec sqrt fragments' a' (a' i) emb
      · rw [← hsame] at hlength hbetter
        exact absurd (hleast' w' hw' hlength) (not_le.mpr hbetter)
      · obtain ⟨u, hu, husame, hurenamed⟩ := hσ.exists_voice sqrt h hfit hv'
        have hle := hmax u hu (by rwa [husame])
        have hge := hmax' w' hw' (by rwa [hsame])
        rw [hsame] at hge
        rw [husame] at hle
        have hname := hdiffer (σ i) ((hσ.lt_iff i).mpr hi) emb husable u hu v hv
          (by rwa [husame]) hlength (by rw [husame]; exact le_antisymm hle hge)
        rw [heq, heq', ← hname]
        exact hurenamed

/-- After the voice pass two fragments share a speaker where they moved to one. -/
theorem refine_eq_iff {a : Assignment} {i j : ℕ} (hj : j < fragments.length) :
    refineAssignment sqrt fragments 1 a i = refineAssignment sqrt fragments 1 a j ↔
      revoiced sqrt fragments a i = revoiced sqrt fragments a j := by
  by_cases hsingle : (voices sqrt fragments a).length < 2
  · rw [refineAssignment, if_pos hsingle, revoiced_of_single sqrt hsingle]
  · have hrenumber : refineAssignment sqrt fragments 1 a =
        renumber fragments.length (revoiced sqrt fragments a) := by
      rw [refineAssignment, if_neg hsingle]
      dsimp only
      split <;> rfl
    rw [hrenumber]
    exact renumber_eq_iff hj

/-- The voice pass keeps the same fragments together in both orders. -/
theorem Shuffled.refine (hσ : Shuffled σ fragments fragments') {a a' : Assignment}
    (h : Alike σ fragments.length a a')
    (hfit : 2 ≤ (voices sqrt fragments a).length → VoicesFit fragments a)
    (hdiffer : VoicesDiffer sqrt fragments a) :
    Alike σ fragments.length (refineAssignment sqrt fragments 1 a)
      (refineAssignment sqrt fragments' 1 a') := by
  have hvoices : (voices sqrt fragments' a').length < 2 ↔ (voices sqrt fragments a).length < 2 := by
    rw [voices_length_lt_two, voices_length_lt_two]
    rw [← hσ.forall_embedded (p := fun i => ∀ j ∈ embedded fragments, a i = a j)]
    apply forall₂_congr
    intro i hi
    rw [← hσ.forall_embedded (p := fun j => a (σ i) = a j)]
    apply forall₂_congr
    intro j hj
    exact h i (by rw [← hσ.length]; exact (Asr.mem_embedded.mp hi).1) j
      (by rw [← hσ.length]; exact (Asr.mem_embedded.mp hj).1)
  intro i hi j hj
  rw [refine_eq_iff sqrt (by rwa [hσ.length]), refine_eq_iff sqrt ((hσ.lt_iff j).mpr hj)]
  by_cases hsingle : (voices sqrt fragments a).length < 2
  · rw [revoiced_of_single sqrt hsingle, revoiced_of_single sqrt (hvoices.mpr hsingle)]
    exact h i hi j hj
  · have hmoved := h.of_renamed fun i hi =>
      hσ.revoiced sqrt h (hfit (by omega)) hdiffer hi
    exact hmoved i hi j hj

end ScribeLocal.Asr
