import ScribeLocal.Asr.ShuffledCut
import ScribeLocal.Asr.PersonsWorth

/-!
# The speakers of a shuffled recording

The passes after the cut, on the same fragments in another order. Speaker numbers change with the
order; which fragments share a speaker is what has to stay.
-/
namespace ScribeLocal.Asr
open Finset

variable {K : Type*} {σ : Equiv.Perm ℕ} {fragments fragments' : List (Fragment K)}

/-- The second assignment keeps the same fragments together as the first. -/
def Alike (σ : Equiv.Perm ℕ) (m : ℕ) (a a' : Assignment) : Prop :=
  ∀ i < m, ∀ j < m, a' i = a' j ↔ a (σ i) = a (σ j)

/-- The speaker `c` of the first assignment is called `c'` in the second. -/
def Renamed (σ : Equiv.Perm ℕ) (m : ℕ) (a a' : Assignment) (c c' : ℤ) : Prop :=
  ∃ i < m, a (σ i) = c ∧ a' i = c'

theorem Alike.renamed_iff {m : ℕ} {a a' : Assignment} (h : Alike σ m a a') {c c' d d' : ℤ}
    (hc : Renamed σ m a a' c c') (hd : Renamed σ m a a' d d') : c' = d' ↔ c = d := by
  obtain ⟨i, hi, rfl, rfl⟩ := hc
  obtain ⟨j, hj, rfl, rfl⟩ := hd
  exact h i hi j hj

/-- A pass that gives out renamed speakers keeps the same fragments together. -/
theorem Alike.of_renamed {m : ℕ} {a a' b b' : Assignment} (h : Alike σ m a a')
    (hb : ∀ i < m, Renamed σ m a a' (b (σ i)) (b' i)) : Alike σ m b b' :=
  fun i hi j hj => h.renamed_iff (hb i hi) (hb j hj)

theorem Alike.renumber {m : ℕ} {a a' : Assignment} (hσ : ∀ i, σ i < m ↔ i < m)
    (h : Alike σ m a a') : Alike σ m (renumber m a) (Asr.renumber m a') := by
  intro i hi j hj
  rw [renumber_eq_iff hj, renumber_eq_iff ((hσ j).mpr hj), h i hi j hj]

/-! ## The clusters -/

theorem assign_eq_assign_iff {e : List ℕ} {clusters : List (List ℕ)} (h : Partition e clusters)
    {f g : ℕ} (hf : f ∈ e) : assign clusters f = assign clusters g ↔
      ∃ c ∈ clusters, f ∈ c ∧ g ∈ c := by
  constructor
  · intro heq
    obtain ⟨c, hc, hfc⟩ := List.mem_flatten.mp ((h.mem f).mpr hf)
    obtain ⟨i, hi⟩ := List.mem_iff_getElem?.mp hc
    rw [assign_of_mem h hi hfc] at heq
    exact ⟨c, hc, hfc, (assign_eq_iff h hi).mp heq.symm⟩
  · rintro ⟨c, hc, hfc, hgc⟩
    obtain ⟨i, hi⟩ := List.mem_iff_getElem?.mp hc
    rw [assign_of_mem h hi hfc, assign_of_mem h hi hgc]

/-- Mirrored replays assign the embedded fragments alike. -/
theorem Replay.Mirrors.assign {n : ℕ} {e e' : List ℕ} {r r' : Replay} (h : r.Mirrors σ n r')
    (hr : r.Sound n e) (hr' : r'.Sound n e') (he : ∀ f, f ∈ e' ↔ σ f ∈ e) {f g : ℕ} (hf : f ∈ e') :
    Asr.assign (r'.clusters n) f = Asr.assign (r'.clusters n) g ↔
      Asr.assign (r.clusters n) (σ f) = Asr.assign (r.clusters n) (σ g) := by
  rw [assign_eq_assign_iff hr'.partition hf, assign_eq_assign_iff hr.partition ((he f).mp hf)]
  simp only [Replay.clusters, List.mem_map, List.mem_filter, List.mem_range]
  constructor
  · rintro ⟨c, ⟨k, ⟨hk, halive⟩, rfl⟩, hfk, hgk⟩
    obtain ⟨i, hi, hlive, hmatches⟩ := h.symm hr hr' he hk halive
    exact ⟨r.members i, ⟨i, ⟨hi, hlive⟩, rfl⟩, (hmatches f).mp hfk, (hmatches g).mp hgk⟩
  · rintro ⟨c, ⟨i, ⟨hi, hlive⟩, rfl⟩, hfi, hgi⟩
    obtain ⟨k, hk, halive, hmatches⟩ := h i hi hlive
    exact ⟨r'.members k, ⟨k, ⟨hk, halive⟩, rfl⟩, (hmatches f).mpr hfi, (hmatches g).mpr hgi⟩

/-! ## Placing -/

/-- The time between the middles of two fragments. -/
def gap (fragments : List (Fragment K)) (i j : ℕ) : ℕ :=
  (midAt fragments j - midAt fragments i).natAbs

/-- No embedded fragment is nearer to `i` than `e`. -/
def Nearest (fragments : List (Fragment K)) (i e : ℕ) : Prop :=
  e ∈ embedded fragments ∧ ∀ f ∈ embedded fragments, gap fragments i e ≤ gap fragments i f

instance (fragments : List (Fragment K)) (i e : ℕ) : Decidable (Nearest fragments i e) :=
  inferInstanceAs (Decidable (_ ∧ ∀ f ∈ embedded fragments, _))

/-- No two embedded fragments are equally far from one that is not. -/
def GapsDiffer (fragments : List (Fragment K)) : Prop :=
  ∀ i < fragments.length, i ∉ embedded fragments → ∀ e ∈ embedded fragments,
    ∀ f ∈ embedded fragments, gap fragments i e = gap fragments i f → e = f

/-- `v` has no embedding either, and is as near to `u` as every embedded fragment. -/
def Beside (fragments : List (Fragment K)) (u v : ℕ) : Prop :=
  v ∉ embedded fragments ∧ u ≠ v ∧
    ∀ e ∈ embedded fragments, gap fragments u v ≤ gap fragments u e

instance (fragments : List (Fragment K)) (u v : ℕ) : Decidable (Beside fragments u v) :=
  inferInstanceAs (Decidable (_ ∧ _ ∧ ∀ e ∈ embedded fragments, _))

/-- Where a fragment without an embedding has another one beside it, the embedded fragments
nearest to the two share a speaker. -/
def GapsAgree (fragments : List (Fragment K)) (a : Assignment) : Prop :=
  ∀ u < fragments.length, u ∉ embedded fragments → ∀ v < fragments.length, Beside fragments u v →
    ∀ e ∈ embedded fragments, ∀ f ∈ embedded fragments, Nearest fragments u e →
      Nearest fragments v f → a e = a f

theorem exists_nearest (hne : embedded fragments ≠ []) (i : ℕ) : ∃ e, Nearest fragments i e := by
  obtain ⟨j, hj⟩ := List.exists_mem_of_ne_nil _ hne
  obtain ⟨e, he, hmin⟩ := exists_min_image (embedded fragments).toFinset (gap fragments i)
    ⟨j, List.mem_toFinset.mpr hj⟩
  exact ⟨e, List.mem_toFinset.mp he, fun f hf => hmin f (List.mem_toFinset.mpr hf)⟩

theorem nearestAssigned_min {a : Assignment} {i : ℕ} {c : ℤ}
    (h : nearestAssigned fragments a i = some c) :
    ∃ j < fragments.length, 0 ≤ a j ∧ a j = c ∧
      ∀ k < fragments.length, 0 ≤ a k → gap fragments i j ≤ gap fragments i k := by
  obtain ⟨j, hj, rfl⟩ := Option.map_eq_some_iff.mp h
  have hmem := List.argmin_mem hj
  simp only [List.mem_filter, List.mem_range, decide_eq_true_eq] at hmem
  refine ⟨j, hmem.1, hmem.2, rfl, fun k hk hpos => ?_⟩
  exact List.le_of_mem_argmin (f := gap fragments i) (by simp [hk, hpos]) hj

/-- What is placed so far sits with the nearest embedded fragment. -/
structure Settled (fragments : List (Fragment K)) (a b : Assignment) : Prop where
  embedded : ∀ i ∈ Asr.embedded fragments, b i = a i
  placed : ∀ i < fragments.length, i ∉ Asr.embedded fragments → 0 ≤ b i →
    ∀ e, Nearest fragments i e → b i = a e

theorem Settled.placeOne {a b : Assignment} {i : ℕ} (h : Settled fragments a b)
    (ha : ∀ e ∈ Asr.embedded fragments, 0 ≤ a e) (hne : Asr.embedded fragments ≠ [])
    (hdiffer : GapsDiffer fragments) (hagree : GapsAgree fragments a)
    (hi : i < fragments.length) : Settled fragments a (Asr.placeOne fragments b i) := by
  by_cases hbi : 0 ≤ b i
  · rwa [placeOne_of_nonneg hbi]
  · have hnot : i ∉ Asr.embedded fragments := fun hmem => hbi (by rw [h.embedded i hmem]; exact ha i hmem)
    constructor
    · intro k hk
      have hki : k ≠ i := by
        rintro rfl
        exact hnot hk
      rw [placeOne_of_ne hki, h.embedded k hk]
    · intro k hk hknot hpos e he
      by_cases hki : k = i
      · subst hki
        have heb : 0 ≤ b e := by
          rw [h.embedded e he.1]
          exact ha e he.1
        have helt : e < fragments.length := (mem_embedded.mp he.1).1
        obtain ⟨c, hc⟩ := Option.isSome_iff_exists.mp (nearestAssigned_isSome helt heb k)
        obtain ⟨j, hj, hjpos, rfl, hmin⟩ := nearestAssigned_min hc
        rw [Asr.placeOne, if_neg hbi, Function.update_self, hc, Option.getD_some]
        by_cases hjmem : j ∈ Asr.embedded fragments
        · have heq := hdiffer k hk hknot j hjmem e he.1
            (le_antisymm (hmin e helt heb) (he.2 j hjmem))
          rw [h.embedded j hjmem, heq]
        -- The nearest is one that was placed before: it sits where `k` belongs.
        · have hjk : j ≠ k := by
            rintro rfl
            exact hbi hjpos
          obtain ⟨f, hf⟩ := exists_nearest hne j
          rw [h.placed j hj hjmem hjpos f hf]
          have hbeside : Beside fragments k j :=
            ⟨hjmem, hjk.symm, fun x hx => (hmin e helt heb).trans (he.2 x hx)⟩
          exact (hagree k hk hknot j hj hbeside e he.1 f hf.1 he hf).symm
      · rw [placeOne_of_ne hki] at hpos ⊢
        exact h.placed k hk hknot hpos e he

theorem Settled.place {clusters : List (List ℕ)} (h : Partition (Asr.embedded fragments) clusters)
    (hne : Asr.embedded fragments ≠ []) (hdiffer : GapsDiffer fragments)
    (hagree : GapsAgree fragments (assign clusters)) :
    Settled fragments (assign clusters) (placedAt fragments clusters) := by
  have ha : ∀ e ∈ Asr.embedded fragments, 0 ≤ assign clusters e :=
    fun e he => (assign_nonneg_iff h).mpr he
  have hstart : Settled fragments (assign clusters) (assign clusters) := by
    refine ⟨fun _ _ => rfl, fun i _ hnot hpos => ?_⟩
    exact absurd ((assign_nonneg_iff h).mp hpos) hnot
  have hloop : ∀ (is : List ℕ) (b : Assignment), (∀ i ∈ is, i < fragments.length) →
      Settled fragments (assign clusters) b →
      Settled fragments (assign clusters) (is.foldl (Asr.placeOne fragments) b) := by
    intro is
    induction is with
    | nil => exact fun b _ hb => hb
    | cons i is ih =>
      intro b his hb
      rw [List.foldl_cons]
      apply ih _ fun k hk => his k (List.mem_cons_of_mem _ hk)
      exact hb.placeOne ha hne hdiffer hagree (his i List.mem_cons_self)
  exact hloop _ _ (fun i hi => List.mem_range.mp hi) hstart

/-- The embedded fragment whose speaker `i` gets: its own, or the nearest. -/
def Home (fragments : List (Fragment K)) (i e : ℕ) : Prop :=
  if i ∈ embedded fragments then e = i else Nearest fragments i e

theorem Home.mem {i e : ℕ} (h : Home fragments i e) : e ∈ embedded fragments := by
  rw [Home] at h
  split at h
  · rwa [h]
  · exact h.1

theorem exists_home (hne : embedded fragments ≠ []) (i : ℕ) : ∃ e, Home fragments i e := by
  by_cases hi : i ∈ embedded fragments
  · exact ⟨i, by rw [Home, if_pos hi]⟩
  · obtain ⟨e, he⟩ := exists_nearest hne i
    exact ⟨e, by rwa [Home, if_neg hi]⟩

theorem Settled.home {a b : Assignment} (h : Settled fragments a b)
    (hb : ∀ i < fragments.length, 0 ≤ b i) {i e : ℕ} (hi : i < fragments.length)
    (he : Home fragments i e) : b i = a e := by
  by_cases hmem : i ∈ Asr.embedded fragments
  · rw [Home, if_pos hmem] at he
    rw [h.embedded i hmem, he]
  · rw [Home, if_neg hmem] at he
    exact h.placed i hi hmem (hb i hi) e he

theorem placedAt_nonneg {clusters : List (List ℕ)} (h : Partition (embedded fragments) clusters)
    (hne : embedded fragments ≠ []) : ∀ i < fragments.length, 0 ≤ placedAt fragments clusters i := by
  obtain ⟨j, hj⟩ := List.exists_mem_of_ne_nil _ hne
  exact (place_extends (mem_embedded.mp hj).1 ((assign_nonneg_iff h).mpr hj)).2

theorem Shuffled.gap (hσ : Shuffled σ fragments fragments') (i j : ℕ) :
    gap fragments' i j = gap fragments (σ i) (σ j) := by
  rw [Asr.gap, Asr.gap, hσ.midAt, hσ.midAt]

/-- What holds of every embedded fragment is read at the shuffled positions. -/
theorem Shuffled.forall_embedded (hσ : Shuffled σ fragments fragments') {p : ℕ → Prop} :
    (∀ f ∈ embedded fragments', p (σ f)) ↔ ∀ f ∈ embedded fragments, p f := by
  constructor
  · intro h f hf
    have hback := h (σ.symm f) (hσ.mem_embedded.mpr (by rwa [σ.apply_symm_apply]))
    rwa [σ.apply_symm_apply] at hback
  · exact fun h f hf => h (σ f) (hσ.mem_embedded.mp hf)

theorem Shuffled.nearest (hσ : Shuffled σ fragments fragments') {i e : ℕ} :
    Nearest fragments' i e ↔ Nearest fragments (σ i) (σ e) := by
  rw [Nearest, Nearest, hσ.mem_embedded]
  apply and_congr_right'
  simp only [hσ.gap]
  exact hσ.forall_embedded (p := fun f => Asr.gap fragments (σ i) (σ e) ≤ Asr.gap fragments (σ i) f)

theorem Shuffled.home (hσ : Shuffled σ fragments fragments') {i e : ℕ} :
    Home fragments' i e ↔ Home fragments (σ i) (σ e) := by
  rw [Home, Home]
  by_cases hi : i ∈ embedded fragments'
  · rw [if_pos hi, if_pos (hσ.mem_embedded.mp hi), σ.injective.eq_iff]
  · rw [if_neg hi, if_neg fun hmem => hi (hσ.mem_embedded.mpr hmem), hσ.nearest]

theorem Shuffled.gapsDiffer (hσ : Shuffled σ fragments fragments') (h : GapsDiffer fragments) :
    GapsDiffer fragments' := by
  intro i hi hnot e he f hf heq
  rw [hσ.gap, hσ.gap] at heq
  exact σ.injective (h (σ i) (hσ.lt hi) (fun hmem => hnot (hσ.mem_embedded.mpr hmem)) (σ e)
    (hσ.mem_embedded.mp he) (σ f) (hσ.mem_embedded.mp hf) heq)

theorem Shuffled.beside (hσ : Shuffled σ fragments fragments') {u v : ℕ} :
    Beside fragments' u v ↔ Beside fragments (σ u) (σ v) := by
  rw [Beside, Beside, hσ.mem_embedded, σ.injective.ne_iff]
  apply and_congr_right'
  apply and_congr_right'
  simp only [hσ.gap]
  exact hσ.forall_embedded (p := fun e => Asr.gap fragments (σ u) (σ v) ≤ Asr.gap fragments (σ u) e)

theorem Shuffled.gapsAgree (hσ : Shuffled σ fragments fragments') {a a' : Assignment}
    (ha : ∀ e ∈ embedded fragments', ∀ f, a' e = a' f ↔ a (σ e) = a (σ f))
    (h : GapsAgree fragments a) : GapsAgree fragments' a' := by
  intro u hu hnot v hv hbeside e he f hf hue hvf
  rw [ha e he]
  exact h (σ u) (hσ.lt hu) (fun hmem => hnot (hσ.mem_embedded.mpr hmem)) (σ v) (hσ.lt hv)
    (hσ.beside.mp hbeside) (σ e) (hσ.mem_embedded.mp he) (σ f) (hσ.mem_embedded.mp hf)
    (hσ.nearest.mp hue) (hσ.nearest.mp hvf)

/-- Where what is read while placing agrees, placing does not depend on the order. -/
theorem Shuffled.placedAt (hσ : Shuffled σ fragments fragments') {clusters clusters' : List (List ℕ)}
    (h : Partition (embedded fragments) clusters) (h' : Partition (embedded fragments') clusters')
    (ha : ∀ e ∈ embedded fragments', ∀ f,
      assign clusters' e = assign clusters' f ↔ assign clusters (σ e) = assign clusters (σ f))
    (hne : embedded fragments ≠ []) (hne' : embedded fragments' ≠ [])
    (hdiffer : GapsDiffer fragments) (hagree : GapsAgree fragments (assign clusters)) :
    Alike σ fragments.length (placedAt fragments clusters) (Asr.placedAt fragments' clusters') := by
  have hsettled := Settled.place h hne hdiffer hagree
  have hsettled' := Settled.place h' hne' (hσ.gapsDiffer hdiffer) (hσ.gapsAgree ha hagree)
  have hhome : ∀ i < fragments.length, ∃ e ∈ embedded fragments',
      Asr.placedAt fragments' clusters' i = assign clusters' e ∧
        Asr.placedAt fragments clusters (σ i) = assign clusters (σ e) := by
    intro i hi
    obtain ⟨e, he⟩ := exists_home hne' i
    exact ⟨e, he.mem, hsettled'.home (placedAt_nonneg h' hne') (by rwa [hσ.length]) he,
      hsettled.home (placedAt_nonneg h hne) ((hσ.lt_iff i).mpr hi) (hσ.home.mp he)⟩
  intro i hi j hj
  obtain ⟨e, he, hi', hi⟩ := hhome i hi
  obtain ⟨f, -, hj', hj⟩ := hhome j hj
  rw [hi, hi', hj, hj']
  exact ha e he f

/-- Every speaker has an embedded fragment. -/
theorem Settled.exists_embedded {clusters : List (List ℕ)}
    (h : Partition (Asr.embedded fragments) clusters) (hne : Asr.embedded fragments ≠ [])
    (hsettled : Settled fragments (assign clusters) (Asr.placedAt fragments clusters)) {i : ℕ}
    (hi : i < fragments.length) : ∃ e ∈ Asr.embedded fragments,
      Asr.placedAt fragments clusters e = Asr.placedAt fragments clusters i := by
  obtain ⟨e, he⟩ := exists_home hne i
  refine ⟨e, he.mem, ?_⟩
  rw [hsettled.embedded e he.mem, hsettled.home (placedAt_nonneg h hne) hi he]

/-! ## Speech and sums -/

theorem Shuffled.sum_eq (hσ : Shuffled σ fragments fragments') (p p' : ℕ → Prop) [DecidablePred p]
    [DecidablePred p'] (hp : ∀ i < fragments.length, p' i ↔ p (σ i)) :
    ∑ i ∈ range fragments'.length with p' i, Asr.speechAt fragments' i =
      ∑ i ∈ range fragments.length with p i, Asr.speechAt fragments i := by
  apply sum_nbij σ
  · intro i hi
    simp only [mem_filter, mem_range] at hi ⊢
    exact ⟨hσ.lt hi.1, (hp i (by rw [← hσ.length]; exact hi.1)).mp hi.2⟩
  · exact σ.injective.injOn
  · intro j hj
    simp only [coe_filter, mem_range, Set.mem_ofPred_eq] at hj
    obtain ⟨i, hi, rfl⟩ := hσ.exists_lt hj.1
    refine ⟨i, ?_, rfl⟩
    simp only [coe_filter, mem_range, Set.mem_ofPred_eq]
    exact ⟨hi, (hp i (by rwa [← hσ.length])).mpr hj.2⟩
  · exact fun i _ => hσ.speechAt i

theorem Shuffled.allSpeech (hσ : Shuffled σ fragments fragments') :
    allSpeech fragments' = allSpeech fragments := by
  have hsum := hσ.sum_eq (fun _ => True) (fun _ => True) fun _ _ => Iff.rfl
  rwa [filter_true_of_mem fun _ _ => trivial, filter_true_of_mem fun _ _ => trivial] at hsum

theorem Shuffled.speechOf (hσ : Shuffled σ fragments fragments') {a a' : Assignment}
    (h : Alike σ fragments.length a a') {i : ℕ} (hi : i < fragments.length) :
    speechOf fragments' a' (a' i) = speechOf fragments a (a (σ i)) := by
  rw [speechOf_eq_sum, speechOf_eq_sum]
  exact hσ.sum_eq _ _ fun j hj => h j hj i hi

theorem Shuffled.mem_surviving (hσ : Shuffled σ fragments fragments') {a a' : Assignment}
    (h : Alike σ fragments.length a a') {i : ℕ} (hi : i < fragments.length) :
    a' i ∈ surviving fragments' a' ↔ a (σ i) ∈ surviving fragments a := by
  rw [mem_surviving_iff, mem_surviving_iff, hσ.allSpeech, hσ.speechOf h hi]
  apply and_congr_left'
  rw [mem_speakers, mem_speakers]
  exact iff_of_true ⟨i, by rwa [hσ.length], rfl⟩ ⟨σ i, (hσ.lt_iff i).mpr hi, rfl⟩

theorem Shuffled.exists_old (hσ : Shuffled σ fragments fragments') (a : Assignment)
    {a' : Assignment} {c' : ℤ} (hc : c' ∈ speakers fragments'.length a') : ∃ c, Renamed σ fragments.length a a' c c' := by
  obtain ⟨i, hi, rfl⟩ := mem_speakers.mp hc
  exact ⟨a (σ i), i, by rwa [← hσ.length], rfl, rfl⟩

theorem Shuffled.exists_new (hσ : Shuffled σ fragments fragments') {a : Assignment}
    (a' : Assignment) {c : ℤ} (hc : c ∈ speakers fragments.length a) : ∃ c', Renamed σ fragments.length a a' c c' := by
  obtain ⟨j, hj, rfl⟩ := mem_speakers.mp hc
  obtain ⟨i, hi, rfl⟩ := hσ.exists_lt hj
  exact ⟨a' i, i, by rwa [← hσ.length], rfl, rfl⟩

theorem Shuffled.renamed_surviving (hσ : Shuffled σ fragments fragments') {a a' : Assignment}
    (h : Alike σ fragments.length a a') {c c' : ℤ} (hc : Renamed σ fragments.length a a' c c') :
    c' ∈ surviving fragments' a' ↔ c ∈ surviving fragments a := by
  obtain ⟨i, hi, rfl, rfl⟩ := hc
  exact hσ.mem_surviving h hi

theorem Shuffled.surviving_eq_nil (hσ : Shuffled σ fragments fragments') {a a' : Assignment}
    (h : Alike σ fragments.length a a') :
    surviving fragments' a' = [] ↔ surviving fragments a = [] := by
  rw [List.eq_nil_iff_forall_not_mem, List.eq_nil_iff_forall_not_mem]
  constructor
  · intro hnone c hc
    obtain ⟨c', hrenamed⟩ := hσ.exists_new a' (Asr.mem_surviving hc)
    exact hnone c' ((hσ.renamed_surviving h hrenamed).mpr hc)
  · intro hnone c' hc'
    obtain ⟨c, hrenamed⟩ := hσ.exists_old a (Asr.mem_surviving hc')
    exact hnone c ((hσ.renamed_surviving h hrenamed).mp hc')

end ScribeLocal.Asr
