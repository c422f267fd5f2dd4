import ScribeLocal.Asr.MergeSequence

/-!
# The speakers each pass leaves

What placing, folding and refining do to the set of speakers in use.
-/
namespace ScribeLocal.Asr

variable {K : Type*}

/-! ## Speakers in use -/

/-- The speakers that some fragment has. -/
def speakers (m : ℕ) (a : Assignment) : Finset ℤ := (Finset.range m).image a

theorem mem_speakers {m : ℕ} {a : Assignment} {c : ℤ} : c ∈ speakers m a ↔ ∃ i < m, a i = c := by
  simp [speakers]

theorem mem_seen {m : ℕ} {a : Assignment} {c : ℤ} : c ∈ seen m a ↔ c ∈ speakers m a := by
  simp [seen, speakers]

theorem seen_nodup (m : ℕ) (a : Assignment) : (seen m a).Nodup :=
  (List.perm_insertionSort _ _).nodup_iff.mpr (List.nodup_dedup _)

theorem seen_toFinset (m : ℕ) (a : Assignment) : (seen m a).toFinset = speakers m a := by
  ext c
  rw [List.mem_toFinset, mem_seen]

theorem seen_length (m : ℕ) (a : Assignment) : (seen m a).length = (speakers m a).card := by
  rw [← seen_toFinset, List.toFinset_card_of_nodup (seen_nodup m a)]

/-- Renumbering keeps fragments together and apart. -/
theorem card_speakers_renumber (m : ℕ) (a : Assignment) :
    (speakers m (renumber m a)).card = (speakers m a).card := by
  have himage : speakers m (renumber m a) =
      (speakers m a).image fun c => ((seen m a).idxOf c : ℤ) := by
    rw [speakers, speakers, Finset.image_image]
    rfl
  rw [himage, Finset.card_image_of_injOn]
  intro c hc d hd hcd
  have hc : c ∈ seen m a := mem_seen.mpr hc
  exact (List.idxOf_inj hc).mp (Int.ofNat.inj hcd)

/-! ## Assigning the clusters -/

theorem foldl_update (members : List ℕ) (a : Assignment) (v : ℤ) (f : ℕ) :
    members.foldl (fun a fragment => Function.update a fragment v) a f =
      if f ∈ members then v else a f := by
  induction members generalizing a with
  | nil => simp
  | cons g members ih =>
    rw [List.foldl_cons, ih]
    by_cases hmem : f ∈ members
    · simp [hmem]
    · by_cases hfg : f = g
      · simp [hfg]
      · simp [hmem, hfg]

/-- The state of `assign` after the clusters from the `k`-th on. -/
theorem assign_from (clusters : List (List ℕ)) (hnodup : clusters.flatten.Nodup) (k : ℕ)
    (a : Assignment) (f : ℕ) :
    let b := (clusters.zipIdx k).foldl
      (fun a c => c.1.foldl (fun a fragment => Function.update a fragment (c.2 : ℤ)) a) a
    (f ∉ clusters.flatten → b f = a f) ∧
      ∀ i c, clusters[i]? = some c → f ∈ c → b f = (k + i : ℕ) := by
  induction clusters generalizing k a with
  | nil => simp
  | cons members clusters ih =>
    rw [List.flatten_cons, List.nodup_append'] at hnodup
    obtain ⟨-, hnodup, hdis⟩ := hnodup
    obtain ⟨hout, hin⟩ := ih hnodup (k + 1)
      (members.foldl (fun a fragment => Function.update a fragment (k : ℤ)) a)
    constructor
    · intro hf
      rw [List.flatten_cons, List.mem_append, not_or] at hf
      rw [List.zipIdx_cons, List.foldl_cons, hout hf.2, foldl_update, if_neg hf.1]
    · intro i c hi hf
      rw [List.zipIdx_cons, List.foldl_cons]
      cases i with
      | zero =>
        obtain rfl : members = c := by simpa using hi
        rw [hout (hdis hf), foldl_update, if_pos hf]
        rfl
      | succ i =>
        rw [hin i c (by simpa using hi) hf]
        push_cast
        ring

theorem assign_of_mem {e : List ℕ} {clusters : List (List ℕ)} (h : Partition e clusters)
    {i f : ℕ} {c : List ℕ} (hi : clusters[i]? = some c) (hf : f ∈ c) : assign clusters f = i := by
  have hfrom := (assign_from clusters h.nodup 0 (fun _ => -1) f).2 i c hi hf
  rwa [Nat.zero_add] at hfrom

theorem assign_of_notMem {e : List ℕ} {clusters : List (List ℕ)} (h : Partition e clusters)
    {f : ℕ} (hf : f ∉ e) : assign clusters f = -1 :=
  (assign_from clusters h.nodup 0 (fun _ => -1) f).1 fun hmem => hf ((h.mem f).mp hmem)

/-- A fragment is assigned to a cluster exactly when it was embedded. -/
theorem assign_nonneg_iff {e : List ℕ} {clusters : List (List ℕ)} (h : Partition e clusters)
    {f : ℕ} : 0 ≤ assign clusters f ↔ f ∈ e := by
  constructor
  · intro hpos
    by_contra hf
    rw [assign_of_notMem h hf] at hpos
    omega
  · intro hf
    obtain ⟨c, hc, hfc⟩ := List.mem_flatten.mp ((h.mem f).mpr hf)
    obtain ⟨i, hi⟩ := List.mem_iff_getElem?.mp hc
    rw [assign_of_mem h hi hfc]
    omega

theorem assign_eq_iff {e : List ℕ} {clusters : List (List ℕ)} (h : Partition e clusters)
    {i f : ℕ} {c : List ℕ} (hi : clusters[i]? = some c) : assign clusters f = i ↔ f ∈ c := by
  constructor
  · intro hf
    have hmem : f ∈ e := (assign_nonneg_iff h).mp (by omega)
    obtain ⟨d, hd, hfd⟩ := List.mem_flatten.mp ((h.mem f).mpr hmem)
    obtain ⟨k, hk⟩ := List.mem_iff_getElem?.mp hd
    have hki := assign_of_mem h hk hfd
    obtain rfl : k = i := by omega
    rw [hk, Option.some.injEq] at hi
    rwa [← hi]
  · exact assign_of_mem h hi

/-! ## Placing -/

theorem nearestAssigned_spec {fragments : List (Fragment K)} {a : Assignment} {i : ℕ} {c : ℤ}
    (h : nearestAssigned fragments a i = some c) : ∃ j < fragments.length, 0 ≤ a j ∧ a j = c := by
  obtain ⟨j, hj, rfl⟩ := Option.map_eq_some_iff.mp h
  have hmem := List.argmin_mem hj
  simp only [List.mem_filter, List.mem_range, decide_eq_true_eq] at hmem
  exact ⟨j, hmem.1, hmem.2, rfl⟩

theorem nearestAssigned_isSome {fragments : List (Fragment K)} {a : Assignment} {j : ℕ}
    (hj : j < fragments.length) (hpos : 0 ≤ a j) (i : ℕ) :
    (nearestAssigned fragments a i).isSome := by
  rw [nearestAssigned, Option.isSome_map]
  by_contra hnone
  rw [Option.not_isSome_iff_eq_none, List.argmin_eq_none] at hnone
  have hmem : j ∈ (List.range fragments.length).filter fun i => 0 ≤ a i := by
    simp [hj, hpos]
  rw [hnone] at hmem
  simp at hmem

/-- What is assigned stays assigned, and only speakers of `a` are given out. -/
structure Extends (m : ℕ) (a b : Assignment) : Prop where
  keeps : ∀ i, 0 ≤ a i → b i = a i
  within : ∀ i < m, 0 ≤ b i → ∃ j < m, 0 ≤ a j ∧ b i = a j

theorem Extends.refl (m : ℕ) (a : Assignment) : Extends m a a where
  keeps _ _ := rfl
  within i hi h := ⟨i, hi, h, rfl⟩

theorem placeOne_of_ne {fragments : List (Fragment K)} {a : Assignment} {i k : ℕ} (h : k ≠ i) :
    placeOne fragments a i k = a k := by
  rw [placeOne]
  split
  · rfl
  · exact Function.update_of_ne h _ _

theorem placeOne_of_nonneg {fragments : List (Fragment K)} {a : Assignment} {i : ℕ}
    (h : 0 ≤ a i) : placeOne fragments a i = a := if_pos h

/-- With somebody assigned, a fragment without a speaker gets one that is in use. -/
theorem placeOne_self {fragments : List (Fragment K)} {a : Assignment} {i j : ℕ}
    (h : ¬0 ≤ a i) (hj : j < fragments.length) (hpos : 0 ≤ a j) :
    ∃ k < fragments.length, 0 ≤ a k ∧ placeOne fragments a i i = a k := by
  obtain ⟨c, hc⟩ := Option.isSome_iff_exists.mp (nearestAssigned_isSome hj hpos i)
  obtain ⟨k, hk, hkpos, rfl⟩ := nearestAssigned_spec hc
  refine ⟨k, hk, hkpos, ?_⟩
  rw [placeOne, if_neg h, Function.update_self, hc, Option.getD_some]

theorem Extends.placeOne {fragments : List (Fragment K)} {a b : Assignment} {i j : ℕ}
    (h : Extends fragments.length a b) (hj : j < fragments.length) (hpos : 0 ≤ a j) :
    Extends fragments.length a (Asr.placeOne fragments b i) := by
  by_cases hbi : 0 ≤ b i
  · rwa [placeOne_of_nonneg hbi]
  · have hbj : 0 ≤ b j := by rwa [h.keeps j hpos]
    obtain ⟨k, hk, hbk, hplaced⟩ := placeOne_self hbi hj hbj
    constructor
    · intro l hl
      have hli : l ≠ i := by
        rintro rfl
        exact hbi (by rwa [h.keeps l hl])
      rw [placeOne_of_ne hli, h.keeps l hl]
    · intro l hlt hl
      by_cases hli : l = i
      · subst hli
        rw [hplaced]
        exact h.within k hk hbk
      · rw [placeOne_of_ne hli] at hl ⊢
        exact h.within l hlt hl

/-- The state of `place` after the fragments of `is`. -/
theorem Extends.place_from {fragments : List (Fragment K)} {a b : Assignment} {j : ℕ}
    (h : Extends fragments.length a b) (hj : j < fragments.length) (hpos : 0 ≤ a j)
    (is : List ℕ) :
    Extends fragments.length a (is.foldl (Asr.placeOne fragments) b) ∧
      ∀ i, i ∈ is ∨ 0 ≤ b i → 0 ≤ is.foldl (Asr.placeOne fragments) b i := by
  induction is generalizing b with
  | nil => exact ⟨h, fun i hi => hi.resolve_left List.not_mem_nil⟩
  | cons k is ih =>
    obtain ⟨hextends, hplaced⟩ := ih (h.placeOne (i := k) hj hpos)
    refine ⟨hextends, fun i hi => hplaced i ?_⟩
    by_cases hik : i = k
    · subst hik
      right
      by_cases hbi : 0 ≤ b i
      · rwa [placeOne_of_nonneg hbi]
      · obtain ⟨l, -, hl, heq⟩ := placeOne_self hbi hj (by rwa [h.keeps j hpos])
        rwa [heq]
    · rw [List.mem_cons, or_assoc] at hi
      rw [placeOne_of_ne hik]
      exact hi.resolve_left hik

theorem place_extends {fragments : List (Fragment K)} {a : Assignment} {j : ℕ}
    (hj : j < fragments.length) (hpos : 0 ≤ a j) :
    Extends fragments.length a (place fragments a) ∧
      ∀ i < fragments.length, 0 ≤ place fragments a i := by
  obtain ⟨hextends, hplaced⟩ := (Extends.refl fragments.length a).place_from hj hpos
    (List.range fragments.length)
  exact ⟨hextends, fun i hi => hplaced i (.inl (List.mem_range.mpr hi))⟩

theorem mem_embedded {fragments : List (Fragment K)} {i : ℕ} :
    i ∈ embedded fragments ↔ i < fragments.length ∧ (usableAt fragments i).isSome := by
  simp [embedded]

/-- After placing, the speakers are the clusters of the partition. -/
theorem speakers_placed {fragments : List (Fragment K)} {clusters : List (List ℕ)}
    (h : Partition (embedded fragments) clusters) (hne : embedded fragments ≠ []) :
    speakers fragments.length (place fragments (assign clusters)) =
      (Finset.range clusters.length).image fun (i : ℕ) => (i : ℤ) := by
  obtain ⟨j, hj⟩ := List.exists_mem_of_ne_nil _ hne
  obtain ⟨hextends, hplaced⟩ := place_extends (mem_embedded.mp hj).1 ((assign_nonneg_iff h).mpr hj)
  ext c
  rw [mem_speakers, Finset.mem_image]
  constructor
  · rintro ⟨i, hi, rfl⟩
    obtain ⟨k, hk, hkpos, heq⟩ := hextends.within i hi (hplaced i hi)
    obtain ⟨d, hd, hkd⟩ := List.mem_flatten.mp ((h.mem k).mpr ((assign_nonneg_iff h).mp hkpos))
    obtain ⟨l, hl⟩ := List.mem_iff_getElem?.mp hd
    refine ⟨l, Finset.mem_range.mpr (List.getElem?_eq_some_iff.mp hl).1, ?_⟩
    rw [heq, assign_of_mem h hl hkd]
  · rintro ⟨l, hl, rfl⟩
    have hl : l < clusters.length := Finset.mem_range.mp hl
    obtain ⟨k, hk⟩ := List.exists_mem_of_ne_nil _ (h.nonempty _ (List.getElem_mem hl))
    have hassigned := assign_of_mem h (List.getElem?_eq_getElem hl) hk
    have hke : k ∈ embedded fragments := (assign_nonneg_iff h).mp (by omega)
    refine ⟨k, (mem_embedded.mp hke).1, ?_⟩
    rw [hextends.keeps k (by omega), hassigned]

/-! ## Folding -/

theorem mem_surviving {fragments : List (Fragment K)} {a : Assignment} {c : ℤ}
    (h : c ∈ surviving fragments a) : c ∈ speakers fragments.length a :=
  mem_seen.mp (List.mem_of_mem_filter h)

theorem surviving_nodup (fragments : List (Fragment K)) (a : Assignment) :
    (surviving fragments a).Nodup :=
  (seen_nodup _ _).filter _

/-- How many speakers stand: those that hold enough speech, or all when nobody does. -/
def standing (fragments : List (Fragment K)) (a : Assignment) : ℕ :=
  if (surviving fragments a).isEmpty then (speakers fragments.length a).card
  else (surviving fragments a).length

section Voices
variable [Field K] [LinearOrder K] (sqrt : K → K)

theorem foldTarget_mem {fragments : List (Fragment K)} {a : Assignment} {emb : List K} {c : ℤ}
    (h : foldTarget sqrt fragments a emb = some c) : c ∈ surviving fragments a := by
  obtain ⟨⟨d, s⟩, hd, rfl⟩ := Option.map_eq_some_iff.mp h
  have hmem := List.argmax_mem hd
  obtain ⟨e, he, heq⟩ := List.mem_filterMap.mp hmem
  obtain ⟨centroid, -, hpair⟩ := Option.map_eq_some_iff.mp heq
  obtain rfl : e = d := congrArg Prod.fst hpair
  exact he

/-- Folding leaves the speakers that stand. -/
theorem card_speakers_fold (fragments : List (Fragment K)) (a : Assignment) :
    (speakers fragments.length (foldSlightSpeakers sqrt fragments a)).card =
      standing fragments a := by
  rw [foldSlightSpeakers, standing]
  by_cases hempty : (surviving fragments a).isEmpty
  · simp only [hempty, true_or, if_true]
  · by_cases hall : (surviving fragments a).length = (seen fragments.length a).length
    · simp only [hall, or_true, if_true, hempty, Bool.false_eq_true, if_false]
      rw [seen_length]
    · simp only [hempty, hall, Bool.false_eq_true, or_self, if_false]
      rw [card_speakers_renumber, ← List.toFinset_card_of_nodup (surviving_nodup fragments a)]
      congr 1
      ext c
      rw [mem_speakers, List.mem_toFinset]
      constructor
      · rintro ⟨i, -, rfl⟩
        split
        · assumption
        · cases htarget : (fragments[i]?.bind Fragment.embedding).bind
              (foldTarget sqrt fragments a) with
          | some c =>
            obtain ⟨emb, -, hemb⟩ := Option.bind_eq_some_iff.mp htarget
            exact foldTarget_mem sqrt hemb
          | none =>
            cases hs : surviving fragments a with
            | nil => simp [hs] at hempty
            | cons c cs => simp
      · intro hc
        obtain ⟨i, hi, rfl⟩ := mem_speakers.mp (mem_surviving hc)
        exact ⟨i, hi, if_pos hc⟩

/-! ## Refining -/

/-- The speakers the voice pass gives out. -/
theorem nearestVoice_mem (voices : List (ℤ × List K)) (own : ℤ) (emb : List K) :
    nearestVoice sqrt voices own emb = own ∨
      nearestVoice sqrt voices own emb ∈ voices.map Prod.fst := by
  rw [nearestVoice]
  generalize (-f32Max : K) = least
  induction voices generalizing own least with
  | nil => exact .inl rfl
  | cons v voices ih =>
    rw [List.foldl_cons, List.map_cons, List.mem_cons]
    dsimp only
    split
    · exact (ih own least).imp_right .inr
    · split
      · exact .inr (ih v.1 _)
      · exact (ih own least).imp_right .inr

theorem revoiced_mem {fragments : List (Fragment K)} {a : Assignment} {i : ℕ}
    (hi : i < fragments.length) :
    revoiced sqrt fragments a i ∈ speakers fragments.length a := by
  have hown : a i ∈ speakers fragments.length a := mem_speakers.mpr ⟨i, hi, rfl⟩
  rw [revoiced]
  split
  · exact hown
  · rename_i emb _
    obtain h | h := nearestVoice_mem sqrt (voices sqrt fragments a) (a i) emb
    · rwa [h]
    · obtain ⟨⟨c, v⟩, hv, heq⟩ := List.mem_map.mp h
      obtain ⟨d, hd, hpair⟩ := List.mem_filterMap.mp hv
      obtain ⟨w, -, hw⟩ := Option.map_eq_some_iff.mp hpair
      rw [← heq, ← hw]
      exact mem_seen.mp hd

/-- Where the voice pass leaves each fragment; with fewer than two voices nothing moves. -/
def voiced (fragments : List (Fragment K)) (a : Assignment) : Assignment :=
  if (voices sqrt fragments a).length < 2 then a else revoiced sqrt fragments a

/-- The speakers that the voice pass leaves without a fragment. -/
def emptied (fragments : List (Fragment K)) (a : Assignment) : Finset ℤ :=
  (speakers fragments.length a).filter fun c =>
    ∀ i < fragments.length, voiced sqrt fragments a i ≠ c

theorem card_speakers_refine (fragments : List (Fragment K)) (a : Assignment) :
    (speakers fragments.length (refineAssignment sqrt fragments 1 a)).card =
      (speakers fragments.length (voiced sqrt fragments a)).card := by
  rw [refineAssignment, voiced]
  by_cases hvoices : (voices sqrt fragments a).length < 2
  · simp only [hvoices, if_true]
  · simp only [hvoices, if_false]
    split <;> exact card_speakers_renumber _ _

/-- The voice pass takes away the speakers it empties, and no other. -/
theorem card_speakers_voiced (fragments : List (Fragment K)) (a : Assignment) :
    (speakers fragments.length (voiced sqrt fragments a)).card + (emptied sqrt fragments a).card =
      (speakers fragments.length a).card := by
  have hkept : speakers fragments.length (voiced sqrt fragments a) =
      (speakers fragments.length a).filter fun c =>
        ¬∀ i < fragments.length, voiced sqrt fragments a i ≠ c := by
    ext c
    rw [Finset.mem_filter, mem_speakers]
    push Not
    constructor
    · rintro ⟨i, hi, rfl⟩
      refine ⟨?_, i, hi, rfl⟩
      rw [voiced]
      split
      · exact mem_speakers.mpr ⟨i, hi, rfl⟩
      · exact revoiced_mem sqrt hi
    · exact fun h => h.2
  rw [hkept, emptied, Nat.add_comm, Finset.card_filter_add_card_filter_not]

end Voices

end ScribeLocal.Asr
