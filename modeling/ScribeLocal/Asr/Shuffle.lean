import ScribeLocal.Asr.InferredCount

/-!
# The fragments in another order

The same fragments listed in another order. What the merge loop reads of them moves along, so
both runs go through the same partitions, under other cluster numbers.
-/
namespace ScribeLocal.Asr
open ScribeLocal.Linkage Finset

variable {K : Type*}

/-- `fragments'` holds at `i` what `fragments` holds at `σ i`. -/
structure Shuffled (σ : Equiv.Perm ℕ) (fragments fragments' : List (Fragment K)) : Prop where
  length : fragments'.length = fragments.length
  lt_iff : ∀ i, σ i < fragments.length ↔ i < fragments.length
  get : ∀ i, fragments'[i]? = fragments[σ i]?

section Reading
variable {σ : Equiv.Perm ℕ} {fragments fragments' : List (Fragment K)}

theorem Shuffled.usableAt (h : Shuffled σ fragments fragments') (i : ℕ) :
    usableAt fragments' i = usableAt fragments (σ i) := by
  rw [Asr.usableAt, Asr.usableAt, h.get]

theorem Shuffled.speechAt (h : Shuffled σ fragments fragments') (i : ℕ) :
    speechAt fragments' i = speechAt fragments (σ i) := by
  rw [Asr.speechAt, Asr.speechAt, h.get]

theorem Shuffled.midAt (h : Shuffled σ fragments fragments') (i : ℕ) :
    midAt fragments' i = midAt fragments (σ i) := by
  rw [Asr.midAt, Asr.midAt, h.get]

theorem Shuffled.mem_embedded (h : Shuffled σ fragments fragments') {i : ℕ} :
    i ∈ embedded fragments' ↔ σ i ∈ embedded fragments := by
  rw [Asr.mem_embedded, Asr.mem_embedded, h.usableAt, h.length, h.lt_iff]

/-- Every position is reached. -/
theorem Shuffled.exists_lt (h : Shuffled σ fragments fragments') {j : ℕ}
    (hj : j < fragments.length) : ∃ i < fragments'.length, σ i = j := by
  refine ⟨σ.symm j, ?_, σ.apply_symm_apply j⟩
  rwa [h.length, ← h.lt_iff, σ.apply_symm_apply]

theorem Shuffled.lt (h : Shuffled σ fragments fragments') {i : ℕ} (hi : i < fragments'.length) :
    σ i < fragments.length := by
  rwa [h.lt_iff, ← h.length]

theorem Shuffled.perm_embedded (h : Shuffled σ fragments fragments') :
    ((embedded fragments').map σ).Perm (embedded fragments) := by
  rw [List.perm_ext_iff_of_nodup ((embedded_nodup _).map σ.injective) (embedded_nodup _)]
  intro f
  rw [List.mem_map]
  constructor
  · rintro ⟨i, hi, rfl⟩
    exact h.mem_embedded.mp hi
  · intro hf
    exact ⟨σ.symm f, h.mem_embedded.mpr (by rwa [σ.apply_symm_apply]), σ.apply_symm_apply f⟩

theorem Shuffled.embedded_length (h : Shuffled σ fragments fragments') :
    (embedded fragments').length = (embedded fragments).length := by
  rw [← h.perm_embedded.length_eq, List.length_map]

theorem Shuffled.embedded_ne_nil (h : Shuffled σ fragments fragments')
    (hne : embedded fragments ≠ []) : embedded fragments' ≠ [] := by
  rw [← List.length_pos_iff_ne_nil, h.embedded_length]
  exact List.length_pos_of_ne_nil hne

theorem Shuffled.embeddedSpeech (h : Shuffled σ fragments fragments') :
    embeddedSpeech fragments' = embeddedSpeech fragments := by
  rw [Asr.embeddedSpeech, Asr.embeddedSpeech, ← (h.perm_embedded.map (Asr.speechAt fragments)).sum_eq,
    List.map_map]
  congr 1
  exact List.map_congr_left fun i _ => h.speechAt i

end Reading

/-! ## Similarities of fragments -/

section Similarity
variable [Field K] [LinearOrder K] (sqrt : K → K)

theorem cosine_comm (a b : List K) : cosine sqrt a b = cosine sqrt b a := by
  by_cases hlength : a.length = b.length
  · have hempty : a.isEmpty = b.isEmpty := by
      rw [Bool.eq_iff_iff, List.isEmpty_iff_length_eq_zero, List.isEmpty_iff_length_eq_zero, hlength]
    have hzip : List.zipWith (· * ·) a b = List.zipWith (· * ·) b a := by
      rw [List.zipWith_comm]
      simp only [mul_comm]
    rw [cosine, cosine, hempty, hlength, hzip, mul_comm (norm sqrt a)]
    simp only [or_comm (a := norm sqrt a ≤ epsilon)]
  · rw [cosine, cosine, if_pos (.inr hlength), if_pos (.inr fun heq => hlength heq.symm)]

/-- The similarity of two fragments. -/
def pairSim (fragments : List (Fragment K)) (f g : ℕ) : K :=
  if f = g then 0
  else
    match usableAt fragments f, usableAt fragments g with
    | some a, some b => cosine sqrt a b
    | _, _ => 0

theorem pairSim_comm (fragments : List (Fragment K)) (f g : ℕ) :
    pairSim sqrt fragments f g = pairSim sqrt fragments g f := by
  rw [pairSim, pairSim]
  simp only [eq_comm (a := f)]
  cases usableAt fragments f <;> cases usableAt fragments g <;> simp [cosine_comm sqrt]

theorem similarity_eq {fragments : List (Fragment K)} {i j : ℕ} (hi : i < (embedded fragments).length)
    (hj : j < (embedded fragments).length) :
    similarity sqrt fragments i j =
      pairSim sqrt fragments (embedded fragments)[i] (embedded fragments)[j] := by
  rw [similarity, pairSim, List.getElem?_eq_getElem hi, List.getElem?_eq_getElem hj,
    Option.bind_some, Option.bind_some]
  simp only [(embedded_nodup fragments).getElem_inj_iff]
  cases usableAt fragments (embedded fragments)[i] with
  | none => simp
  | some a =>
    cases usableAt fragments (embedded fragments)[j] with
    | none => simp
    | some b =>
      dsimp only
      obtain hlt | rfl | hgt := Nat.lt_trichotomy i j
      · rw [if_pos hlt, if_neg hlt.ne]
      · simp
      · rw [if_neg hgt.not_gt, if_pos hgt, if_neg hgt.ne', cosine_comm]

theorem Shuffled.pairSim {σ : Equiv.Perm ℕ} {fragments fragments' : List (Fragment K)}
    (h : Shuffled σ fragments fragments') (f g : ℕ) :
    pairSim sqrt fragments (σ f) (σ g) = pairSim sqrt fragments' f g := by
  rw [Asr.pairSim, Asr.pairSim, h.usableAt, h.usableAt]
  simp only [σ.injective.eq_iff]

/-- The table of the loop holds mean similarities of fragments. -/
theorem Merging.start_linked (fragments : List (Fragment K)) :
    (Merging.start sqrt fragments).Linked (embedded fragments) (Asr.pairSim sqrt fragments) := by
  rw [Merging.start_eq]
  exact .start (embedded_nodup fragments) _ _ fun i j hi hj => similarity_eq sqrt hi hj

end Similarity

/-! ## Two replays -/

/-- Cluster `i` of `r` and cluster `k` of `r'` have the same members. -/
def Replay.Matches (σ : Equiv.Perm ℕ) (r r' : Replay) (i k : ℕ) : Prop :=
  ∀ f, f ∈ r'.members k ↔ σ f ∈ r.members i

/-- Every live cluster of `r` is one of `r'` as well. -/
def Replay.Mirrors (σ : Equiv.Perm ℕ) (n : ℕ) (r r' : Replay) : Prop :=
  ∀ i < n, r.alive i → ∃ k < n, r'.alive k ∧ r.Matches σ r' i k

section Replays
variable {σ : Equiv.Perm ℕ} {n : ℕ} {e e' : List ℕ} {r r' : Replay}

theorem Replay.Matches.left_eq {i j k : ℕ} (hr : r.Sound n e) (hi : i < n) (halive : r.alive i)
    (h : r.Matches σ r' i k) (h' : r.Matches σ r' j k) : i = j := by
  obtain ⟨f, hf⟩ := List.exists_mem_of_ne_nil _ (hr.nonempty i hi halive)
  rw [← σ.apply_symm_apply f, ← h] at hf
  exact hr.apart i j _ ((h _).mp hf) ((h' _).mp hf)

theorem Replay.Matches.right_eq {i j k : ℕ} (hr' : r'.Sound n e') (hj : j < n)
    (halive : r'.alive j) (h : r.Matches σ r' i j) (h' : r.Matches σ r' i k) : j = k := by
  obtain ⟨f, hf⟩ := List.exists_mem_of_ne_nil _ (hr'.nonempty j hj halive)
  exact hr'.apart j k f hf ((h' f).mpr ((h f).mp hf))

/-- Every live cluster of `r'` is one of `r`. -/
theorem Replay.Mirrors.symm (h : r.Mirrors σ n r') (hr : r.Sound n e) (hr' : r'.Sound n e')
    (he : ∀ f, f ∈ e' ↔ σ f ∈ e) {k : ℕ} (hk : k < n) (halive : r'.alive k) :
    ∃ i < n, r.alive i ∧ r.Matches σ r' i k := by
  obtain ⟨f, hf⟩ := List.exists_mem_of_ne_nil _ (hr'.nonempty k hk halive)
  obtain ⟨i, hi⟩ := hr.cover (σ f) ((he f).mp (hr'.inside k f hf).1)
  obtain ⟨-, hlt, hlive⟩ := hr.inside i _ hi
  obtain ⟨l, -, -, hmatches⟩ := h i hlt hlive
  obtain rfl : l = k := hr'.apart l k f ((hmatches f).mpr hi) hf
  exact ⟨i, hlt, hlive, hmatches⟩

/-- The same two clusters joined on both sides. -/
theorem Replay.Mirrors.absorb (h : r.Mirrors σ n r') (hr : r.Sound n e) {i j k l : ℕ}
    (hij : i ≠ j) (hkl : k ≠ l) (hi : i < n) (hj : j < n) (hk : k < n) (hlive_i : r.alive i)
    (hlive_j : r.alive j) (hlive_k : r'.alive k)
    (hmatch : r.Matches σ r' i k ∧ r.Matches σ r' j l ∨ r.Matches σ r' i l ∧ r.Matches σ r' j k) :
    (r.absorb (i, j)).Mirrors σ n (r'.absorb (k, l)) := by
  intro x hx hlive
  have hxj : x ≠ j := by
    rintro rfl
    simp [Replay.absorb] at hlive
  by_cases hxi : x = i
  · subst hxi
    refine ⟨k, hk, by simpa [Replay.absorb, hkl] using hlive_k, fun f => ?_⟩
    rw [Replay.mem_absorb hij, Replay.mem_absorb hkl]
    simp only [hij, hkl, ne_eq, not_false_eq_true, true_and]
    obtain ⟨h1, h2⟩ | ⟨h1, h2⟩ := hmatch
    · rw [h1 f, h2 f]
    · rw [h1 f, h2 f, or_comm]
  · have hlive : r.alive x := by simpa [Replay.absorb, hxj] using hlive
    obtain ⟨y, hy, hlive_y, hmatches⟩ := h x hx hlive
    have hyk : y ≠ k := by
      rintro rfl
      obtain ⟨h1, -⟩ | ⟨-, h2⟩ := hmatch
      · exact hxi (hmatches.left_eq hr hx hlive h1)
      · exact hxj (hmatches.left_eq hr hx hlive h2)
    have hyl : y ≠ l := by
      rintro rfl
      obtain ⟨-, h2⟩ | ⟨h1, -⟩ := hmatch
      · exact hxj (hmatches.left_eq hr hx hlive h2)
      · exact hxi (hmatches.left_eq hr hx hlive h1)
    refine ⟨y, hy, by simpa [Replay.absorb, hyl] using hlive_y, fun f => ?_⟩
    rw [Replay.mem_absorb hij, Replay.mem_absorb hkl]
    simp only [hxi, hyk, hxj, hyl, ne_eq, not_false_eq_true, true_and, false_and, or_false]
    exact hmatches f

/-- Matching clusters list the same fragments. -/
theorem Replay.Matches.perm {i k : ℕ} (h : r.Matches σ r' i k) (hr : r.Sound n e)
    (hr' : r'.Sound n e') : ((r'.members k).map σ).Perm (r.members i) := by
  rw [List.perm_ext_iff_of_nodup ((hr'.nodup k).map σ.injective) (hr.nodup i)]
  intro f
  rw [List.mem_map]
  constructor
  · rintro ⟨g, hg, rfl⟩
    exact (h g).mp hg
  · intro hf
    exact ⟨σ.symm f, (h _).mpr (by rwa [σ.apply_symm_apply]), σ.apply_symm_apply f⟩

/-- What depends only on the members is the same over both lists of clusters. -/
theorem Replay.Mirrors.map_perm {β : Type*} {g g' : List ℕ → β} (h : r.Mirrors σ n r')
    (hr : r.Sound n e) (hr' : r'.Sound n e') (he : ∀ f, f ∈ e' ↔ σ f ∈ e)
    (hg : ∀ i k, r.Matches σ r' i k → g' (r'.members k) = g (r.members i)) :
    ((r'.clusters n).map g').Perm ((r.clusters n).map g) := by
  have hback : ∀ k, k < n ∧ r'.alive k → ∃ i, (i < n ∧ r.alive i) ∧ r.Matches σ r' i k := by
    rintro k ⟨hk, halive⟩
    obtain ⟨i, hi, hlive, hmatches⟩ := h.symm hr hr' he hk halive
    exact ⟨i, ⟨hi, hlive⟩, hmatches⟩
  choose! φ hφ hmatches using hback
  have hmem : ∀ {a : ℕ → Bool} {k : ℕ}, k ∈ (List.range n).filter a ↔ k < n ∧ a k := by
    simp
  have hperm : (((List.range n).filter r'.alive).map φ).Perm ((List.range n).filter r.alive) := by
    rw [List.perm_ext_iff_of_nodup _ (List.nodup_range.filter _)]
    · intro i
      rw [List.mem_map, hmem]
      constructor
      · rintro ⟨k, hk, rfl⟩
        exact hφ k (hmem.mp hk)
      · rintro ⟨hi, hlive⟩
        obtain ⟨k, hk, halive, hik⟩ := h i hi hlive
        exact ⟨k, hmem.mpr ⟨hk, halive⟩,
          (hik.left_eq hr hi hlive (hmatches k ⟨hk, halive⟩)).symm⟩
    · apply List.Nodup.map_on _ (List.nodup_range.filter _)
      intro k hk l hl heq
      have hkl := hmatches l (hmem.mp hl)
      rw [← heq] at hkl
      exact (hmatches k (hmem.mp hk)).right_eq hr' (hmem.mp hk).1 (hmem.mp hk).2 hkl
  rw [Replay.clusters, Replay.clusters, List.map_map, List.map_map]
  refine .trans (.of_eq ?_) (hperm.map _)
  rw [List.map_map]
  apply List.map_congr_left
  intro k hk
  exact hg _ _ (hmatches k (hmem.mp hk))

end Replays

/-! ## Two runs of the loop -/

section Loop
variable [Field K] [LinearOrder K]

/-- No two pairs of live clusters are equally alike. -/
def Merging.Distinct (n : ℕ) (s : Merging K) : Prop :=
  ∀ p ∈ livePairs n s.alive, ∀ q ∈ livePairs n s.alive, s.sim p.1 p.2 = s.sim q.1 q.2 → p = q

instance (n : ℕ) (s : Merging K) : Decidable (s.Distinct n) :=
  inferInstanceAs (Decidable (∀ p ∈ livePairs n s.alive, ∀ q ∈ livePairs n s.alive, _ → p = q))

omit [LinearOrder K] in
theorem Merging.Linked.sim_comm {e : List ℕ} {w : ℕ → ℕ → K} {s : Merging K}
    (hw : ∀ a b, w a b = w b a) (h : s.Linked e w) {i j : ℕ} (hi : i < e.length) (hj : j < e.length)
    (hij : i ≠ j) (hlive_i : s.alive i) (hlive_j : s.alive j) : s.sim i j = s.sim j i := by
  rw [h.sim i hi j hj hij hlive_i hlive_j, h.sim j hj i hi hij.symm hlive_j hlive_i]
  exact mean_comm fun a _ b _ => hw a b

/-- The best pair is best whichever way round the others are read. -/
theorem Merging.Linked.le_best {e : List ℕ} {w : ℕ → ℕ → K} {s : Merging K} {p : ℕ × ℕ}
    (hw : ∀ a b, w a b = w b a) (h : s.Linked e w) (hp : s.best e.length = some p) {i j : ℕ}
    (hi : i < e.length) (hj : j < e.length) (hij : i ≠ j) (hlive_i : s.alive i)
    (hlive_j : s.alive j) : s.sim i j ≤ s.sim p.1 p.2 := by
  rw [Merging.best_eq] at hp
  obtain hlt | hgt := Nat.lt_or_gt_of_ne hij
  · exact le_closestPair hp hlt hj hlive_i hlive_j
  · rw [h.sim_comm hw hi hj hij hlive_i hlive_j]
    exact le_closestPair hp hgt hi hlive_j hlive_i

omit [LinearOrder K] in
/-- Matching clusters are equally alike. -/
theorem Merging.Linked.sim_matches {σ : Equiv.Perm ℕ} {e e' : List ℕ} {w w' : ℕ → ℕ → K}
    {s s' : Merging K} (h : s.Linked e w) (h' : s'.Linked e' w')
    (hw : ∀ f g, w (σ f) (σ g) = w' f g) {i j k l : ℕ} (hi : i < e.length) (hj : j < e.length)
    (hk : k < e'.length) (hl : l < e'.length) (hij : i ≠ j) (hkl : k ≠ l) (hlive_i : s.alive i)
    (hlive_j : s.alive j) (hlive_k : s'.alive k) (hlive_l : s'.alive l)
    (hik : (replayOf e s.history).Matches σ (replayOf e' s'.history) i k)
    (hjl : (replayOf e s.history).Matches σ (replayOf e' s'.history) j l) :
    s.sim i j = s'.sim k l := by
  have himage : ∀ {x y}, (replayOf e s.history).Matches σ (replayOf e' s'.history) x y →
      ((replayOf e s.history).members x).toFinset =
        ((replayOf e' s'.history).members y).toFinset.image σ := by
    intro x y hxy
    ext f
    rw [mem_image, List.mem_toFinset]
    constructor
    · intro hf
      refine ⟨σ.symm f, List.mem_toFinset.mpr ((hxy _).mpr ?_), σ.apply_symm_apply f⟩
      rwa [σ.apply_symm_apply]
    · rintro ⟨g, hg, rfl⟩
      exact (hxy g).mp (List.mem_toFinset.mp hg)
  rw [h.sim i hi j hj hij hlive_i hlive_j, h'.sim k hk l hl hkl hlive_k hlive_l, himage hik,
    himage hjl]
  exact mean_image σ.injective.injOn fun f _ g _ => hw f g

/-- Two runs that went through the same partitions at the same costs. -/
structure Merging.Mirrored (σ : Equiv.Perm ℕ) (fragments fragments' : List (Fragment K))
    (s s' : Merging K) : Prop where
  replays : ∀ k, (replayed fragments (s.history.take k)).Mirrors σ (embedded fragments).length
    (replayed fragments' (s'.history.take k))
  costs : s'.history.map (fun m => (m.live, m.sim)) = s.history.map fun m => (m.live, m.sim)
  people : s'.peopleMerges = s.peopleMerges

variable {σ : Equiv.Perm ℕ} {fragments fragments' : List (Fragment K)} {s s' : Merging K}

omit [Field K] [LinearOrder K] in
theorem Merging.Mirrored.length (h : s.Mirrored σ fragments fragments' s') :
    s'.history.length = s.history.length := by
  simpa using congrArg List.length h.costs

omit [Field K] [LinearOrder K] in
theorem Merging.Mirrored.last (h : s.Mirrored σ fragments fragments' s') :
    (replayed fragments s.history).Mirrors σ (embedded fragments).length
      (replayed fragments' s'.history) := by
  have hlast := h.replays s.history.length
  rwa [List.take_length, ← h.length, List.take_length] at hlast

variable (sqrt : K → K)

theorem Merging.start_mirrored (hσ : Shuffled σ fragments fragments') :
    (Merging.start sqrt fragments).Mirrored σ fragments fragments'
      (Merging.start sqrt fragments') where
  replays k := by
    rw [show (Merging.start sqrt fragments).history = [] from rfl,
      show (Merging.start sqrt fragments').history = [] from rfl, List.take_nil]
    intro i hi _
    have hmem : σ.symm (embedded fragments)[i] ∈ embedded fragments' := by
      rw [hσ.mem_embedded, σ.apply_symm_apply]
      exact List.getElem_mem hi
    obtain ⟨k, hk, heq⟩ := List.mem_iff_getElem.mp hmem
    refine ⟨k, by rwa [← hσ.embedded_length], rfl, fun f => ?_⟩
    simp [replayed, Replay.start, List.getElem?_eq_getElem hi, List.getElem?_eq_getElem hk, heq,
      Equiv.eq_symm_apply]
  costs := rfl
  people := rfl

/-- Without a tie both runs merge the same two clusters, at the same cost. -/
theorem Merging.Mirrored.best (hσ : Shuffled σ fragments fragments')
    (h : s.Mirrored σ fragments fragments' s')
    (hs : s.Linked (embedded fragments) (pairSim sqrt fragments))
    (hs' : s'.Linked (embedded fragments') (pairSim sqrt fragments'))
    (hd : s.Distinct (embedded fragments).length) {i j k l : ℕ}
    (hp : s.best (embedded fragments).length = some (i, j))
    (hp' : s'.best (embedded fragments').length = some (k, l)) :
    ((replayed fragments s.history).Matches σ (replayed fragments' s'.history) i k ∧
        (replayed fragments s.history).Matches σ (replayed fragments' s'.history) j l ∨
      (replayed fragments s.history).Matches σ (replayed fragments' s'.history) i l ∧
        (replayed fragments s.history).Matches σ (replayed fragments' s'.history) j k) ∧
      s'.sim k l = s.sim i j := by
  obtain ⟨hij, hj, hlive_i, hlive_j⟩ := Merging.best_spec hp
  obtain ⟨hkl, hl, hlive_k, hlive_l⟩ := Merging.best_spec hp'
  dsimp only at hij hj hlive_i hlive_j hkl hl hlive_k hlive_l
  have hlength := hσ.embedded_length
  have hr : (replayed fragments s.history).Sound (embedded fragments).length _ := hs.sound
  have hr' : (replayed fragments' s'.history).Sound (embedded fragments').length _ := hs'.sound
  have halive : s.alive = (replayed fragments s.history).alive := hs.alive
  have halive' : s'.alive = (replayed fragments' s'.history).alive := hs'.alive
  -- The best pair of the first run is a pair of the second, so no better than its best.
  have hle : s.sim i j ≤ s'.sim k l := by
    obtain ⟨x, hx, hlive_x, hix⟩ := h.last i (by omega) (by rwa [← halive])
    obtain ⟨y, hy, hlive_y, hjy⟩ := h.last j hj (by rwa [← halive])
    have hxy : x ≠ y := by
      rintro rfl
      exact hij.ne (hix.left_eq hr (by omega) (by rwa [← halive]) hjy)
    rw [← halive'] at hlive_x hlive_y
    rw [hs.sim_matches hs' (hσ.pairSim sqrt) (by omega) hj (by omega) (by omega) hij.ne hxy
      hlive_i hlive_j hlive_x hlive_y hix hjy]
    exact hs'.le_best (pairSim_comm sqrt _) hp' (by omega) (by omega) hxy hlive_x hlive_y
  obtain ⟨a, ha, hlive_a, hak⟩ := h.last.symm hr (by rwa [hlength] at hr')
    (fun f => hσ.mem_embedded) (k := k) (by omega) (by rwa [← halive'])
  obtain ⟨b, hb, hlive_b, hbl⟩ := h.last.symm hr (by rwa [hlength] at hr')
    (fun f => hσ.mem_embedded) (k := l) (by omega) (by rwa [← halive'])
  rw [← halive] at hlive_a hlive_b
  have hab : a ≠ b := by
    rintro rfl
    exact hkl.ne (hak.right_eq hr' (by omega) (by rwa [← halive']) hbl)
  have hsim := hs.sim_matches hs' (hσ.pairSim sqrt) ha hb (by omega) hl hab hkl.ne hlive_a hlive_b
    hlive_k hlive_l hak hbl
  have hle' := hs.le_best (pairSim_comm sqrt _) hp ha hb hab hlive_a hlive_b
  have heq : s.sim a b = s.sim i j := le_antisymm hle' (hle.trans_eq hsim.symm)
  refine ⟨?_, hsim.symm.trans heq⟩
  have hbest : (i, j) ∈ livePairs _ s.alive := mem_livePairs.mpr ⟨hij, hj, hlive_i, hlive_j⟩
  obtain hlt | hgt := Nat.lt_or_gt_of_ne hab
  · obtain ⟨rfl, rfl⟩ := Prod.mk.inj
      (hd (a, b) (mem_livePairs.mpr ⟨hlt, hb, hlive_a, hlive_b⟩) (i, j) hbest heq)
    exact .inl ⟨hak, hbl⟩
  · rw [hs.sim_comm (pairSim_comm sqrt _) ha hb hab hlive_a hlive_b] at heq
    obtain ⟨rfl, rfl⟩ := Prod.mk.inj
      (hd (b, a) (mem_livePairs.mpr ⟨hgt, ha, hlive_b, hlive_a⟩) (i, j) hbest heq)
    exact .inr ⟨hbl, hak⟩

omit [Field K] [LinearOrder K] in
theorem Shuffled.clusterSpeech {r r' : Replay} {n : ℕ} {e e' : List ℕ}
    (hσ : Shuffled σ fragments fragments') (hr : r.Sound n e) (hr' : r'.Sound n e') {i k : ℕ}
    (h : r.Matches σ r' i k) :
    clusterSpeech fragments' (r'.members k) = clusterSpeech fragments (r.members i) := by
  rw [Asr.clusterSpeech, Asr.clusterSpeech, ← ((h.perm hr hr').map (Asr.speechAt fragments)).sum_eq,
    List.map_map]
  congr 1
  exact List.map_congr_left fun f _ => hσ.speechAt f

theorem Merging.Mirrored.join {live : ℕ} (hσ : Shuffled σ fragments fragments')
    (h : s.Mirrored σ fragments fragments' s')
    (hs : s.Linked (embedded fragments) (pairSim sqrt fragments))
    (hs' : s'.Linked (embedded fragments') (pairSim sqrt fragments'))
    (hf : s.Follows fragments) (hf' : s'.Follows fragments')
    (hd : s.Distinct (embedded fragments).length) {p q : ℕ × ℕ}
    (hp : s.best (embedded fragments).length = some p)
    (hq : s'.best (embedded fragments').length = some q) :
    (s.join (embedded fragments).length (embeddedSpeech fragments) live p).Mirrored σ
      fragments fragments'
      (s'.join (embedded fragments').length (embeddedSpeech fragments') live q) := by
  obtain ⟨i, j⟩ := p
  obtain ⟨k, l⟩ := q
  obtain ⟨hij, hj, hlive_i, hlive_j⟩ := Merging.best_spec hp
  obtain ⟨hkl, hl, hlive_k, hlive_l⟩ := Merging.best_spec hq
  dsimp only at hij hj hlive_i hlive_j hkl hl hlive_k hlive_l
  have hlength := hσ.embedded_length
  obtain ⟨hmatch, hsim⟩ := h.best sqrt hσ hs hs' hd hp hq
  have hr : (replayed fragments s.history).Sound (embedded fragments).length _ := hs.sound
  have hr' : (replayed fragments' s'.history).Sound (embedded fragments').length _ := hs'.sound
  rw [hlength] at hr'
  have hhistory : (s.join (embedded fragments).length (embeddedSpeech fragments) live
    (i, j)).history = s.history ++ [⟨live, s.sim i j, (i, j)⟩] := rfl
  have hhistory' : (s'.join (embedded fragments').length (embeddedSpeech fragments') live
    (k, l)).history = s'.history ++ [⟨live, s'.sim k l, (k, l)⟩] := rfl
  constructor
  · intro t
    rw [hhistory, hhistory']
    by_cases ht : t ≤ s.history.length
    · rw [List.take_append_of_le_length ht, List.take_append_of_le_length (by rwa [h.length])]
      exact h.replays t
    · have hlast := h.length
      rw [List.take_of_length_le (by simp; omega), List.take_of_length_le (by simp; omega),
        replayed_concat, replayed_concat]
      exact h.last.absorb hr hij.ne hkl.ne (by omega) hj (by omega) (by rwa [← hf.alive])
        (by rwa [← hf.alive]) (by rwa [← hf'.alive]) hmatch
  · rw [hhistory, hhistory', List.map_append, List.map_append, h.costs]
    simp [hsim]
  · have hpeople : (Asr.substantial (embeddedSpeech fragments') (s'.speech k) &&
        Asr.substantial (embeddedSpeech fragments') (s'.speech l)) =
          (Asr.substantial (embeddedSpeech fragments) (s.speech i) &&
            Asr.substantial (embeddedSpeech fragments) (s.speech j)) := by
      rw [hσ.embeddedSpeech, hf'.speech k hlive_k, hf'.speech l hlive_l, hf.speech i hlive_i,
        hf.speech j hlive_j]
      obtain ⟨hik, hjl⟩ | ⟨hil, hjk⟩ := hmatch
      · rw [hσ.clusterSpeech hr hr' hik, hσ.clusterSpeech hr hr' hjl]
      · rw [hσ.clusterSpeech hr hr' hil, hσ.clusterSpeech hr hr' hjk, Bool.and_comm]
    show (if Asr.substantial (embeddedSpeech fragments') (s'.speech k) &&
        Asr.substantial (embeddedSpeech fragments') (s'.speech l) then
          s'.peopleMerges ++ [(s'.history.length, s'.sim k l)] else s'.peopleMerges) = _
    rw [hpeople, h.people, h.length, hsim]
    rfl

variable [CharZero K]

/-- Without a tie at any turn, the two runs stay with each other. -/
theorem Merging.Mirrored.after (hσ : Shuffled σ fragments fragments') {k : ℕ}
    (hk : k < (embedded fragments).length)
    (hd : ∀ t < (embedded fragments).length,
      (Merging.after (embedded fragments).length (embeddedSpeech fragments)
        (Merging.start sqrt fragments) t).Distinct (embedded fragments).length) :
    (Merging.after (embedded fragments).length (embeddedSpeech fragments)
        (Merging.start sqrt fragments) k).Mirrored σ fragments fragments'
      (Merging.after (embedded fragments').length (embeddedSpeech fragments')
        (Merging.start sqrt fragments') k) := by
  have hlength := hσ.embedded_length
  induction k with
  | zero => exact Merging.start_mirrored sqrt hσ
  | succ k ih =>
    have hc := Merging.Counted.after sqrt fragments (k := k) (by omega)
    have hc' := Merging.Counted.after sqrt fragments' (k := k) (by omega)
    have hs := (Merging.start_linked sqrt fragments).after
      (fun a _ b _ => pairSim_comm sqrt _ a b) (embeddedSpeech fragments) k
    have hs' := (Merging.start_linked sqrt fragments').after
      (fun a _ b _ => pairSim_comm sqrt _ a b) (embeddedSpeech fragments') k
    obtain ⟨p, hp⟩ := hc.best_isSome (by omega)
    obtain ⟨q, hq⟩ := hc'.best_isSome (by omega)
    rw [Merging.after, Merging.after, hp, hq]
    dsimp only
    rw [show (embedded fragments').length - k = (embedded fragments).length - k by rw [hlength]]
    exact (ih (by omega)).join sqrt hσ hs hs' hc.follows hc'.follows (hd k (by omega)) hp hq

theorem merging_mirrored (hσ : Shuffled σ fragments fragments') (hne : embedded fragments ≠ [])
    (hd : ∀ t < (embedded fragments).length,
      (Merging.after (embedded fragments).length (embeddedSpeech fragments)
        (Merging.start sqrt fragments) t).Distinct (embedded fragments).length) :
    (merging sqrt fragments).Mirrored σ fragments fragments' (merging sqrt fragments') := by
  have hpos := List.length_pos_of_ne_nil hne
  have hne' := hσ.embedded_ne_nil hne
  rw [merging_eq_after sqrt hne, merging_eq_after sqrt hne',
    show (embedded fragments').length - 1 = (embedded fragments).length - 1 by
      rw [hσ.embedded_length]]
  exact .after sqrt hσ (by omega) hd

end Loop

end ScribeLocal.Asr
