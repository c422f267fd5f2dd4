import ScribeLocal.Asr.ShuffledVoices

/-!
# The fragments that are placed first

The first two fragments of a list are placed before any other is read. The voice pass reads the
embedded fragments only, so it is the same whatever was placed beside them.
-/
namespace ScribeLocal.Asr
open Finset

variable {K : Type*} {fragments : List (Fragment K)} {clusters : List (List ℕ)}

/-! ## Placing from the front -/

/-- Where zero is kept, it comes first. -/
theorem filter_range_zero {n : ℕ} {p : ℕ → Bool} (hn : 0 < n) (hzero : p 0) :
    (List.range n).filter p = 0 :: ((List.range (n - 1)).map Nat.succ).filter p := by
  obtain ⟨n, rfl⟩ := Nat.exists_eq_add_of_lt hn
  rw [Nat.zero_add, List.range_succ_eq_map, List.filter_cons_of_pos hzero, Nat.add_sub_cancel]

/-- The first fragments are placed without the others. -/
theorem placedAt_front (h : Partition (embedded fragments) clusters)
    (hne : embedded fragments ≠ []) {i k : ℕ} (hi : i < k) (hk : k ≤ fragments.length) :
    placedAt fragments clusters i =
      (List.range k).foldl (placeOne fragments) (assign clusters) i := by
  obtain ⟨e, he⟩ := List.exists_mem_of_ne_nil _ hne
  have helt := (mem_embedded.mp he).1
  have hepos : 0 ≤ assign clusters e := (assign_nonneg_iff h).mpr he
  obtain ⟨hkept, hplaced⟩ :=
    (Extends.refl fragments.length (assign clusters)).place_from helt hepos (List.range k)
  have hlater := fun rest => ((Extends.refl fragments.length
    ((List.range k).foldl (placeOne fragments) (assign clusters))).place_from helt
      (by rwa [hkept.keeps e hepos]) rest).1
  have hrange : List.range fragments.length =
      List.range k ++ (List.range (fragments.length - k)).map (k + ·) := by
    rw [← List.range_add, Nat.add_sub_cancel' hk]
  rw [placedAt, place, hrange, List.foldl_append]
  exact (hlater _).keeps i (hplaced i (.inl (List.mem_range.mpr hi)))

/-- Before anything is placed, the nearest assigned fragment is the nearest embedded one. -/
theorem nearestAssigned_assign (h : Partition (embedded fragments) clusters)
    (hdiffer : GapsDiffer fragments) {i e : ℕ} (hi : i < fragments.length)
    (hnot : i ∉ embedded fragments) (he : Nearest fragments i e) :
    nearestAssigned fragments (assign clusters) i = some (assign clusters e) := by
  have helt := (mem_embedded.mp he.1).1
  have hepos : 0 ≤ assign clusters e := (assign_nonneg_iff h).mpr he.1
  obtain ⟨c, hc⟩ := Option.isSome_iff_exists.mp (nearestAssigned_isSome helt hepos i)
  obtain ⟨j, -, hjpos, rfl, hmin⟩ := nearestAssigned_min hc
  have hj : j ∈ embedded fragments := (assign_nonneg_iff h).mp hjpos
  obtain rfl := hdiffer i hi hnot j hj e he.1 (le_antisymm (hmin e helt hepos) (he.2 j hj))
  exact hc

/-- The first fragment wins where no assigned one is nearer. -/
theorem nearestAssigned_zero {a : Assignment} {i : ℕ} (hpos : 0 < fragments.length) (ha : 0 ≤ a 0)
    (hmin : ∀ k < fragments.length, 0 ≤ a k → gap fragments i 0 ≤ gap fragments i k) :
    nearestAssigned fragments a i = some (a 0) := by
  rw [nearestAssigned, Option.map_eq_some_iff]
  refine ⟨0, List.argmin_eq_some_iff.mpr ⟨?_, ?_, ?_⟩, rfl⟩
  · simp [hpos, ha]
  · intro k hk
    simp only [List.mem_filter, List.mem_range, decide_eq_true_eq] at hk
    exact hmin k hk.1 hk.2
  · intro k _ _
    rw [filter_range_zero hpos (by simpa using ha), List.idxOf_cons_self]
    exact Nat.zero_le _

/-- A fragment that comes first sits with the nearest embedded one. -/
theorem placedAt_zero (h : Partition (embedded fragments) clusters) (hdiffer : GapsDiffer fragments)
    {e : ℕ} (hpos : 0 < fragments.length) (hnot : 0 ∉ embedded fragments)
    (he : Nearest fragments 0 e) : placedAt fragments clusters 0 = assign clusters e := by
  have hunassigned : ¬0 ≤ assign clusters 0 := fun h0 => hnot ((assign_nonneg_iff h).mp h0)
  rw [placedAt_front h (List.ne_nil_of_mem he.1) Nat.zero_lt_one hpos, List.range_one,
    List.foldl_cons, List.foldl_nil, placeOne, if_neg hunassigned, Function.update_self,
    nearestAssigned_assign h hdiffer hpos hnot he, Option.getD_some]

/-- One that comes second and has the first beside it sits where the first does. -/
theorem placedAt_one (h : Partition (embedded fragments) clusters) (hdiffer : GapsDiffer fragments)
    {f : ℕ} (hlength : 1 < fragments.length) (hnot : 1 ∉ embedded fragments)
    (hbeside : Beside fragments 1 0) (hf : Nearest fragments 0 f) :
    placedAt fragments clusters 1 = assign clusters f := by
  have hunassigned : ∀ {i}, i ∉ embedded fragments → ¬0 ≤ assign clusters i :=
    fun hi hpos => hi ((assign_nonneg_iff h).mp hpos)
  set b := placeOne fragments (assign clusters) 0 with hb
  have hzero : b 0 = assign clusters f := by
    rw [hb, placeOne, if_neg (hunassigned hbeside.1), Function.update_self,
      nearestAssigned_assign h hdiffer (by omega) hbeside.1 hf, Option.getD_some]
  have hother : ∀ {k}, k ≠ 0 → b k = assign clusters k := fun hk => placeOne_of_ne hk
  have hnearest : nearestAssigned fragments b 1 = some (b 0) := by
    apply nearestAssigned_zero (by omega)
    · rw [hzero]
      exact (assign_nonneg_iff h).mpr hf.1
    · intro k _ hk
      by_cases hk0 : k = 0
      · rw [hk0]
      · rw [hother hk0] at hk
        exact hbeside.2.2 k ((assign_nonneg_iff h).mp hk)
  rw [placedAt_front h (List.ne_nil_of_mem hf.1) Nat.one_lt_two hlength, List.range_succ,
    List.range_one, List.foldl_append, List.foldl_cons, List.foldl_nil, List.foldl_cons,
    List.foldl_nil, ← hb, placeOne,
    if_neg (by rw [hother one_ne_zero]; exact hunassigned hnot), Function.update_self, hnearest,
    Option.getD_some, hzero]

/-! ## The first cluster -/

theorem absorb_zero {r : Replay} {i j f : ℕ} (hij : i < j) (halive : r.alive 0)
    (hf : f ∈ r.members 0) :
    (r.absorb (i, j)).alive 0 ∧ f ∈ (r.absorb (i, j)).members 0 := by
  have hj : 0 ≠ j := by omega
  constructor
  · simpa [Replay.absorb, hj] using halive
  · exact (Replay.mem_absorb hij.ne).mpr ⟨hj, .inl hf⟩

/-- What absorbs has the lower number, so the first cluster is never absorbed. -/
theorem foldl_absorb_zero {pairs : List (ℕ × ℕ)} (h : ∀ p ∈ pairs, p.1 < p.2) {r : Replay} {f : ℕ}
    (halive : r.alive 0) (hf : f ∈ r.members 0) :
    (pairs.foldl Replay.absorb r).alive 0 ∧ f ∈ (pairs.foldl Replay.absorb r).members 0 := by
  induction pairs generalizing r with
  | nil => exact ⟨halive, hf⟩
  | cons p pairs ih =>
    obtain ⟨halive, hf⟩ := absorb_zero (h p List.mem_cons_self) halive hf
    exact ih (fun q hq => h q (List.mem_cons_of_mem _ hq)) halive hf

/-- Speaker zero is the first of those that stand. -/
theorem surviving_headD {a : Assignment} (ha : ∀ i < fragments.length, 0 ≤ a i)
    (hzero : 0 ∈ surviving fragments a) : (surviving fragments a).headD 0 = 0 := by
  have hsorted : (surviving fragments a).Pairwise (· ≤ ·) :=
    (seen_sorted fragments.length a).filter _
  have hnonneg : ∀ c ∈ surviving fragments a, 0 ≤ c := by
    intro c hc
    obtain ⟨i, hi, rfl⟩ := mem_speakers.mp (mem_surviving hc)
    exact ha i hi
  cases hs : surviving fragments a with
  | nil => rfl
  | cons c cs =>
    rw [hs] at hsorted hnonneg hzero
    obtain rfl | hmem := List.mem_cons.mp hzero
    · rfl
    · exact le_antisymm (List.rel_of_pairwise_cons hsorted hmem) (hnonneg c List.mem_cons_self)

/-! ## What the voice pass reads -/

/-- The embedded fragments keep the speakers of their clusters. -/
theorem placedAt_embedded (h : Partition (embedded fragments) clusters) {e : ℕ}
    (he : e ∈ embedded fragments) : placedAt fragments clusters e = assign clusters e := by
  have hpos : 0 ≤ assign clusters e := (assign_nonneg_iff h).mpr he
  exact (place_extends (mem_embedded.mp he).1 hpos).1.keeps e hpos

variable [Field K] [LinearOrder K] (sqrt : K → K)

theorem voiceOf_congr {a b : Assignment} (h : ∀ e ∈ embedded fragments, a e = b e) (c : ℤ) :
    voiceOf sqrt fragments a c = voiceOf sqrt fragments b c := by
  rw [voiceOf_eq, voiceOf_eq]
  congr 1
  apply List.foldl_ext
  rintro entry ⟨f, i⟩ hf
  have hf := List.mk_mem_zipIdx_iff_getElem?.mp hf
  rw [voiceStep, voiceStep]
  cases husable : f.usable with
  | none => rfl
  | some emb =>
    have hat : usableAt fragments i = some emb := by
      rw [usableAt, hf, Option.bind_some, husable]
    have hi := usableAt_eq_some hat
    dsimp only
    rw [h i hi]

/-- The voices are those of the embedded fragments, by the numbers of their speakers. -/
theorem voices_congr {a b : Assignment} (h : ∀ e ∈ embedded fragments, a e = b e) :
    voices sqrt fragments a = voices sqrt fragments b := by
  have hsorted : ∀ a, ((voices sqrt fragments a).Pairwise fun v w => v.1 ≤ w.1) := by
    intro a
    rw [voices, List.pairwise_filterMap]
    apply (seen_sorted fragments.length a).imp
    intro c d hcd v hv w hw
    obtain ⟨x, -, rfl⟩ := Option.map_eq_some_iff.mp hv
    obtain ⟨y, -, rfl⟩ := Option.map_eq_some_iff.mp hw
    exact hcd
  have hmem : ∀ {a b : Assignment}, (∀ e ∈ embedded fragments, a e = b e) → ∀ {c v},
      (c, v) ∈ voices sqrt fragments a → (c, v) ∈ voices sqrt fragments b := by
    intro a b h c v hv
    have hvoice := ((mem_voices_iff sqrt).mp hv).2
    obtain ⟨e, he, rfl⟩ := (voiceOf_isSome sqrt fragments a c).mp (by rw [hvoice]; rfl)
    rw [mem_voices_iff, mem_speakers, ← voiceOf_congr sqrt h]
    exact ⟨⟨e, (mem_embedded.mp he).1, (h e he).symm⟩, hvoice⟩
  have hperm : (voices sqrt fragments a).Perm (voices sqrt fragments b) := by
    rw [List.perm_ext_iff_of_nodup (.of_map _ (voices_nodup sqrt fragments a))
      (.of_map _ (voices_nodup sqrt fragments b))]
    rintro ⟨c, v⟩
    exact ⟨hmem h, hmem fun e he => (h e he).symm⟩
  apply hperm.eq_of_pairwise _ (hsorted a) (hsorted b)
  rintro ⟨c, v⟩ ⟨d, w⟩ hv hw hcd hdc
  obtain rfl : c = d := le_antisymm hcd hdc
  have hw := ((mem_voices_iff sqrt).mp hw).2
  have hv := ((mem_voices_iff sqrt).mp (hmem h hv)).2
  rw [hv, Option.some.injEq] at hw
  rw [hw]

/-- The voice pass moves the embedded fragments the same way whatever is beside them. -/
theorem revoiced_congr {a b : Assignment} (h : ∀ e ∈ embedded fragments, a e = b e) {e : ℕ}
    (he : e ∈ embedded fragments) :
    revoiced sqrt fragments a e = revoiced sqrt fragments b e := by
  rw [revoiced, revoiced, h e he, voices_congr sqrt h]

/-! ## The first cluster at the cut -/

theorem run_ordered {n : ℕ} {total : ℤ} {s : Merging K} (h : ∀ m ∈ s.history, m.pair.1 < m.pair.2)
    (live : ℕ) : ∀ m ∈ (Merging.run n total live s).history, m.pair.1 < m.pair.2 := by
  fun_induction Merging.run n total live s with
  | case1 live s p hp ih =>
    apply ih
    intro m hm
    obtain hm | hm := List.mem_append.mp hm
    · exact h m hm
    · rw [List.mem_singleton.mp hm]
      exact (Merging.best_spec hp).1
  | case2 live s hp => exact h
  | case3 live s hlast => exact h

/-- A fragment that comes first and is embedded gives its cluster the lowest number. -/
theorem assign_zero (k : ℕ) (hzero : 0 ∈ embedded fragments) :
    assign (replay (embedded fragments).length (merging sqrt fragments).history k
      (embedded fragments)) 0 = 0 := by
  have hpos : 0 < fragments.length := (mem_embedded.mp hzero).1
  have hhead : (embedded fragments)[0]? = some 0 := by
    rw [embedded, filter_range_zero hpos (mem_embedded.mp hzero).2]
    rfl
  have hordered : ∀ p ∈ ((merging sqrt fragments).history.take k).map Merge.pair, p.1 < p.2 := by
    intro p hp
    obtain ⟨m, hm, rfl⟩ := List.mem_map.mp hp
    exact run_ordered (fun m hm => absurd hm List.not_mem_nil) _ m (List.mem_of_mem_take hm)
  have hfirst : (replayed fragments ((merging sqrt fragments).history.take k)).alive 0 ∧
      0 ∈ (replayed fragments ((merging sqrt fragments).history.take k)).members 0 :=
    foldl_absorb_zero hordered rfl (by simp [Replay.start, hhead])
  have hpartition := ((merging_follows sqrt fragments).sound k).partition
  apply assign_of_mem hpartition (i := 0) _ hfirst.2
  rw [Replay.clusters, filter_range_zero (List.length_pos_of_mem hzero) hfirst.1]
  rfl

end ScribeLocal.Asr
