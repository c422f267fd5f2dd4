import ScribeLocal.Asr.MergeSequence
import ScribeLocal.Linkage

/-!
# The incremental linkage

The merge loop keeps one similarity for each pair of clusters and updates it in place. What it
keeps is the mean over the pairs of fragments, one from each cluster.
-/
namespace ScribeLocal.Asr
open ScribeLocal.Linkage Finset

variable {K : Type*}

/-! ## The loop over any matrix -/

/-- The variables of the loop before its first turn. -/
def Merging.ofMatrix (n : ℕ) (total : ℤ) (w : ℕ → ℕ → K) [One K] (speech : ℕ → ℤ) : Merging K where
  sim := w
  alive _ := true
  size _ := 1
  speech := speech
  history := []
  peopleMerges := []
  substantial := [countSubstantial n total (fun _ => true) speech]

/-- The pairs of live clusters, in the order they are compared. -/
def livePairs (n : ℕ) (alive : ℕ → Bool) : List (ℕ × ℕ) :=
  ((List.range n).flatMap fun i => (List.range' (i + 1) (n - (i + 1))).map fun j => (i, j)).filter
    fun p => alive p.1 && alive p.2

/-- The first of the pairs of live clusters that are most alike. -/
def closestPair [LinearOrder K] (n : ℕ) (alive : ℕ → Bool) (f : ℕ → ℕ → K) : Option (ℕ × ℕ) :=
  (livePairs n alive).argmax fun p => f p.1 p.2

/-- The clusters after the merges of `history`, from the fragments `e` on. -/
def replayOf (e : List ℕ) (history : List (Merge K)) : Replay :=
  (history.map Merge.pair).foldl Replay.absorb (Replay.start e)

theorem replayOf_concat (e : List ℕ) (history : List (Merge K)) (m : Merge K) :
    replayOf e (history ++ [m]) = (replayOf e history).absorb m.pair := by
  simp [replayOf]

variable [Field K] [LinearOrder K]

omit [Field K] in
theorem Merging.best_eq (n : ℕ) (s : Merging K) : s.best n = closestPair n s.alive s.sim := rfl

theorem Merging.start_eq (sqrt : K → K) (fragments : List (Fragment K)) :
    Merging.start sqrt fragments = .ofMatrix (embedded fragments).length (embeddedSpeech fragments)
      (similarity sqrt fragments) fun i => (embedded fragments)[i]?.elim 0 (speechAt fragments) := rfl

/-- The state of the loop after `k` turns. -/
def Merging.after (n : ℕ) (total : ℤ) (s : Merging K) : ℕ → Merging K
  | 0 => s
  | k + 1 =>
    match (Merging.after n total s k).best n with
    | some p => (Merging.after n total s k).join n total (n - k) p
    | none => Merging.after n total s k

omit [Field K] [LinearOrder K] in
theorem mem_livePairs {n : ℕ} {alive : ℕ → Bool} {p : ℕ × ℕ} :
    p ∈ livePairs n alive ↔ p.1 < p.2 ∧ p.2 < n ∧ alive p.1 ∧ alive p.2 := by
  rcases p with ⟨i, j⟩
  simp only [livePairs, List.mem_filter, List.mem_flatMap, List.mem_map, List.mem_range,
    List.mem_range'_1, Bool.and_eq_true, Prod.mk.injEq]
  constructor
  · rintro ⟨⟨i, hi, j, hj, rfl, rfl⟩, halive⟩
    exact ⟨by omega, by omega, halive⟩
  · rintro ⟨hij, hj, halive⟩
    exact ⟨⟨i, by omega, j, by omega, rfl, rfl⟩, halive⟩

omit [Field K] in
/-- No pair of live clusters is more alike than the closest one. -/
theorem le_closestPair {n : ℕ} {alive : ℕ → Bool} {f : ℕ → ℕ → K} {p : ℕ × ℕ}
    (h : closestPair n alive f = some p) {i j : ℕ} (hij : i < j) (hj : j < n) (hi : alive i)
    (hlive : alive j) : f i j ≤ f p.1 p.2 :=
  List.le_of_mem_argmax (f := fun p : ℕ × ℕ => f p.1 p.2)
    (mem_livePairs.mpr (show (i, j).1 < (i, j).2 ∧ _ from ⟨hij, hj, hi, hlive⟩)) h

omit [Field K] in
/-- Only the similarities of live clusters count. -/
theorem closestPair_congr {n : ℕ} {alive : ℕ → Bool} {f g : ℕ → ℕ → K}
    (h : ∀ i j, i < j → j < n → alive i → alive j → f i j = g i j) :
    closestPair n alive f = closestPair n alive g := by
  apply Option.ext
  intro p
  rw [closestPair, closestPair, List.argmax_eq_some_iff, List.argmax_eq_some_iff]
  apply and_congr_right
  intro hp
  have heq : ∀ q ∈ livePairs n alive, f q.1 q.2 = g q.1 q.2 := by
    intro q hq
    obtain ⟨hlt, hn, h1, h2⟩ := mem_livePairs.mp hq
    exact h q.1 q.2 hlt hn h1 h2
  rw [heq p hp]
  apply and_congr <;>
    exact forall₂_congr fun q hq => by rw [heq q hq]

/-! ## What is kept -/

/-- The tables of the loop belong to the clusters that replaying its history gives. -/
structure Merging.Linked (e : List ℕ) (w : ℕ → ℕ → K) (s : Merging K) : Prop where
  alive : s.alive = (replayOf e s.history).alive
  sound : (replayOf e s.history).Sound e.length e
  size : ∀ i < e.length, s.alive i → s.size i = ((replayOf e s.history).members i).length
  sim : ∀ i < e.length, ∀ j < e.length, i ≠ j → s.alive i → s.alive j → s.sim i j =
    mean w ((replayOf e s.history).members i).toFinset ((replayOf e s.history).members j).toFinset

omit [LinearOrder K] in
theorem Merging.Linked.start {e : List ℕ} {w f : ℕ → ℕ → K} (he : e.Nodup) (total : ℤ)
    (speech : ℕ → ℤ) (hf : ∀ i j (hi : i < e.length) (hj : j < e.length), f i j = w e[i] e[j]) :
    (Merging.ofMatrix e.length total f speech).Linked e w where
  alive := rfl
  sound := Replay.start_sound he
  size i hi _ := by
    simp [ofMatrix, replayOf, Replay.start, List.getElem?_eq_getElem hi]
  sim i hi j hj _ _ _ := by
    simp [ofMatrix, replayOf, Replay.start, List.getElem?_eq_getElem hi,
      List.getElem?_eq_getElem hj, hf i j hi hj]

/-- One merge keeps every similarity the mean, though the row it reads is the row it writes. -/
theorem Merging.Linked.join [CharZero K] {e : List ℕ} {w : ℕ → ℕ → K} {s : Merging K} {p : ℕ × ℕ}
    (hw : ∀ a ∈ e, ∀ b ∈ e, w a b = w b a) (h : s.Linked e w) (total : ℤ) (live : ℕ)
    (hp : s.best e.length = some p) : (s.join e.length total live p).Linked e w := by
  obtain ⟨i, j⟩ := p
  obtain ⟨hij, hj, hlive_i, hlive_j⟩ := Merging.best_spec hp
  dsimp only at hij hj hlive_i hlive_j
  have hi : i < e.length := hij.trans hj
  set r := replayOf e s.history with hr
  have hhistory : replayOf e (s.join e.length total live (i, j)).history = r.absorb (i, j) :=
    replayOf_concat e s.history ⟨live, s.sim i j, (i, j)⟩
  have halive : (s.join e.length total live (i, j)).alive = Function.update s.alive j false := rfl
  have hlive : ∀ k, (s.join e.length total live (i, j)).alive k → k ≠ j ∧ s.alive k := by
    intro k hk
    rw [halive, Function.update_apply] at hk
    split at hk
    · simp at hk
    · exact ⟨by assumption, hk⟩
  have hjoined : ((r.absorb (i, j)).members i).toFinset =
      (r.members i).toFinset ∪ (r.members j).toFinset := by
    simp [Replay.absorb]
  have hkept : ∀ k, k ≠ i → k ≠ j → (r.absorb (i, j)).members k = r.members k := by
    intro k hki hkj
    simp [Replay.absorb, hki, hkj]
  have hcard : ∀ k < e.length, s.alive k → s.size k = (#(r.members k).toFinset : K) := by
    intro k hk hlive
    rw [h.size k hk hlive, List.toFinset_card_of_nodup (h.sound.nodup k)]
  have hnonempty : ∀ k < e.length, s.alive k → (r.members k).toFinset.Nonempty := by
    intro k hk hlive
    rw [List.toFinset_nonempty_iff]
    exact h.sound.nonempty k hk (by rwa [← h.alive])
  -- The weighted mean that the update writes is the mean to the joined cluster.
  have hmerged : ∀ k < e.length, s.alive k → k ≠ i → k ≠ j →
      (s.sim i k * s.size i + s.sim j k * s.size j) / (s.size i + s.size j) =
        mean w ((r.absorb (i, j)).members i).toFinset (r.members k).toFinset := by
    intro k hk hlive hki hkj
    have hdisjoint : Disjoint (r.members i).toFinset (r.members j).toFinset := by
      rw [List.disjoint_toFinset_iff_disjoint]
      exact fun f hfi hfj => hij.ne (h.sound.apart i j f hfi hfj)
    rw [hjoined, mean_union hdisjoint (hnonempty i hi hlive_i) (hnonempty j hj hlive_j),
      ← h.sim i hi k hk hki.symm hlive_i hlive, ← h.sim j hj k hk hkj.symm hlive_j hlive,
      ← hcard i hi hlive_i, ← hcard j hj hlive_j]
  constructor
  · rw [hhistory, halive, h.alive]
    rfl
  · rw [hhistory]
    exact h.sound.absorb hij.ne hi (by rwa [← h.alive])
  · intro k hk hk'
    obtain ⟨hkj, hlive⟩ := hlive k hk'
    rw [hhistory]
    show Function.update s.size i (s.size i + s.size j) k = _
    by_cases hki : k = i
    · subst hki
      simp [Replay.absorb, h.size k hi hlive_i, h.size j hj hlive_j, hr]
    · rw [Function.update_of_ne hki, hkept k hki hkj, h.size k hk hlive]
  · intro a ha b hb hab ha' hb'
    obtain ⟨haj, hlive_a⟩ := hlive a ha'
    obtain ⟨hbj, hlive_b⟩ := hlive b hb'
    rw [hhistory]
    by_cases hai : a = i
    · subst hai
      rw [hkept b hab.symm hbj, ← hmerged b hb hlive_b hab.symm hbj]
      simp [Merging.join, hlive_b, hab.symm, hbj]
    · by_cases hbi : b = i
      · subst hbi
        rw [hkept a hab haj, mean_comm, ← hmerged a ha hlive_a hab haj]
        · simp [Merging.join, hlive_a, hab, haj]
        · intro f hf g hg
          rw [List.mem_toFinset] at hf hg
          exact hw f (h.sound.inside a f hf).1 g
            ((h.sound.absorb hij.ne hi (by rwa [← h.alive])).inside b g hg).1
      · rw [hkept a hai haj, hkept b hbi hbj, ← h.sim a ha b hb hab hlive_a hlive_b]
        simp [Merging.join, hai, hbi]

theorem Merging.Linked.after [CharZero K] {e : List ℕ} {w : ℕ → ℕ → K} {s : Merging K}
    (hw : ∀ a ∈ e, ∀ b ∈ e, w a b = w b a) (h : s.Linked e w) (total : ℤ) (k : ℕ) :
    (Merging.after e.length total s k).Linked e w := by
  induction k with
  | zero => exact h
  | succ k ih =>
    rw [Merging.after]
    cases hp : (Merging.after e.length total s k).best e.length with
    | none => exact ih
    | some p => exact ih.join hw total _ hp

/-- The closest pair by the table is the closest pair by the means recomputed. -/
theorem Merging.Linked.best {e : List ℕ} {w : ℕ → ℕ → K} {s : Merging K} (h : s.Linked e w) :
    s.best e.length = closestPair e.length s.alive fun i j =>
      mean w ((replayOf e s.history).members i).toFinset
        ((replayOf e s.history).members j).toFinset := by
  rw [Merging.best_eq]
  apply closestPair_congr
  intro i j hij hj hi hlive
  exact h.sim i (hij.trans hj) j hj hij.ne hi hlive

theorem Merging.after_of_best_eq_none {n : ℕ} {total : ℤ} {s : Merging K} {k : ℕ}
    (h : (Merging.after n total s k).best n = none) (d : ℕ) :
    Merging.after n total s (k + d) = Merging.after n total s k := by
  induction d with
  | zero => rfl
  | succ d ih =>
    show (match (Merging.after n total s (k + d)).best n with
      | some p => _
      | none => Merging.after n total s (k + d)) = _
    rw [ih, h]

/-- The whole loop is its turns one after the other. -/
theorem Merging.run_after (n : ℕ) (total : ℤ) (s : Merging K) (d k : ℕ) (hk : k + d + 1 = n) :
    Merging.run n total (d + 1) (Merging.after n total s k) =
      Merging.after n total s (k + d) := by
  induction d generalizing k with
  | zero => rfl
  | succ d ih =>
    rw [Merging.run]
    cases hp : (Merging.after n total s k).best n with
    | none => exact (Merging.after_of_best_eq_none hp (d + 1)).symm
    | some p =>
      have hturn : Merging.after n total s (k + 1) =
          (Merging.after n total s k).join n total (d + 2) p := by
        rw [Merging.after, hp]
        dsimp only
        rw [show n - k = d + 2 by omega]
      have hrest := ih (k + 1) (by omega)
      rw [hturn, show k + 1 + d = k + (d + 1) by omega] at hrest
      exact hrest

/-! ## The claim about the linkage -/

/-- The similarity that recomputing from the members of the clusters gives. -/
def recomputed (n : ℕ) (w : ℕ → ℕ → K) (history : List (Merge K)) (i j : ℕ) : K :=
  mean w ((replayOf (List.range n) history).members i).toFinset
    ((replayOf (List.range n) history).members j).toFinset

/-- At every turn of the loop the table holds the mean similarities of the live clusters, and the
pair that is merged is the one that recomputing all of them would merge. -/
theorem average_linkage [CharZero K] {n : ℕ} {w : ℕ → ℕ → K}
    (hw : ∀ a < n, ∀ b < n, w a b = w b a) (total : ℤ) (speech : ℕ → ℤ) :
    (∀ k, let s := Merging.after n total (.ofMatrix n total w speech) k
      (∀ i < n, ∀ j < n, i ≠ j → s.alive i → s.alive j →
        s.sim i j = recomputed n w s.history i j) ∧
      s.best n = closestPair n s.alive (recomputed n w s.history) ∧
      ∀ p ∈ s.best n, ∀ i j, i < j → j < n → s.alive i → s.alive j →
        recomputed n w s.history i j ≤ recomputed n w s.history p.1 p.2) ∧
    Merging.run n total n (.ofMatrix n total w speech) =
      Merging.after n total (.ofMatrix n total w speech) (n - 1) := by
  have hlength : (List.range n).length = n := List.length_range
  have hstart : (Merging.ofMatrix n total w speech).Linked (List.range n) w := by
    have h := Merging.Linked.start (w := w) (f := w) List.nodup_range total speech
      (e := List.range n) fun i j hi hj => by simp
    rwa [hlength] at h
  have hw' : ∀ a ∈ List.range n, ∀ b ∈ List.range n, w a b = w b a :=
    fun a ha b hb => hw a (List.mem_range.mp ha) b (List.mem_range.mp hb)
  constructor
  · intro k
    have hlinked := hstart.after hw' total k
    rw [hlength] at hlinked
    have hbest := hlinked.best
    rw [hlength] at hbest
    refine ⟨?_, hbest, ?_⟩
    · intro i hi j hj hij hlive_i hlive_j
      exact hlinked.sim i (by rwa [hlength]) j (by rwa [hlength]) hij hlive_i hlive_j
    · intro p hp i j hij hj hi hlive
      rw [hbest] at hp
      exact le_closestPair hp hij hj hi hlive
  · cases n with
    | zero => rfl
    | succ n =>
      have hrun := Merging.run_after (n + 1) total (.ofMatrix (n + 1) total w speech) n 0 (by omega)
      rwa [Nat.zero_add] at hrun

/-- Four fragments of two voices. -/
def twoPairs : ℕ → ℕ → ℚ
  | 0, 1 | 1, 0 => 9 / 10
  | 2, 3 | 3, 2 => 8 / 10
  | 0, 2 | 2, 0 => 1 / 10
  | _, _ => 3 / 10

theorem average_linkage_twoPairs :
    (Merging.after 4 0 (.ofMatrix 4 0 twoPairs fun _ => 0) 2).sim 0 2 = 1 / 4 ∧
      (Merging.after 4 0 (.ofMatrix 4 0 twoPairs fun _ => 0) 2).sim 0 2 =
        recomputed 4 twoPairs
          (Merging.after 4 0 (.ofMatrix 4 0 twoPairs fun _ => 0) 2).history 0 2 :=
  ⟨by decide +kernel,
    ((average_linkage (by decide +kernel) 0 fun _ => 0).1 2).1 0 (by decide) 2 (by decide) (by decide)
      (by decide +kernel) (by decide +kernel)⟩

end ScribeLocal.Asr
