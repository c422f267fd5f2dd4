import ScribeLocal.Asr.StatedCount
import ScribeLocal.Asr.AverageLinkage

/-!
# An inferred speaker count

With no stated count the cut is the smaller of two readings of the merge sequence, stepped back
from while one cluster is far looser than the rest. The first reading is bounded; the second and
the steps are not.
-/
namespace ScribeLocal.Asr
open Finset

variable {K : Type*}

/-! ## Clusters at each point of the merge sequence -/

theorem clusters_length (n : ℕ) (r : Replay) :
    (r.clusters n).length = #{i ∈ Finset.range n | r.alive i} := by
  rw [Replay.clusters, List.length_map, ← List.toFinset_card_of_nodup (List.nodup_range.filter _)]
  congr 1
  ext i
  simp

/-- A cluster that is absorbed is one less. -/
theorem card_update_alive {n j : ℕ} {alive : ℕ → Bool} (hlt : j < n) (halive : alive j) :
    #{i ∈ Finset.range n | Function.update alive j false i} + 1 =
      #{i ∈ Finset.range n | alive i} := by
  have hmem : j ∈ ({i ∈ Finset.range n | alive i} : Finset ℕ) := by simp [hlt, halive]
  have herase : ({i ∈ Finset.range n | Function.update alive j false i} : Finset ℕ) =
      ({i ∈ Finset.range n | alive i} : Finset ℕ).erase j := by
    ext i
    rw [mem_erase, mem_filter, mem_filter]
    by_cases hi : i = j
    · simp [hi]
    · simp [hi]
  rw [herase, Finset.card_erase_add_one hmem]

theorem absorb_length {n : ℕ} {r : Replay} {p : ℕ × ℕ} (hlt : p.2 < n) (halive : r.alive p.2) :
    ((r.absorb p).clusters n).length + 1 = (r.clusters n).length := by
  rw [clusters_length, clusters_length]
  exact card_update_alive hlt halive

variable [Field K] [LinearOrder K]

omit [Field K] in
theorem Merging.best_isSome {n : ℕ} {s : Merging K}
    (h : 2 ≤ #{i ∈ Finset.range n | s.alive i}) : ∃ p, s.best n = some p := by
  rw [← Option.isSome_iff_exists]
  by_contra hnone
  rw [Option.not_isSome_iff_eq_none, Merging.best_eq, closestPair, List.argmax_eq_none] at hnone
  have hpair : ∀ i j, i < j → j < n → s.alive i → s.alive j → False := by
    intro i j hij hj hi hlive
    have hmem := mem_livePairs.mpr (show (i, j).1 < (i, j).2 ∧ _ from ⟨hij, hj, hi, hlive⟩)
    rw [hnone] at hmem
    exact List.not_mem_nil hmem
  obtain ⟨i, hi, j, hj, hne⟩ := one_lt_card.mp h
  simp only [mem_filter, mem_range] at hi hj
  obtain hlt | hgt := Nat.lt_or_gt_of_ne hne
  · exact hpair i j hlt hj.1 hi.2 hj.2
  · exact hpair j i hgt hi.1 hj.2 hi.2

/-- With `live` clusters left, each entry of the history counts the clusters before it. -/
structure Merging.Counted (fragments : List (Fragment K)) (live : ℕ) (s : Merging K) : Prop where
  follows : s.Follows fragments
  length : s.history.length + live = (embedded fragments).length
  entries : ∀ (k : ℕ) (m : Merge K), s.history[k]? = some m →
    m.live + k = (embedded fragments).length
  clusters : ∀ k ≤ s.history.length,
    (replay (embedded fragments).length s.history k (embedded fragments)).length + k =
      (embedded fragments).length

theorem Merging.start_counted (sqrt : K → K) (fragments : List (Fragment K)) :
    (Merging.start sqrt fragments).Counted fragments (embedded fragments).length where
  follows := start_follows sqrt fragments
  length := Nat.zero_add _
  entries k m h := by simp [start] at h
  clusters k hk := by
    obtain rfl : k = 0 := Nat.le_zero.mp hk
    rw [replay_eq, clusters_length]
    simp [start, replayed, Replay.start]

omit [Field K] in
theorem Merging.Counted.best_isSome {fragments : List (Fragment K)} {s : Merging K} {live : ℕ}
    (h : s.Counted fragments live) (hlive : 2 ≤ live) :
    ∃ p, s.best (embedded fragments).length = some p := by
  have hclusters := h.clusters s.history.length le_rfl
  rw [replay_eq, List.take_length, clusters_length, ← h.follows.alive] at hclusters
  have hlength := h.length
  exact Merging.best_isSome (by omega)

theorem Merging.Counted.join {fragments : List (Fragment K)} {s : Merging K} {live : ℕ}
    {p : ℕ × ℕ} (h : s.Counted fragments (live + 1))
    (hp : s.best (embedded fragments).length = some p) :
    (s.join (embedded fragments).length (embeddedSpeech fragments) (live + 1) p).Counted
      fragments live := by
  obtain ⟨hij, hj, hi, hlive⟩ := Merging.best_spec hp
  have hhistory : (s.join (embedded fragments).length (embeddedSpeech fragments) (live + 1)
    p).history = s.history ++ [⟨live + 1, s.sim p.1 p.2, p⟩] := rfl
  have hlength := h.length
  constructor
  · exact h.follows.join (live + 1) hp
  · rw [hhistory, List.length_append, List.length_singleton]
    omega
  · intro k m hk
    rw [hhistory, List.getElem?_append] at hk
    split at hk
    · exact h.entries k m hk
    · rw [List.getElem?_singleton] at hk
      split at hk
      · obtain rfl := Option.some.inj hk
        dsimp only
        omega
      · simp at hk
  · intro k hk
    rw [hhistory, List.length_append, List.length_singleton] at hk
    rw [hhistory, replay_eq]
    obtain hlt | rfl : k ≤ s.history.length ∨ k = s.history.length + 1 := by omega
    · rw [List.take_append_of_le_length hlt]
      exact h.clusters k hlt
    · have hbefore := h.clusters s.history.length le_rfl
      rw [replay_eq, List.take_length] at hbefore
      rw [List.take_of_length_le (by simp), replayed_concat]
      have hafter := absorb_length (r := replayed fragments s.history) hj
        (by rwa [← h.follows.alive])
      dsimp only
      omega

variable (sqrt : K → K)

/-- The loop always finds a pair while two clusters are left. -/
theorem Merging.Counted.after (fragments : List (Fragment K)) {k : ℕ}
    (hk : k < (embedded fragments).length) :
    (Merging.after (embedded fragments).length (embeddedSpeech fragments)
      (Merging.start sqrt fragments) k).Counted fragments ((embedded fragments).length - k) := by
  induction k with
  | zero => exact Merging.start_counted sqrt fragments
  | succ k ih =>
    have hcounted := ih (by omega)
    obtain ⟨live, hlive⟩ : ∃ live, (embedded fragments).length - k = live + 1 :=
      ⟨(embedded fragments).length - k - 1, by omega⟩
    obtain ⟨p, hp⟩ := hcounted.best_isSome (by omega)
    rw [hlive] at hcounted
    rw [Merging.after, hp]
    dsimp only
    rw [hlive, show (embedded fragments).length - (k + 1) = live by omega]
    exact hcounted.join hp

theorem merging_eq_after {fragments : List (Fragment K)} (hne : embedded fragments ≠ []) :
    merging sqrt fragments = Merging.after (embedded fragments).length (embeddedSpeech fragments)
      (Merging.start sqrt fragments) ((embedded fragments).length - 1) := by
  have hpos := List.length_pos_of_ne_nil hne
  have hrun := Merging.run_after (embedded fragments).length (embeddedSpeech fragments)
    (Merging.start sqrt fragments) ((embedded fragments).length - 1) 0 (by omega)
  rwa [Nat.zero_add, Nat.sub_add_cancel hpos] at hrun

theorem merging_counted {fragments : List (Fragment K)} (hne : embedded fragments ≠ []) :
    (merging sqrt fragments).Counted fragments 1 := by
  have hpos := List.length_pos_of_ne_nil hne
  have hcounted := Merging.Counted.after sqrt fragments
    (k := (embedded fragments).length - 1) (by omega)
  rwa [← merging_eq_after sqrt hne, Nat.sub_sub_self hpos] at hcounted

/-! ## The cut -/

/-- The walk refuses no merge while more than the bound are left. -/
theorem chooseCut_bound {n m : ℕ} {accepted : List K} {history : List (Merge K)}
    (hlength : m + history.length + 1 = n)
    (hlive : ∀ (k : ℕ) (e : Merge K), history[k]? = some e → e.live + (m + k) = n) :
    n ≤ chooseCut accepted m history + maxInferredSpeakers := by
  induction history generalizing accepted m with
  | nil =>
    rw [List.length_nil] at hlength
    rw [chooseCut, maxInferredSpeakers]
    omega
  | cons e history ih =>
    obtain ⟨live, sim, pair⟩ := e
    have hhead := hlive 0 ⟨live, sim, pair⟩ rfl
    rw [List.length_cons] at hlength
    rw [chooseCut]
    split
    · rename_i hstop
      dsimp only at hhead
      omega
    · apply ih (by omega)
      intro k e he
      have hnext := hlive (k + 1) e (by simpa using he)
      omega

theorem chooseCut_le (accepted : List K) (m : ℕ) (history : List (Merge K)) :
    chooseCut accepted m history ≤ m + history.length := by
  induction history generalizing accepted m with
  | nil => exact le_rfl
  | cons e history ih =>
    rw [chooseCut, List.length_cons]
    split
    · omega
    · exact (ih _ _).trans (by omega)

/-- The least similar pair of each cluster at a point of the merge sequence. -/
def worstPairs (fragments : List (Fragment K)) (history : List (Merge K)) (k : ℕ) : List K :=
  (replay (embedded fragments).length history k (embedded fragments)).filterMap
    (clusterWorstPair sqrt fragments)

/-- One cluster is far looser than the median one. -/
def FarLooser (worsts : List K) : Prop :=
  minClustersToJudge ≤ worsts.length ∧
    ∃ mid ∈ median worsts, 0 < mid ∧ worsts.foldl min f32Max / mid < cohesionRatio

instance (worsts : List K) : Decidable (FarLooser worsts) := inferInstanceAs (Decidable (_ ∧ _))

theorem judged_eq {α : Type*} (worsts : List K) (x y : α) :
    (if worsts.length < minClustersToJudge then y
      else match median worsts with
        | none => y
        | some mid =>
          if 0 < mid ∧ worsts.foldl min f32Max / mid < cohesionRatio then x else y) =
      if FarLooser worsts then x else y := by
  by_cases hfew : worsts.length < minClustersToJudge
  · rw [if_pos hfew, if_neg fun h : FarLooser worsts => absurd h.1 hfew.not_ge]
  · have hfar : FarLooser worsts ↔
        ∃ mid ∈ median worsts, 0 < mid ∧ worsts.foldl min f32Max / mid < cohesionRatio :=
      and_iff_right (not_lt.mp hfew)
    rw [if_neg hfew]
    cases hmedian : median worsts with
    | none =>
      rw [if_neg]
      rw [hfar, hmedian]
      rintro ⟨mid, hmid, -⟩
      cases hmid
    | some mid =>
      have hmid : FarLooser worsts ↔
          0 < mid ∧ worsts.foldl min f32Max / mid < cohesionRatio := by
        rw [hfar, hmedian]
        simp
      exact if_congr hmid.symm rfl rfl

theorem stepBack_succ (fragments : List (Fragment K)) (history : List (Merge K)) (steps c : ℕ) :
    stepBack sqrt fragments history (steps + 1) (c + 1) =
      if FarLooser (worstPairs sqrt fragments history (c + 1)) then
        stepBack sqrt fragments history steps c
      else c + 1 := by
  rw [stepBack]
  exact judged_eq (worstPairs sqrt fragments history (c + 1)) _ _

theorem stepBack_le (fragments : List (Fragment K)) (history : List (Merge K)) (steps c : ℕ) :
    stepBack sqrt fragments history steps c ≤ c := by
  induction steps generalizing c with
  | zero => exact le_rfl
  | succ steps ih =>
    cases c with
    | zero => exact le_rfl
    | succ c =>
      rw [stepBack_succ]
      split
      · exact (ih c).trans (Nat.le_succ c)
      · exact le_rfl

/-- Stepping back stops at a point or before it where the steps do not reach further, or where
something on the way is not loose. -/
theorem le_stepBack_iff (fragments : List (Fragment K)) (history : List (Merge K))
    (steps : ℕ) {lo c : ℕ} (hpos : 0 < lo) (hle : lo ≤ c) :
    lo ≤ stepBack sqrt fragments history steps c ↔ lo + steps ≤ c ∨
      ∃ k ∈ List.range (c + 1), lo ≤ k ∧ ¬FarLooser (worstPairs sqrt fragments history k) := by
  induction steps generalizing c with
  | zero => exact iff_of_true hle (.inl hle)
  | succ steps ih =>
    cases c with
    | zero => omega
    | succ c =>
      rw [stepBack_succ]
      by_cases hloose : FarLooser (worstPairs sqrt fragments history (c + 1))
      · have hlast (P : ℕ → Prop) (h : ¬P (c + 1)) :
            (∃ k ∈ List.range (c + 1 + 1), P k) ↔ ∃ k ∈ List.range (c + 1), P k := by
          constructor
          · rintro ⟨k, hk, hP⟩
            rw [List.range_succ, List.mem_append, List.mem_singleton] at hk
            rcases hk with hk | rfl
            · exact ⟨k, hk, hP⟩
            · exact absurd hP h
          · rintro ⟨k, hk, hP⟩
            rw [List.mem_range] at hk
            exact ⟨k, List.mem_range.mpr (by omega), hP⟩
        rw [if_pos hloose, hlast _ fun h => h.2 hloose]
        rcases hle.lt_or_eq with hlt | rfl
        · rw [ih (by omega)]
          exact or_congr_left (by omega)
        · apply iff_of_false
          · have hback := stepBack_le sqrt fragments history steps c
            omega
          · rintro (h | ⟨k, hk, hge, -⟩)
            · omega
            · rw [List.mem_range] at hk
              omega
      · rw [if_neg hloose]
        exact iff_of_true hle (.inr ⟨c + 1, by simp, hle, hloose⟩)

theorem discovered_le (s : Merging K) : discovered s ≤ s.history.length := by
  have hmerged := chooseCut_le [] 0 s.history
  rw [Nat.zero_add] at hmerged
  rw [discovered]
  cases choosePeopleCut s.peopleMerges with
  | none => exact hmerged
  | some p => exact (Nat.min_le_right _ _).trans hmerged

theorem cut_none (fragments : List (Fragment K)) :
    cut sqrt fragments none =
      stepBack sqrt fragments (merging sqrt fragments).history maxCohesionSteps
        (discovered (merging sqrt fragments)) := rfl

/-- The clusters at an inferred cut. -/
def inferredClusters (fragments : List (Fragment K)) : List (List ℕ) :=
  replay (embedded fragments).length (merging sqrt fragments).history (cut sqrt fragments none)
    (embedded fragments)

theorem inferredClusters_partition (fragments : List (Fragment K)) :
    Partition (embedded fragments) (inferredClusters sqrt fragments) := by
  rw [inferredClusters, replay_eq]
  exact ((merging_follows sqrt fragments).sound _).partition

theorem inferredClusters_length {fragments : List (Fragment K)} (hne : embedded fragments ≠ []) :
    (inferredClusters sqrt fragments).length + cut sqrt fragments none =
      (embedded fragments).length := by
  apply (merging_counted sqrt hne).clusters
  rw [cut_none]
  exact (stepBack_le sqrt _ _ _ _).trans (discovered_le _)

/-- There are few fragments; or the reading of the merges between people leaves few clusters, and
stepping back does not go on to more: the steps do not reach so far, or a point on the way there has
no cluster far looser than the rest. -/
def Restrained (fragments : List (Fragment K)) : Prop :=
  let n := (embedded fragments).length
  let s := merging sqrt fragments
  n ≤ maxInferredSpeakers ∨
    (∀ p ∈ choosePeopleCut s.peopleMerges, n ≤ p + maxInferredSpeakers) ∧
      (n + maxCohesionSteps ≤ discovered s + maxInferredSpeakers ∨
        ∃ k ∈ List.range (discovered s + 1), n ≤ k + maxInferredSpeakers ∧
          ¬FarLooser (worstPairs sqrt fragments s.history k))

instance (fragments : List (Fragment K)) : Decidable (Restrained sqrt fragments) :=
  inferInstanceAs (Decidable (_ ∨ _))

theorem discovered_bound_iff {fragments : List (Fragment K)} (hne : embedded fragments ≠ []) :
    (embedded fragments).length ≤
        discovered (merging sqrt fragments) + maxInferredSpeakers ↔
      ∀ p ∈ choosePeopleCut (merging sqrt fragments).peopleMerges,
        (embedded fragments).length ≤ p + maxInferredSpeakers := by
  have hcounted := merging_counted sqrt hne
  have hwalk : (embedded fragments).length ≤
      chooseCut [] 0 (merging sqrt fragments).history + maxInferredSpeakers := by
    apply chooseCut_bound
    · rw [← hcounted.length]
      omega
    · intro k e he
      rw [Nat.zero_add]
      exact hcounted.entries k e he
  rw [discovered]
  cases hp : choosePeopleCut (merging sqrt fragments).peopleMerges with
  | none => exact iff_of_true hwalk nofun
  | some p =>
    simp only [Option.elim_some, Option.mem_some_iff, forall_eq']
    omega

/-- The clusters at the cut are few exactly then. -/
theorem inferredClusters_le_iff {fragments : List (Fragment K)} (hne : embedded fragments ≠ []) :
    (inferredClusters sqrt fragments).length ≤ maxInferredSpeakers ↔
      Restrained sqrt fragments := by
  have hlength := inferredClusters_length sqrt hne
  unfold Restrained
  dsimp only
  rw [← discovered_bound_iff sqrt hne]
  by_cases hfew : (embedded fragments).length ≤ maxInferredSpeakers
  · exact iff_of_true (by omega) (.inl hfew)
  · obtain ⟨lo, hlo⟩ := Nat.exists_eq_add_of_lt (not_le.mp hfew)
    have hback := stepBack_le sqrt fragments (merging sqrt fragments).history maxCohesionSteps
      (discovered (merging sqrt fragments))
    rw [cut_none] at hlength
    by_cases hfar : lo + 1 ≤ discovered (merging sqrt fragments)
    · have hiff := le_stepBack_iff sqrt fragments (merging sqrt fragments).history maxCohesionSteps
        lo.succ_pos hfar
      have hcut : (inferredClusters sqrt fragments).length ≤ maxInferredSpeakers ↔
          lo + 1 ≤ stepBack sqrt fragments (merging sqrt fragments).history maxCohesionSteps
            (discovered (merging sqrt fragments)) := by omega
      rw [hcut, hiff, or_iff_right hfew, and_iff_right (by omega)]
      apply or_congr (by omega)
      exact exists_congr fun k => and_congr_right fun _ => and_congr_left fun _ => by omega
    · apply iff_of_false (by omega)
      rintro (h | ⟨h, -⟩) <;> omega

/-! ## The speakers that come back -/

/-- The speakers that folding takes away: they hold too little speech, and somebody does not. -/
def slight (fragments : List (Fragment K)) (a : Assignment) : Finset ℤ :=
  if (surviving fragments a).isEmpty then ∅
  else (speakers fragments.length a).filter (· ∉ surviving fragments a)

omit [Field K] [LinearOrder K] in
theorem card_slight (fragments : List (Fragment K)) (a : Assignment) :
    standing fragments a + (slight fragments a).card = (speakers fragments.length a).card := by
  rw [standing, slight]
  split
  · rw [Finset.card_empty, Nat.add_zero]
  · have hkept : (speakers fragments.length a).filter (· ∈ surviving fragments a) =
        (surviving fragments a).toFinset := by
      ext c
      rw [mem_filter, List.mem_toFinset]
      exact ⟨fun h => h.2, fun h => ⟨mem_surviving h, h⟩⟩
    rw [← List.toFinset_card_of_nodup (surviving_nodup fragments a), ← hkept,
      card_filter_add_card_filter_not]

/-- Every cluster at the cut is a speaker that comes back, is folded or is emptied. -/
theorem card_inferred {fragments : List (Fragment K)} (hne : embedded fragments ≠ []) :
    let placed := placedAt fragments (inferredClusters sqrt fragments)
    (clusterFragments sqrt fragments none).toFinset.card +
        (emptied sqrt fragments (foldSlightSpeakers sqrt fragments placed)).card +
        (slight fragments placed).card =
      (inferredClusters sqrt fragments).length := by
  have hempty : (embedded fragments).isEmpty = false := by simpa using hne
  have hspeakers := congrArg Finset.card
    (speakers_placed (inferredClusters_partition sqrt fragments) hne)
  rw [card_image_of_injective _ Nat.cast_injective, card_range] at hspeakers
  rw [← hspeakers, ← placedAt, ← card_slight, ← card_speakers_fold sqrt, ← card_speakers_voiced]
  simp only [clusterFragments, hempty, Bool.false_eq_true, if_false]
  rw [toFinset_map_range, card_speakers_refine]
  rfl

/-- Thirteen people, the first of them in two takes. -/
def thirteenVoices : List (Fragment ℚ) :=
  ⟨[⟨0, 5000⟩], some ([7 / 25, 24 / 25] ++ List.replicate 12 0), 5000⟩ ::
    (List.range 13).map fun (i : ℕ) =>
      ⟨[⟨(i + 1) * 5000, (i + 2) * 5000⟩],
        some ((List.range 14).map fun j => if i = 0 ∧ j = 0 ∨ i ≠ 0 ∧ j = i + 1 then 1 else 0),
        5000⟩

/-- Twelve people, the first of them in two takes. -/
def twelveVoices : List (Fragment ℚ) :=
  (List.range 13).map fun (i : ℕ) =>
    ⟨[⟨i * 5000, (i + 1) * 5000⟩],
      some ((List.range 12).map fun j => if j = i - 1 then 1 else 0), 5000⟩

end ScribeLocal.Asr
