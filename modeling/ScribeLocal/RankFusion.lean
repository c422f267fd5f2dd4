import ScribeLocal.Tally
import Mathlib.Algebra.Order.BigOperators.Group.List
import Mathlib.Data.Rat.Defs
import Mathlib.Algebra.Order.Field.Rat
import Mathlib.Tactic.Linarith

/-!
# Rank fusion

Several rankings of the same items are fused into one: each ranking gives an item a weight that
depends on its place alone, and the weights of an item add up. What a ranking says beyond its
first places is cut off.
-/
namespace ScribeLocal.RankFusion
open Tally

variable {α : Type*} [DecidableEq α]

/-- Weights of the places 1, 2, and so on. -/
structure Weights where
  weight : ℕ → ℚ
  pos : ∀ n, 0 < weight n
  anti : StrictAnti weight

variable (w : Weights)

/-- A ranking, with the weight of each place. -/
def scored (ranking : List α) : List (α × ℚ) :=
  ranking.zipIdx.map fun x => (x.1, w.weight (x.2 + 1))

/-- The weights of all rankings, summed by item. -/
def fuse (rankings : List (List α)) : List (α × ℚ) := tally (rankings.flatMap (scored w))

/-- What one ranking gives an item. -/
def share (ranking : List α) (a : α) : ℚ :=
  if a ∈ ranking then w.weight (ranking.idxOf a + 1) else 0

def score (rankings : List (List α)) (a : α) : ℚ := (rankings.map fun l => share w l a).sum

/-- Wherever `b` is ranked, `a` is ranked ahead of it. -/
def Ahead (ranking : List α) (a b : α) : Prop :=
  b ∈ ranking → a ∈ ranking ∧ ranking.idxOf a < ranking.idxOf b

variable {w} {ranking : List α} {rankings : List (List α)} {a b : α} {n : ℕ}

omit [DecidableEq α] in
theorem keys_scored : (scored w ranking).map Prod.fst = ranking := by
  unfold scored
  rw [List.map_map]
  exact List.zipIdx_map_fst ..

theorem share_nonneg : 0 ≤ share w ranking a := by
  unfold share
  split
  · exact (w.pos _).le
  · exact le_rfl

theorem total_scored (h : ranking.Nodup) : total (scored w ranking) a = share w ranking a := by
  unfold share
  split
  · rename_i hmem
    apply total_of_mem
    · rwa [keys_scored]
    · have hlt : ranking.idxOf a < ranking.length := List.idxOf_lt_length_iff.mpr hmem
      unfold scored
      rw [List.mem_map]
      refine ⟨(a, ranking.idxOf a), ?_, rfl⟩
      rw [List.mem_zipIdx_iff_getElem?, List.getElem?_eq_getElem hlt, List.getElem_idxOf hlt]
  · rename_i hmem
    apply total_of_notMem
    rwa [keys_scored]

theorem total_flatMap (h : ∀ l ∈ rankings, l.Nodup) :
    total (rankings.flatMap (scored w)) a = score w rankings a := by
  unfold score
  induction rankings with
  | nil => rfl
  | cons l rankings ih =>
    rw [List.flatMap_cons, List.map_cons, List.sum_cons,
      ← ih fun l' hl' => h l' (List.mem_cons_of_mem _ hl'),
      ← total_scored (h l List.mem_cons_self)]
    unfold total
    rw [List.filter_append, List.map_append, List.sum_append]

/-- The fused ranking lists each item once, with the sum of its shares. -/
theorem mem_fuse (h : ∀ l ∈ rankings, l.Nodup) {v : ℚ} :
    (a, v) ∈ fuse w rankings ↔ (∃ l ∈ rankings, a ∈ l) ∧ v = score w rankings a := by
  unfold fuse
  rw [mem_tally, total_flatMap h, List.map_flatMap]
  simp only [keys_scored, List.mem_flatMap]

theorem nodup_fuse : ((fuse w rankings).map Prod.fst).Nodup := nodup_tally

theorem score_nonneg : 0 ≤ score w rankings a := by
  apply List.sum_nonneg
  intro v hv
  obtain ⟨l, -, rfl⟩ := List.mem_map.mp hv
  exact share_nonneg

theorem score_of_notMem (h : ∀ l ∈ rankings, a ∉ l) : score w rankings a = 0 := by
  apply List.sum_eq_zero
  intro v hv
  obtain ⟨l, hl, rfl⟩ := List.mem_map.mp hv
  exact if_neg (h l hl)

/-! ## Items ranked ahead -/

theorem Ahead.share_le (h : Ahead ranking a b) : share w ranking b ≤ share w ranking a := by
  by_cases hb : b ∈ ranking
  · obtain ⟨ha, hlt⟩ := h hb
    unfold share
    rw [if_pos ha, if_pos hb]
    exact (w.anti (by omega)).le
  · rw [share, if_neg hb]
    exact share_nonneg

theorem Ahead.share_lt (h : Ahead ranking a b) (hb : b ∈ ranking) :
    share w ranking b < share w ranking a := by
  obtain ⟨ha, hlt⟩ := h hb
  unfold share
  rw [if_pos ha, if_pos hb]
  exact w.anti (by omega)

/-- Who is ranked ahead everywhere has the higher score. -/
theorem score_lt (h : ∀ l ∈ rankings, Ahead l a b) (hb : ∃ l ∈ rankings, b ∈ l) :
    score w rankings b < score w rankings a := by
  obtain ⟨l, hl, hmem⟩ := hb
  apply List.sum_lt_sum
  · exact fun l hl => (h l hl).share_le
  · exact ⟨l, hl, (h l hl).share_lt hmem⟩

/-! ## Cutting off -/

theorem idxOf_take (h : a ∈ ranking.take n) : (ranking.take n).idxOf a = ranking.idxOf a := by
  conv_rhs => rw [← List.take_append_drop n ranking]
  exact (List.idxOf_append_of_mem h).symm

theorem Ahead.take (h : Ahead ranking a b) : Ahead (ranking.take n) a b := by
  intro hb
  obtain ⟨ha, hlt⟩ := h (List.mem_of_mem_take hb)
  have hbn : ranking.idxOf b < n := by
    have hlen := List.idxOf_lt_length_iff.mpr hb
    rw [idxOf_take hb, List.length_take] at hlen
    omega
  have hmem : a ∈ ranking.take n := by
    rw [List.mem_take_iff_getElem]
    have hlen := List.idxOf_lt_length_iff.mpr ha
    exact ⟨ranking.idxOf a, by omega, List.getElem_idxOf hlen⟩
  refine ⟨hmem, ?_⟩
  rw [idxOf_take hmem, idxOf_take hb]
  exact hlt

/-- Cutting a ranking off takes from no item more than the weight of the first place that is
cut. -/
theorem share_le_take : share w (ranking.take n) a ≤ share w ranking a ∧
    share w ranking a ≤ share w (ranking.take n) a + w.weight (n + 1) := by
  by_cases hcut : a ∈ ranking.take n
  · have hshare : share w (ranking.take n) a = share w ranking a := by
      unfold share
      rw [if_pos hcut, if_pos (List.mem_of_mem_take hcut), idxOf_take hcut]
    rw [hshare]
    exact ⟨le_rfl, le_add_of_nonneg_right (w.pos _).le⟩
  · rw [show share w (ranking.take n) a = 0 from if_neg hcut, zero_add]
    refine ⟨share_nonneg, ?_⟩
    unfold share
    split
    · rename_i hmem
      apply w.anti.antitone
      have hlen := List.idxOf_lt_length_iff.mpr hmem
      by_contra hlt
      apply hcut
      rw [List.mem_take_iff_getElem]
      exact ⟨ranking.idxOf a, by omega, List.getElem_idxOf hlen⟩
    · exact (w.pos _).le

theorem score_le_take : score w (rankings.map (List.take n)) a ≤ score w rankings a ∧
    score w rankings a ≤
      score w (rankings.map (List.take n)) a + rankings.length * w.weight (n + 1) := by
  unfold score
  induction rankings with
  | nil => simp
  | cons l rankings ih =>
    have hshare : share w (l.take n) a ≤ share w l a ∧
        share w l a ≤ share w (l.take n) a + w.weight (n + 1) := share_le_take
    simp only [List.map_cons, List.sum_cons, List.length_cons, Nat.cast_add, Nat.cast_one]
    constructor
    · exact add_le_add hshare.1 ih.1
    · linarith [ih.2, hshare.2]

end ScribeLocal.RankFusion
