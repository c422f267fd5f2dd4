import Mathlib.Tactic

/-!
# Linkages

By average linkage the similarity of two clusters is the mean over the pairs of their members. It
can be carried along while clusters are joined: the mean to a union is the weighted mean of the
means.

A linkage is reducible if a joined cluster is no closer to a third than the nearer of its parts
was. Then joining the closest clusters first joins less and less similar ones.
-/
namespace ScribeLocal.Linkage
open Finset

section Average
variable {α K : Type*} [Field K]

/-- The mean similarity of the pairs with one member in each cluster. -/
def mean (w : α → α → K) (A B : Finset α) : K := (∑ a ∈ A, ∑ b ∈ B, w a b) / (#A * #B)

variable {w : α → α → K} {A B C : Finset α}

@[simp] theorem mean_singleton (w : α → α → K) (a b : α) : mean w {a} {b} = w a b := by
  simp [mean]

theorem mean_comm (hw : ∀ a ∈ A, ∀ b ∈ B, w a b = w b a) : mean w A B = mean w B A := by
  rw [mean, mean, sum_comm, mul_comm]
  congr 1
  exact sum_congr rfl fun b hb => sum_congr rfl fun a ha => hw a ha b hb

/-- The mean to a union is the mean of the means, weighted by size. -/
theorem mean_union [CharZero K] [DecidableEq α] (h : Disjoint A B) (hA : A.Nonempty)
    (hB : B.Nonempty) (C : Finset α) :
    mean w (A ∪ B) C = (mean w A C * #A + mean w B C * #B) / (#A + #B) := by
  have hA' : (#A : K) ≠ 0 := Nat.cast_ne_zero.mpr hA.card_pos.ne'
  have hB' : (#B : K) ≠ 0 := Nat.cast_ne_zero.mpr hB.card_pos.ne'
  have hAB : (#A + #B : K) ≠ 0 := by
    rw [← Nat.cast_add, Nat.cast_ne_zero]
    have := hA.card_pos
    omega
  rw [mean, mean, mean, sum_union h, card_union_of_disjoint h, Nat.cast_add]
  by_cases hC : (#C : K) = 0
  · simp [hC]
  · field_simp

/-- Renaming the members changes no mean. -/
theorem mean_image {β : Type*} [DecidableEq β] {f : α → β} {v : β → β → K}
    (hf : Set.InjOn f (A ∪ B : Set α)) (hw : ∀ a ∈ A, ∀ b ∈ B, v (f a) (f b) = w a b) :
    mean v (A.image f) (B.image f) = mean w A B := by
  have hfA : Set.InjOn f A := hf.mono Set.subset_union_left
  have hfB : Set.InjOn f B := hf.mono Set.subset_union_right
  rw [mean, mean, sum_image hfA, card_image_of_injOn hfA, card_image_of_injOn hfB]
  congr 1
  apply sum_congr rfl
  intro a ha
  rw [sum_image hfB]
  exact sum_congr rfl fun b hb => hw a ha b hb

end Average

/-! ## Reducible linkages -/

theorem weighted_mean_le_max {K : Type*} [Field K] [LinearOrder K] [IsStrictOrderedRing K]
    {a b u v : K} (hu : 0 < u) (hv : 0 < v) : (a * u + b * v) / (u + v) ≤ max a b := by
  rw [div_le_iff₀ (add_pos hu hv)]
  calc a * u + b * v ≤ max a b * u + max a b * v :=
        add_le_add (mul_le_mul_of_nonneg_right (le_max_left a b) hu.le)
          (mul_le_mul_of_nonneg_right (le_max_right a b) hv.le)
    _ = max a b * (u + v) := (mul_add _ _ _).symm

section Reducible
variable {ι K : Type*} [LinearOrder K] {live : Set ι} {i j : ι} {f g : ι → ι → K} {t : K}

/-- What joining `j` to `i` makes of the similarities of the live clusters. -/
structure Reduces (live : Set ι) (i j : ι) (f g : ι → ι → K) : Prop where
  kept : ∀ a ∈ live, ∀ b ∈ live, a ≠ i → b ≠ i → g a b = f a b
  row : ∀ k ∈ live, k ≠ i → k ≠ j → g i k ≤ max (f i k) (f j k)
  column : ∀ k ∈ live, k ≠ i → k ≠ j → g k i = g i k

/-- No two clusters get closer than any were. -/
theorem Reduces.pairwise (h : Reduces live i j f g) (hi : i ∈ live) (hj : j ∈ live)
    (hlive : live.Pairwise fun a b => f a b ≤ t) :
    (live \ {j}).Pairwise fun a b => g a b ≤ t := by
  have hrow : ∀ k ∈ live, k ≠ i → k ≠ j → g i k ≤ t := by
    intro k hk hki hkj
    calc g i k ≤ max (f i k) (f j k) := h.row k hk hki hkj
      _ ≤ t := max_le (hlive hi hk hki.symm) (hlive hj hk hkj.symm)
  rintro a ⟨ha, haj⟩ b ⟨hb, hbj⟩ hab
  by_cases hai : a = i
  · subst hai
    exact hrow b hb hab.symm hbj
  · by_cases hbi : b = i
    · subst hbi
      rw [h.column a ha hai haj]
      exact hrow a ha hai haj
    · rw [h.kept a ha b hb hai hbi]
      exact hlive ha hb hab

/-- Clusters are joined, always two that are closest, each time at the cost in the list. -/
inductive Joins : Set ι → (ι → ι → K) → List K → Prop
  | done (live : Set ι) (f : ι → ι → K) : Joins live f []
  | join {live : Set ι} {i j : ι} {f g : ι → ι → K} {costs : List K} (hi : i ∈ live) (hj : j ∈ live)
    (hij : i ≠ j) (closest : live.Pairwise fun a b => f a b ≤ f i j) (reduces : Reduces live i j f g)
    (rest : Joins (live \ {j}) g costs) : Joins live f (f i j :: costs)

theorem Joins.forall_le {costs : List K} (h : Joins live f costs)
    (hlive : live.Pairwise fun a b => f a b ≤ t) : ∀ c ∈ costs, c ≤ t := by
  induction h with
  | done live f => simp
  | join hi hj hij closest reduces rest ih =>
    intro c hc
    rcases List.mem_cons.mp hc with rfl | hrest
    · exact hlive hi hj hij
    · exact ih (reduces.pairwise hi hj hlive) c hrest

/-- What is joined gets less and less similar. -/
theorem Joins.pairwise_ge {costs : List K} (h : Joins live f costs) : costs.Pairwise (· ≥ ·) := by
  induction h with
  | done live f => exact List.Pairwise.nil
  | join hi hj hij closest reduces rest ih =>
    exact List.pairwise_cons.mpr ⟨rest.forall_le (reduces.pairwise hi hj closest), ih⟩

end Reducible

end ScribeLocal.Linkage
