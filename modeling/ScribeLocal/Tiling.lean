import Mathlib.Tactic

/-!
# Tilings

Consecutive stretches that together make up one.
-/
namespace ScribeLocal.Tiling

variable {α : Type*} [LinearOrder α]

/-- The stretches follow each other without a gap from `lo` to `hi`, and none is empty. -/
def Tiles (lo : α) : List (α × α) → α → Prop
  | [], hi => lo = hi
  | p :: ps, hi => p.1 = lo ∧ p.1 < p.2 ∧ Tiles p.2 ps hi

variable {lo hi x : α} {p : α × α} {ps : List (α × α)}

theorem Tiles.le (h : Tiles lo ps hi) : lo ≤ hi := by
  induction ps generalizing lo with
  | nil =>
    obtain rfl : lo = hi := h
    exact le_rfl
  | cons p ps ih => exact h.1 ▸ h.2.1.le.trans (ih h.2.2)

theorem Tiles.ne_nil (h : Tiles lo ps hi) (hlt : lo < hi) : ps ≠ [] := by
  rintro rfl
  exact hlt.ne h

theorem Tiles.bounds (h : Tiles lo ps hi) (hp : p ∈ ps) : lo ≤ p.1 ∧ p.1 < p.2 ∧ p.2 ≤ hi := by
  induction ps generalizing lo with
  | nil => cases hp
  | cons q ps ih =>
    rcases List.mem_cons.mp hp with rfl | hrest
    · exact ⟨h.1.ge, h.2.1, h.2.2.le⟩
    · obtain ⟨hlow, hlt, hhigh⟩ := ih h.2.2 hrest
      exact ⟨h.1.ge.trans (h.2.1.le.trans hlow), hlt, hhigh⟩

/-- Each point lies in exactly one of the things that stand for the stretches. -/
theorem Tiles.existsUnique_map {β : Type*} {f : β → α × α} {l : List β}
    (h : Tiles lo (l.map f) hi) (hlow : lo ≤ x) (hhigh : x < hi) :
    ∃! b, b ∈ l ∧ (f b).1 ≤ x ∧ x < (f b).2 := by
  induction l generalizing lo with
  | nil =>
    obtain rfl : lo = hi := h
    exact absurd hlow hhigh.not_ge
  | cons q l ih =>
    by_cases hq : x < (f q).2
    · refine ⟨q, ⟨List.mem_cons_self, h.1.symm ▸ hlow, hq⟩, ?_⟩
      rintro b ⟨hb, hstart, -⟩
      rcases List.mem_cons.mp hb with rfl | hrest
      · rfl
      · have hbound := h.2.2.bounds (List.mem_map_of_mem hrest)
        exact absurd hq (hbound.1.trans hstart).not_gt
    · obtain ⟨b, ⟨hb, hin⟩, hunique⟩ := ih h.2.2 (not_lt.mp hq)
      refine ⟨b, ⟨List.mem_cons_of_mem _ hb, hin⟩, ?_⟩
      rintro b' ⟨hb', hin'⟩
      rcases List.mem_cons.mp hb' with rfl | hrest
      · exact absurd hin'.2 hq
      · exact hunique b' ⟨hrest, hin'⟩

/-- Each point lies in exactly one of the stretches. -/
theorem Tiles.existsUnique (h : Tiles lo ps hi) (hlow : lo ≤ x) (hhigh : x < hi) :
    ∃! p, p ∈ ps ∧ p.1 ≤ x ∧ x < p.2 := by
  rw [← List.map_id ps] at h
  exact h.existsUnique_map hlow hhigh

/-- One more stretch at the end. -/
theorem Tiles.concat {stop : α} (h : Tiles lo ps hi) (hlt : hi < stop) :
    Tiles lo (ps ++ [(hi, stop)]) stop := by
  induction ps generalizing lo with
  | nil =>
    obtain rfl : lo = hi := h
    exact ⟨rfl, hlt, rfl⟩
  | cons p ps ih => exact ⟨h.1, h.2.1, ih h.2.2⟩

/-- The steps of a sequence that rises. -/
theorem tiles_range {n : ℕ} {f : ℕ → α} (hf : ∀ i < n, f i < f (i + 1)) :
    Tiles (f 0) ((List.range n).map fun i => (f i, f (i + 1))) (f n) := by
  induction n with
  | zero => rfl
  | succ n ih =>
    rw [List.range_succ, List.map_append, List.map_singleton]
    exact (ih fun i hi => hf i (by omega)).concat (hf n (by omega))

/-- The stretches together are as long as what they tile. -/
theorem Tiles.sum_length {lo hi : ℕ} {ps : List (ℕ × ℕ)} (h : Tiles lo ps hi) :
    lo + (ps.map fun p => p.2 - p.1).sum = hi := by
  induction ps generalizing lo with
  | nil => exact h
  | cons p ps ih =>
    have hrest := ih h.2.2
    obtain ⟨hlow, hlt, -⟩ := h
    rw [List.map_cons, List.sum_cons]
    omega

/-! ## Even steps -/

section Even
variable {len pieces i : ℕ}

theorem div_le_step (len pieces i : ℕ) :
    len * i / pieces + len / pieces ≤ len * (i + 1) / pieces := by
  rw [Nat.mul_succ]
  exact Nat.div_add_div_le_add_div

theorem step_le_div_succ (len i : ℕ) (hpieces : 0 < pieces) :
    len * (i + 1) / pieces ≤ len * i / pieces + len / pieces + 1 := by
  rw [Nat.mul_succ, Nat.add_div hpieces]
  split <;> omega

/-- A step is no longer than a bound that the pieces together reach. -/
theorem step_le {bound : ℕ} (hpieces : 0 < pieces) (hlen : len ≤ pieces * bound) :
    len * (i + 1) / pieces ≤ len * i / pieces + bound :=
  calc len * (i + 1) / pieces ≤ (len * i + pieces * bound) / pieces :=
        Nat.div_le_div_right (by rw [Nat.mul_succ]; omega)
    _ = len * i / pieces + bound := Nat.add_mul_div_left _ _ hpieces

end Even

end ScribeLocal.Tiling
