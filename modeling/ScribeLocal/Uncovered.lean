import Mathlib.Tactic
import Mathlib.Order.Interval.Set.Basic

/-!
# What intervals leave uncovered

One pass over intervals in the order of their starts, with the largest end so far, finds the
maximal stretches of a given one that no interval covers in part.
-/
namespace ScribeLocal.Uncovered

variable {K : Type*} [LinearOrder K]

/-- From the largest end so far to the next start, and from the last end to `hi`. -/
def sweep (lo hi : K) : List (K × K) → List (K × K)
  | [] => [(lo, hi)]
  | w :: ws => (lo, w.1) :: sweep (max lo w.2) hi ws

/-- A stretch of `[lo, hi]` whose inside no interval meets. -/
structure Free (lo hi : K) (ws : List (K × K)) (a b : K) : Prop where
  lo_le : lo ≤ a
  lt : a < b
  le_hi : b ≤ hi
  free : ∀ w ∈ ws, ∀ x ∈ Set.Ioo a b, x ∉ Set.Icc w.1 w.2

/-- It cannot be made longer. -/
structure Maximal (lo hi : K) (ws : List (K × K)) (a b : K) : Prop where
  free : Free lo hi ws a b
  maximal : ∀ a' b', Free lo hi ws a' b' → a' ≤ a → b ≤ b' → a' = a ∧ b' = b

variable {lo hi a b : K} {w : K × K} {ws : List (K × K)}

/-- The inside of a stretch meets no point of an interval on either side of it. -/
theorem forall_notMem_Icc_iff [DenselyOrdered K] (h : a < b) (hw : w.1 ≤ w.2) :
    (∀ x ∈ Set.Ioo a b, x ∉ Set.Icc w.1 w.2) ↔ w.2 ≤ a ∨ b ≤ w.1 := by
  constructor
  · intro hfree
    by_contra hmeets
    obtain ⟨hstop, hstart⟩ := not_or.mp hmeets
    rw [not_le] at hstop hstart
    rcases hw.eq_or_lt with heq | hlt
    · exact hfree w.1 ⟨heq ▸ hstop, hstart⟩ ⟨le_rfl, hw⟩
    · obtain ⟨x, hlow, hhigh⟩ := exists_between (max_lt (lt_min h hstop) (lt_min hstart hlt))
      rw [max_lt_iff] at hlow
      rw [lt_min_iff] at hhigh
      exact hfree x ⟨hlow.1, hhigh.1⟩ ⟨hlow.2.le, hhigh.2.le⟩
  · rintro hside x ⟨hlow, hhigh⟩ ⟨hstart, hstop⟩
    rcases hside with hle | hle
    · exact absurd (hstop.trans hle) hlow.not_ge
    · exact absurd (hle.trans hstart) hhigh.not_ge

theorem free_nil : Free lo hi [] a b ↔ lo ≤ a ∧ a < b ∧ b ≤ hi :=
  ⟨fun h => ⟨h.lo_le, h.lt, h.le_hi⟩, fun h => ⟨h.1, h.2.1, h.2.2, nofun⟩⟩

/-- Before the first interval, or behind it. -/
theorem free_cons [DenselyOrdered K] (hw : w.1 ≤ w.2) (hhi : w.2 ≤ hi)
    (hsorted : ∀ v ∈ ws, w.1 ≤ v.1) (hproper : ∀ v ∈ ws, v.1 ≤ v.2) :
    Free lo hi (w :: ws) a b ↔
      (lo ≤ a ∧ a < b ∧ b ≤ w.1) ∨ Free (max lo w.2) hi ws a b := by
  constructor
  · rintro ⟨hlo, hlt, hle, hfree⟩
    rw [List.forall_mem_cons, forall_notMem_Icc_iff hlt hw] at hfree
    rcases hfree.1 with hbehind | hbefore
    · exact .inr ⟨max_le hlo hbehind, hlt, hle, hfree.2⟩
    · exact .inl ⟨hlo, hlt, hbefore⟩
  · rintro (⟨hlo, hlt, hbefore⟩ | ⟨hlo, hlt, hle, hfree⟩)
    · refine ⟨hlo, hlt, hbefore.trans (hw.trans hhi), fun v hv => ?_⟩
      rcases List.mem_cons.mp hv with rfl | hrest
      · exact (forall_notMem_Icc_iff hlt hw).mpr (.inr hbefore)
      · exact (forall_notMem_Icc_iff hlt (hproper v hrest)).mpr (.inr (hbefore.trans (hsorted v hrest)))
    · rw [max_le_iff] at hlo
      refine ⟨hlo.1, hlt, hle, List.forall_mem_cons.mpr ⟨?_, hfree⟩⟩
      exact (forall_notMem_Icc_iff hlt hw).mpr (.inl hlo.2)

theorem maximal_nil : Maximal lo hi [] a b ↔ a = lo ∧ b = hi ∧ lo < hi := by
  constructor
  · rintro ⟨hfree, hmax⟩
    obtain ⟨hlo, hlt, hhi⟩ := free_nil.mp hfree
    have hwhole := hmax lo hi (free_nil.mpr ⟨le_rfl, hlo.trans_lt (hlt.trans_le hhi), le_rfl⟩) hlo hhi
    exact ⟨hwhole.1.symm, hwhole.2.symm, hlo.trans_lt (hlt.trans_le hhi)⟩
  · rintro ⟨rfl, rfl, hlt⟩
    refine ⟨free_nil.mpr ⟨le_rfl, hlt, le_rfl⟩, fun a' b' hfree hle hge => ?_⟩
    exact ⟨le_antisymm hle hfree.lo_le, le_antisymm hfree.le_hi hge⟩

/-- The stretch before the first interval, if there is one, or one behind it. -/
theorem maximal_cons [DenselyOrdered K] (hw : w.1 ≤ w.2) (hhi : w.2 ≤ hi)
    (hsorted : ∀ v ∈ ws, w.1 ≤ v.1) (hproper : ∀ v ∈ ws, v.1 ≤ v.2) :
    Maximal lo hi (w :: ws) a b ↔
      (a = lo ∧ b = w.1 ∧ lo < w.1) ∨ Maximal (max lo w.2) hi ws a b := by
  have hcons := fun a b => @free_cons _ _ lo hi a b w ws _ hw hhi hsorted hproper
  constructor
  · rintro ⟨hfree, hmax⟩
    rcases (hcons a b).mp hfree with ⟨hlo, hlt, hbefore⟩ | hbehind
    · left
      have hlong := hlo.trans_lt (hlt.trans_le hbefore)
      have hwhole := hmax lo w.1 ((hcons lo w.1).mpr (.inl ⟨le_rfl, hlong, le_rfl⟩)) hlo hbefore
      exact ⟨hwhole.1.symm, hwhole.2.symm, hlong⟩
    · exact .inr ⟨hbehind, fun a' b' h => hmax a' b' ((hcons a' b').mpr (.inr h))⟩
  · rintro (⟨rfl, rfl, hlt⟩ | ⟨hfree, hmax⟩)
    · refine ⟨(hcons a w.1).mpr (.inl ⟨le_rfl, hlt, le_rfl⟩), fun a' b' h hle hge => ?_⟩
      rcases (hcons a' b').mp h with ⟨hlo, -, hbefore⟩ | hbehind
      · exact ⟨le_antisymm hle hlo, le_antisymm hbefore hge⟩
      · have hlow := (max_le_iff.mp hbehind.lo_le).1
        have hstop := (max_le_iff.mp hbehind.lo_le).2
        exact absurd (hw.trans (hstop.trans hle)) hlt.not_ge
    · refine ⟨(hcons a b).mpr (.inr hfree), fun a' b' h hle hge => ?_⟩
      rcases (hcons a' b').mp h with ⟨-, -, hbefore⟩ | hbehind
      · have hstop := (max_le_iff.mp hfree.lo_le).2
        have hback : b ≤ a := hge.trans (hbefore.trans (hw.trans hstop))
        exact absurd hfree.lt hback.not_gt
      · exact hmax a' b' hbehind hle hge

/-- The sweep finds the maximal stretches. -/
theorem mem_sweep_iff [DenselyOrdered K] (hsorted : ws.Pairwise fun v w => v.1 ≤ w.1)
    (hproper : ∀ w ∈ ws, w.1 ≤ w.2) (hhi : ∀ w ∈ ws, w.2 ≤ hi) :
    (a, b) ∈ sweep lo hi ws ∧ a < b ↔ Maximal lo hi ws a b := by
  induction ws generalizing lo with
  | nil =>
    rw [sweep, List.mem_singleton, Prod.mk.injEq, maximal_nil]
    constructor
    · rintro ⟨⟨rfl, rfl⟩, hlt⟩
      exact ⟨rfl, rfl, hlt⟩
    · rintro ⟨rfl, rfl, hlt⟩
      exact ⟨⟨rfl, rfl⟩, hlt⟩
  | cons w ws ih =>
    rw [List.pairwise_cons] at hsorted
    rw [List.forall_mem_cons] at hproper hhi
    rw [sweep, List.mem_cons, Prod.mk.injEq, or_and_right, ih hsorted.2 hproper.2 hhi.2,
      maximal_cons hproper.1 hhi.1 hsorted.1 hproper.2]
    constructor
    · rintro (⟨⟨rfl, rfl⟩, hlt⟩ | hrest)
      · exact .inl ⟨rfl, rfl, hlt⟩
      · exact .inr hrest
    · rintro (⟨rfl, rfl, hlt⟩ | hrest)
      · exact .inl ⟨⟨rfl, rfl⟩, hlt⟩
      · exact .inr hrest

theorem le_of_mem_sweep {p : K × K} (hp : p ∈ sweep lo hi ws) : lo ≤ p.1 := by
  induction ws generalizing lo with
  | nil =>
    obtain rfl : p = (lo, hi) := List.mem_singleton.mp hp
    exact le_rfl
  | cons w ws ih =>
    rcases List.mem_cons.mp hp with rfl | hrest
    · exact le_rfl
    · exact (le_max_left _ _).trans (ih hrest)

/-- They come one behind the other. -/
theorem pairwise_sweep (hproper : ∀ w ∈ ws, w.1 ≤ w.2) :
    (sweep lo hi ws).Pairwise fun p q => p.2 ≤ q.1 := by
  induction ws generalizing lo with
  | nil => exact List.pairwise_singleton _ _
  | cons w ws ih =>
    rw [List.forall_mem_cons] at hproper
    refine .cons (fun q hq => ?_) (ih hproper.2)
    exact hproper.1.trans ((le_max_right _ _).trans (le_of_mem_sweep hq))

end ScribeLocal.Uncovered
