import Mathlib.Tactic

/-!
# Greedy choice

Items are looked at in order, and each is taken when the ones taken so far allow it.
-/
namespace ScribeLocal.Greedy

variable {α : Type*} (ok : List α → α → Bool)

def pick (chosen : List α) (x : α) : List α := if ok chosen x then chosen ++ [x] else chosen

/-- The items that are taken. -/
def choose (items : List α) : List α := items.foldl (pick ok) []

variable {ok} {chosen items earlier later : List α} {x : α}

theorem pick_of_ok (h : ok chosen x = true) : pick ok chosen x = chosen ++ [x] := if_pos h

theorem pick_of_not_ok (h : ok chosen x = false) : pick ok chosen x = chosen :=
  if_neg (Bool.eq_false_iff.mp h)

theorem choose_append : choose ok (earlier ++ later) = later.foldl (pick ok) (choose ok earlier) :=
  List.foldl_append

/-- What is taken stays taken, and only the items that are left are added. -/
theorem foldl_pick_eq (ok : List α → α → Bool) (chosen items : List α) : ∃ added, added.Sublist items ∧
    items.foldl (pick ok) chosen = chosen ++ added := by
  induction items generalizing chosen with
  | nil => exact ⟨[], .slnil, (List.append_nil chosen).symm⟩
  | cons x items ih =>
    rw [List.foldl_cons]
    obtain ⟨added, hsublist, heq⟩ := ih (pick ok chosen x)
    cases hok : ok chosen x with
    | true =>
      refine ⟨x :: added, hsublist.cons_cons x, ?_⟩
      rw [heq, pick_of_ok hok, List.append_assoc, List.singleton_append]
    | false =>
      refine ⟨added, hsublist.cons x, ?_⟩
      rw [heq, pick_of_not_ok hok]

theorem choose_sublist : (choose ok items).Sublist items := by
  obtain ⟨added, hsublist, heq⟩ := foldl_pick_eq ok [] items
  rwa [choose, heq, List.nil_append]

theorem choose_append_eq (ok : List α → α → Bool) (earlier later : List α) : ∃ added, added.Sublist later ∧
    choose ok (earlier ++ later) = choose ok earlier ++ added := by
  rw [choose_append]
  exact foldl_pick_eq ok _ _

theorem mem_choose_of_mem (h : x ∈ choose ok earlier) : x ∈ choose ok (earlier ++ later) := by
  obtain ⟨added, -, heq⟩ := choose_append_eq ok earlier later
  rw [heq]
  exact List.mem_append_left _ h

/-- An item that is left out was not allowed by those taken before it. -/
theorem not_ok_of_notMem (h : x ∉ choose ok (earlier ++ x :: later)) :
    ok (choose ok earlier) x = false := by
  by_contra hok
  apply h
  rw [← List.singleton_append, ← List.append_assoc]
  apply mem_choose_of_mem
  rw [choose_append, List.foldl_cons, List.foldl_nil, pick_of_ok (Bool.eq_true_of_not_eq_false hok)]
  exact List.mem_append_right _ (List.mem_singleton_self x)

/-- Where nothing more is allowed, nothing more is taken. -/
theorem choose_append_of_refused (h : ∀ x ∈ later, ok (choose ok earlier) x = false) :
    choose ok (earlier ++ later) = choose ok earlier := by
  rw [choose_append]
  induction later with
  | nil => rfl
  | cons x later ih =>
    rw [List.foldl_cons, pick_of_not_ok (h x List.mem_cons_self)]
    exact ih fun y hy => h y (List.mem_cons_of_mem _ hy)

/-- The items taken by some point are the ones before it that are taken at all. -/
theorem filter_mem_choose [DecidableEq α] (h : (earlier ++ later).Nodup) :
    earlier.filter (· ∈ choose ok (earlier ++ later)) = choose ok earlier := by
  obtain ⟨added, hsublist, heq⟩ := choose_append_eq ok earlier later
  have hnodup := List.nodup_append'.mp h
  rw [heq]
  have hcongr : earlier.filter (· ∈ choose ok earlier ++ added) =
      earlier.filter (· ∈ choose ok earlier) := by
    apply List.filter_congr
    intro y hy
    have hnot : y ∉ added := fun hadded => hnodup.2.2 hy (hsublist.subset hadded)
    simp [hnot]
  rw [hcongr]
  have hsub : (choose ok earlier).Sublist earlier := choose_sublist
  have hsub' := hsub.filter (· ∈ choose ok earlier)
  rw [List.filter_eq_self.mpr (by simp)] at hsub'
  refine (hsub'.eq_of_length_le ?_).symm
  have hsubset : earlier.filter (· ∈ choose ok earlier) ⊆ choose ok earlier := by
    intro y hy
    simpa using (List.mem_filter.mp hy).2
  exact ((hnodup.1.filter _).subperm hsubset).length_le

/-- What holds of nothing taken, and is kept by taking an item that is allowed, holds of the
items taken. -/
theorem choose_induction {P : List α → Prop} (nil : P [])
    (snoc : ∀ chosen, ∀ x ∈ items, P chosen → ok chosen x = true → P (chosen ++ [x])) :
    P (choose ok items) := by
  induction items using List.reverseRecOn with
  | nil => exact nil
  | append_singleton items x ih =>
    have hP := ih fun chosen y hy => snoc chosen y (List.mem_append_left _ hy)
    rw [choose_append, List.foldl_cons, List.foldl_nil]
    cases hok : ok (choose ok items) x with
    | true =>
      rw [pick_of_ok hok]
      exact snoc _ x (List.mem_append_right _ (List.mem_singleton_self x)) hP hok
    | false => rwa [pick_of_not_ok hok]

end ScribeLocal.Greedy
