import Mathlib.Algebra.BigOperators.Group.List.Basic
import Mathlib.Data.List.MinMax
import Mathlib.Data.Prod.Lex

/-!
# Sums by key

A hash map from keys to sums, as the list of its entries, and the entry with the largest
sum. The map hands out its entries in any order.
-/
namespace ScribeLocal.Tally

/-- The order in which a hash map hands out its entries: any at all. -/
structure HashOrder (α : Type*) where
  iter : List α → List α
  perm : ∀ entries, (iter entries).Perm entries

variable {κ ν : Type*} [DecidableEq κ] [AddCommMonoid ν]

/-- `*map.entry(k).or_insert(0) += v` -/
def add (k : κ) (v : ν) : List (κ × ν) → List (κ × ν)
  | [] => [(k, 0 + v)]
  | e :: entries => if e.1 = k then (k, e.2 + v) :: entries else e :: add k v entries

def tally (items : List (κ × ν)) : List (κ × ν) :=
  items.foldl (fun entries e => add e.1 e.2 entries) []

/-- What the items add up to at one key. -/
def total (items : List (κ × ν)) (k : κ) : ν :=
  ((items.filter fun e => e.1 = k).map Prod.snd).sum

variable {k j : κ} {v : ν} {items entries : List (κ × ν)}

@[simp] theorem tally_nil : tally ([] : List (κ × ν)) = [] := rfl

theorem tally_concat : tally (items ++ [(k, v)]) = add k v (tally items) :=
  List.foldl_concat ..

theorem total_concat : total (items ++ [(k, v)]) j = total items j + if k = j then v else 0 := by
  unfold total
  rw [List.filter_append, List.map_append, List.sum_append]
  congr 1
  by_cases h : k = j <;> simp [h]

theorem total_cons {e : κ × ν} :
    total (e :: items) k = (if e.1 = k then e.2 else 0) + total items k := by
  unfold total
  by_cases h : e.1 = k <;> simp [h]

theorem total_of_notMem (h : k ∉ items.map Prod.fst) : total items k = 0 := by
  unfold total
  rw [List.filter_eq_nil_iff.mpr]
  · rfl
  · intro e he
    simp only [decide_eq_true_eq]
    rintro rfl
    exact h (List.mem_map_of_mem he)

theorem total_of_mem (h : (entries.map Prod.fst).Nodup) (hmem : (k, v) ∈ entries) :
    total entries k = v := by
  induction entries with
  | nil => cases hmem
  | cons e entries ih =>
    rw [List.map_cons, List.nodup_cons] at h
    rw [total_cons]
    rcases List.mem_cons.mp hmem with rfl | hrest
    · rw [if_pos rfl, total_of_notMem h.1, add_zero]
    · have hne : e.1 ≠ k := fun heq => h.1 (heq ▸ List.mem_map.mpr ⟨_, hrest, rfl⟩)
      rw [if_neg hne, zero_add, ih h.2 hrest]

theorem mem_keys_add : j ∈ (add k v entries).map Prod.fst ↔ j = k ∨ j ∈ entries.map Prod.fst := by
  induction entries with
  | nil => simp [add]
  | cons e entries ih =>
    rw [add]
    by_cases h : e.1 = k
    · simp [h]
    · rw [if_neg h, List.map_cons, List.mem_cons, ih, List.map_cons, List.mem_cons]
      exact or_left_comm

theorem nodup_add (h : (entries.map Prod.fst).Nodup) : ((add k v entries).map Prod.fst).Nodup := by
  induction entries with
  | nil => simp [add]
  | cons e entries ih =>
    rw [List.map_cons, List.nodup_cons] at h
    rw [add]
    by_cases hk : e.1 = k
    · rw [if_pos hk, List.map_cons, List.nodup_cons]
      exact ⟨hk ▸ h.1, h.2⟩
    · rw [if_neg hk, List.map_cons, List.nodup_cons, mem_keys_add]
      exact ⟨not_or.mpr ⟨hk, h.1⟩, ih h.2⟩

/-- The sum at the key grows, and the entries of the others stay. -/
theorem mem_add (h : (entries.map Prod.fst).Nodup) {u : ν} : (j, u) ∈ add k v entries ↔
    if j = k then u = total entries k + v else (j, u) ∈ entries := by
  induction entries with
  | nil =>
    by_cases hj : j = k <;> simp [add, total, hj]
  | cons e entries ih =>
    rcases e with ⟨i, s⟩
    rw [List.map_cons, List.nodup_cons] at h
    rw [add]
    by_cases hi : i = k
    · subst hi
      have hzero : total entries i = 0 := total_of_notMem h.1
      by_cases hj : j = i
      · subst hj
        have habsent : (j, u) ∉ entries := fun hmem => h.1 (List.mem_map.mpr ⟨_, hmem, rfl⟩)
        simp [habsent, total_cons, hzero]
      · simp [hj]
    · rw [if_neg hi, List.mem_cons, ih h.2, total_cons, if_neg hi, zero_add]
      by_cases hj : j = k
      · subst hj
        simp [Ne.symm hi]
      · simp [hj]

theorem nodup_tally : ((tally items).map Prod.fst).Nodup := by
  induction items using List.reverseRecOn with
  | nil => simp
  | append_singleton items e ih =>
    rw [tally_concat]
    exact nodup_add ih

theorem mem_keys_tally : k ∈ (tally items).map Prod.fst ↔ k ∈ items.map Prod.fst := by
  induction items using List.reverseRecOn with
  | nil => simp
  | append_singleton items e ih =>
    rw [tally_concat, mem_keys_add, ih, List.map_append, List.mem_append, List.map_singleton,
      List.mem_singleton]
    exact or_comm

/-- The map holds the sum of each key that comes up. -/
theorem mem_tally : (k, v) ∈ tally items ↔ k ∈ items.map Prod.fst ∧ v = total items k := by
  induction items using List.reverseRecOn generalizing k v with
  | nil => simp
  | append_singleton items e ih =>
    rcases e with ⟨i, s⟩
    have htotal : total (tally items) i = total items i := by
      by_cases hi : i ∈ items.map Prod.fst
      · exact total_of_mem nodup_tally (ih.mpr ⟨hi, rfl⟩)
      · rw [total_of_notMem hi, total_of_notMem (mt mem_keys_tally.mp hi)]
    rw [tally_concat, mem_add nodup_tally, htotal, total_concat]
    by_cases hk : k = i
    · subst hk
      simp
    · simp [hk, ih, Ne.symm hk]

/-! ## The largest sum -/

section Leader
variable [LinearOrder κ] [LinearOrder ν]

/-- `max_by_key` with the sum first and the lower key before the higher one; it returns the
last of equals. -/
def leader (entries : List (κ × ν)) : Option κ :=
  (entries.reverse.argmax fun e => toLex (e.2, OrderDual.toDual e.1)).map Prod.fst

/-- The items at `k` add up to most, and `k` is the lowest key of those that do. -/
def Leads (items : List (κ × ν)) (k : κ) : Prop :=
  k ∈ items.map Prod.fst ∧ ∀ j ∈ items.map Prod.fst,
    total items j < total items k ∨ total items j = total items k ∧ k ≤ j

theorem Leads.eq (hk : Leads items k) (hj : Leads items j) : k = j := by
  rcases hk.2 j hj.1 with hlt | ⟨heq, hle⟩
  · rcases hj.2 k hk.1 with hgt | ⟨heq, -⟩
    · exact absurd hlt hgt.asymm
    · exact absurd heq hlt.ne'
  · rcases hj.2 k hk.1 with hgt | ⟨-, hge⟩
    · exact absurd heq hgt.ne'
    · exact le_antisymm hle hge

theorem leads_of_leader {order : HashOrder (κ × ν)}
    (h : leader (order.iter (tally items)) = some k) : Leads items k := by
  obtain ⟨⟨i, s⟩, hmax, rfl⟩ := Option.map_eq_some_iff.mp h
  have hiter {e : κ × ν} : e ∈ (order.iter (tally items)).reverse ↔ e ∈ tally items := by
    rw [List.mem_reverse, (order.perm _).mem_iff]
  obtain ⟨hkey, hsum⟩ := mem_tally.mp (hiter.mp (List.argmax_mem hmax))
  refine ⟨hkey, fun j hj => ?_⟩
  have hle := List.le_of_mem_argmax (hiter.mpr (mem_tally.mpr ⟨hj, rfl⟩)) hmax
  rw [hsum, Prod.Lex.toLex_le_toLex] at hle
  exact hle

/-- Whatever order the entries come in, the leader is the same. -/
theorem leader_eq_some_iff {order : HashOrder (κ × ν)} :
    leader (order.iter (tally items)) = some k ↔ Leads items k := by
  constructor
  · exact leads_of_leader
  · intro hk
    cases hleader : leader (order.iter (tally items)) with
    | some j => rw [(leads_of_leader hleader).eq hk]
    | none =>
      have hmem : (k, total items k) ∈ (order.iter (tally items)).reverse := by
        rw [List.mem_reverse, (order.perm _).mem_iff, mem_tally]
        exact ⟨hk.1, rfl⟩
      rw [leader, Option.map_eq_none_iff, List.argmax_eq_none] at hleader
      rw [hleader] at hmem
      cases hmem

theorem leader_eq_none_iff {order : HashOrder (κ × ν)} :
    leader (order.iter (tally items)) = none ↔ items = [] := by
  rw [leader, Option.map_eq_none_iff, List.argmax_eq_none, List.reverse_eq_nil_iff]
  constructor
  · intro h
    have hperm := order.perm (tally items)
    rw [h, List.nil_perm] at hperm
    cases items with
    | nil => rfl
    | cons e items =>
      have hmem : (e.1, _) ∈ tally (e :: items) := mem_tally.mpr ⟨List.mem_cons_self, rfl⟩
      rw [hperm] at hmem
      cases hmem
  · rintro rfl
    exact List.perm_nil.mp (order.perm [])

end Leader

end ScribeLocal.Tally
