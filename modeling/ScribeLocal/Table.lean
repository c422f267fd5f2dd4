import Mathlib.Tactic

/-! # A table as the list of its rows, and what `UPDATE` and `DELETE` leave in it -/

namespace ScribeLocal.Table

variable {ρ κ : Type*} {p : ρ → Bool} {f : ρ → ρ} {t : List ρ}

/-- What `UPDATE … SET f WHERE p` makes of one row. -/
def updateRow (p : ρ → Bool) (f : ρ → ρ) (r : ρ) : ρ := if p r then f r else r

/-- `UPDATE … SET f WHERE p`. -/
def updateWhere (p : ρ → Bool) (f : ρ → ρ) (t : List ρ) : List ρ := t.map (updateRow p f)

/-- `DELETE … WHERE p`. -/
def deleteWhere (p : ρ → Bool) (t : List ρ) : List ρ := t.filter fun r => !p r

theorem updateRow_of_pos {r : ρ} (h : p r = true) : updateRow p f r = f r := by
  simp [updateRow, h]

theorem updateRow_of_neg {r : ρ} (h : p r = false) : updateRow p f r = r := by
  simp [updateRow, h]

/-- A column the assignment leaves alone keeps its value in every row. -/
theorem column_updateRow {key : ρ → κ} (hkey : ∀ r, key (f r) = key r) (r : ρ) :
    key (updateRow p f r) = key r := by
  unfold updateRow
  split
  · exact hkey r
  · rfl

theorem mem_updateWhere {r : ρ} :
    r ∈ updateWhere p f t ↔ ∃ r₀ ∈ t, updateRow p f r₀ = r := by
  simp [updateWhere]

theorem mem_updateWhere_of_neg {r : ρ} (hr : r ∈ t) (h : p r = false) : r ∈ updateWhere p f t :=
  mem_updateWhere.mpr ⟨r, hr, updateRow_of_neg h⟩

theorem mem_deleteWhere {r : ρ} : r ∈ deleteWhere p t ↔ r ∈ t ∧ p r = false := by
  simp [deleteWhere]

theorem column_updateWhere {key : ρ → κ} (hkey : ∀ r, key (f r) = key r) :
    (updateWhere p f t).map key = t.map key := by
  simp [updateWhere, column_updateRow hkey]

theorem updateWhere_of_forall_neg (h : ∀ r ∈ t, p r = false) : updateWhere p f t = t := by
  conv_rhs => rw [← List.map_id t]
  exact List.map_congr_left fun r hr => updateRow_of_neg (h r hr)

theorem pairwise_updateWhere {R : ρ → ρ → Prop} (ht : t.Pairwise R)
    (hR : ∀ a ∈ t, ∀ b ∈ t, R a b → R (updateRow p f a) (updateRow p f b)) :
    (updateWhere p f t).Pairwise R := by
  unfold updateWhere
  rw [List.pairwise_map]
  exact ht.imp_of_mem fun ha hb h => hR _ ha _ hb h

/-- An update of rows that a query leaves out, before and after, leaves its answer alone. -/
theorem filter_updateWhere_of_neg {q : ρ → Bool}
    (h : ∀ r ∈ t, p r = true → q r = false ∧ q (f r) = false) :
    (updateWhere p f t).filter q = t.filter q := by
  induction t with
  | nil => rfl
  | cons r t ih =>
    have htail := ih fun r' hr' => h r' (List.mem_cons_of_mem r hr')
    change (updateRow p f r :: updateWhere p f t).filter q = _
    cases hp : p r with
    | true =>
      have hq := h r List.mem_cons_self hp
      rw [updateRow_of_pos hp, List.filter_cons_of_neg (by simp [hq.2]),
        List.filter_cons_of_neg (by simp [hq.1]), htail]
    | false => rw [updateRow_of_neg hp, List.filter_cons, List.filter_cons, htail]

theorem nodup_column_deleteWhere {key : ρ → κ} (h : (t.map key).Nodup) :
    ((deleteWhere p t).map key).Nodup :=
  h.sublist (List.filter_sublist.map key)

/-- Looking a row up by a column the assignment leaves alone finds the updated row. -/
theorem find?_updateWhere [DecidableEq κ] {key : ρ → κ} (hkey : ∀ r, key (f r) = key r) (k : κ) :
    (updateWhere p f t).find? (fun r => key r == k) =
      (t.find? fun r => key r == k).map (updateRow p f) := by
  simp only [updateWhere, List.find?_map]
  congr 2
  funext r
  simp [Function.comp, column_updateRow hkey]

/-- Looking a row up by a query that the assignment leaves alone finds the updated row. -/
theorem find?_updateWhere_of_query {q : ρ → Bool} (hq : ∀ r, q (f r) = q r) :
    (updateWhere p f t).find? q = (t.find? q).map (updateRow p f) := by
  have hquery : q ∘ updateRow p f = q := by
    funext r
    exact column_updateRow hq r
  rw [updateWhere, List.find?_map, hquery]

/-- A row that the query finds is not deleted where no row of the query is. -/
theorem find?_deleteWhere_of_neg {q : ρ → Bool} (h : ∀ r ∈ t, q r = true → p r = false) :
    (deleteWhere p t).find? q = t.find? q := by
  rw [deleteWhere, List.find?_filter]
  refine List.find?_congr fun r hr => ?_
  cases hq : q r with
  | true => simp [h r hr hq]
  | false => simp

theorem find?_deleteWhere_of_pos {q : ρ → Bool} (h : ∀ r ∈ t, q r = true → p r = true) :
    (deleteWhere p t).find? q = none := by
  rw [List.find?_eq_none]
  intro r hr hq
  rw [mem_deleteWhere] at hr
  rw [h r hr.1 hq] at hr
  cases hr.2

end ScribeLocal.Table
