import Mathlib.Data.List.GetD
import ScribeLocal.Asr.InferredCount

/-!
# What the merges cost

The merge loop under each of the three linkages. The row and the column of the joined cluster are
written in place. A joined cluster is no closer to a third than the nearer of its parts, so the
merges get less and less convincing, whatever the similarities of the fragments are.
-/
namespace ScribeLocal.Asr
open ScribeLocal.Linkage Finset

variable {K : Type*}

/-! ## The three linkages -/

inductive Linkage where
  | average
  | single
  | complete
  deriving DecidableEq, Repr

/-- What `SCRIBE_LINKAGE` asks for. -/
def linkage (var : Option String) : Linkage :=
  match var with
  | some "single" => .single
  | some "complete" => .complete
  | _ => .average

variable [Field K] [LinearOrder K]

/-- The similarity of a third cluster to two that join. -/
def Linkage.merged (l : Linkage) (simI simJ wi wj : K) : K :=
  match l with
  | .single => max simI simJ
  | .complete => min simI simJ
  | .average => (simI * wi + simJ * wj) / (wi + wj)

/-- `sim[a * n + b] = x` -/
def setSim (sim : ℕ → ℕ → K) (a b : ℕ) (x : K) : ℕ → ℕ → K :=
  Function.update sim a (Function.update (sim a) b x)

/-- The body of the loop over `k`, which reads the table that it writes. -/
def sweepOne (l : Linkage) (alive : ℕ → Bool) (size : ℕ → K) (i j : ℕ) (sim : ℕ → ℕ → K)
    (k : ℕ) : ℕ → ℕ → K :=
  if !alive k || k == i || k == j then sim
  else
    let merged := l.merged (sim i k) (sim j k) (size i) (size j)
    setSim (setSim sim i k merged) k i merged

/-- One turn of the loop under a linkage. -/
def Merging.joinWith (l : Linkage) (n : ℕ) (total : ℤ) (live : ℕ) (s : Merging K) (p : ℕ × ℕ) :
    Merging K :=
  { s.join n total live p with
    sim := (List.range n).foldl (sweepOne l s.alive s.size p.1 p.2) s.sim }

/-- The loop `while live > 1` under a linkage. -/
def Merging.runWith (l : Linkage) (n : ℕ) (total : ℤ) : ℕ → Merging K → Merging K
  | live + 2, s =>
    match s.best n with
    | some p => Merging.runWith l n total (live + 1) (s.joinWith l n total (live + 2) p)
    | none => s
  | _, s => s

/-- The whole merge sequence, with `SCRIBE_LINKAGE` as it is set. -/
def mergingUnder (sqrt : K → K) (var : Option String) (fragments : List (Fragment K)) : Merging K :=
  Merging.runWith (linkage var) (embedded fragments).length (embeddedSpeech fragments)
    (embedded fragments).length (Merging.start sqrt fragments)

/-! ## The table after a sweep -/

section Sweep
variable {l : Linkage} {alive : ℕ → Bool} {size : ℕ → K} {i j : ℕ} {sim : ℕ → ℕ → K}

/-- The clusters whose similarity to the joined one is written. -/
def touched (alive : ℕ → Bool) (i j k : ℕ) : Prop := alive k ∧ k ≠ i ∧ k ≠ j

instance (alive : ℕ → Bool) (i j k : ℕ) : Decidable (touched alive i j k) :=
  inferInstanceAs (Decidable (_ ∧ _))

/-- The table after the first `m` columns. -/
def swept (l : Linkage) (alive : ℕ → Bool) (size : ℕ → K) (i j : ℕ) (sim : ℕ → ℕ → K)
    (m a b : ℕ) : K :=
  let merged k := l.merged (sim i k) (sim j k) (size i) (size j)
  if a = i ∧ b < m ∧ touched alive i j b then merged b
  else if b = i ∧ a < m ∧ touched alive i j a then merged a else sim a b

omit [Field K] [LinearOrder K] in
theorem setSim_apply (sim : ℕ → ℕ → K) (a b : ℕ) (x : K) (c d : ℕ) :
    setSim sim a b x c d = if c = a ∧ d = b then x else sim c d := by
  by_cases hc : c = a
  · subst hc
    by_cases hd : d = b <;> simp [setSim, hd]
  · simp [setSim, hc]

/-- A column is written from entries that the columns before it left alone. -/
theorem sweepOne_swept (hij : i ≠ j) (m : ℕ) :
    sweepOne l alive size i j (swept l alive size i j sim m) m =
      swept l alive size i j sim (m + 1) := by
  funext a b
  by_cases hm : touched alive i j m
  · obtain ⟨hlive, hmi, hmj⟩ := hm
    have hi : swept l alive size i j sim m i m = sim i m := by
      simp [swept, hmi]
    have hj : swept l alive size i j sim m j m = sim j m := by
      simp [swept, hmi, hij.symm]
    have hwrite : (!alive m || m == i || m == j) = false := by
      simp [hlive, hmi, hmj]
    rw [sweepOne, hwrite, if_neg Bool.false_ne_true, hi, hj, setSim_apply, setSim_apply]
    by_cases hcolumn : a = m ∧ b = i
    · obtain ⟨rfl, rfl⟩ := hcolumn
      simp [swept, hmi, touched, hlive, hmj]
    · by_cases hrow : a = i ∧ b = m
      · obtain ⟨rfl, rfl⟩ := hrow
        simp [swept, hmi.symm, touched, hlive, hmi, hmj]
      · have hrow' : a = i ∧ b < m + 1 ↔ a = i ∧ b < m := by omega
        have hcolumn' : b = i ∧ a < m + 1 ↔ b = i ∧ a < m := by omega
        rw [if_neg hcolumn, if_neg hrow]
        simp only [swept, ← and_assoc, hrow', hcolumn']
  · have hskip : (!alive m || m == i || m == j) = true := by
      simp only [touched] at hm
      grind
    have hlt : ∀ k, k < m + 1 ∧ touched alive i j k ↔ k < m ∧ touched alive i j k := by
      intro k
      constructor
      · rintro ⟨hk, ht⟩
        obtain hlt | rfl := Nat.lt_succ_iff_lt_or_eq.mp hk
        · exact ⟨hlt, ht⟩
        · exact absurd ht hm
      · rintro ⟨hk, ht⟩
        exact ⟨by omega, ht⟩
    simp only [sweepOne, hskip, if_true, swept, hlt]

theorem foldl_sweepOne (hij : i ≠ j) (m : ℕ) :
    (List.range m).foldl (sweepOne l alive size i j) sim = swept l alive size i j sim m := by
  induction m with
  | zero =>
    funext a b
    simp [swept]
  | succ m ih => rw [List.range_succ, List.foldl_append, ih, List.foldl_cons, List.foldl_nil,
      sweepOne_swept hij]

theorem swept_self {n k : ℕ} (hk : k < n) (h : touched alive i j k) :
    swept l alive size i j sim n i k = l.merged (sim i k) (sim j k) (size i) (size j) := by
  simp [swept, hk, h]

theorem swept_comm {n k : ℕ} (hk : k < n) (h : touched alive i j k) :
    swept l alive size i j sim n k i = swept l alive size i j sim n i k := by
  rw [swept_self hk h]
  simp [swept, hk, h, h.2.1]

theorem swept_of_ne {n a b : ℕ} (ha : a ≠ i) (hb : b ≠ i) :
    swept l alive size i j sim n a b = sim a b := by
  simp [swept, ha, hb]

end Sweep

/-! ## The average linkage -/

/-- The tables agree on the fragments there are. -/
structure Merging.Alike (n : ℕ) (s t : Merging K) : Prop where
  alive : s.alive = t.alive
  size : s.size = t.size
  speech : s.speech = t.speech
  history : s.history = t.history
  people : s.peopleMerges = t.peopleMerges
  substantial : s.substantial = t.substantial
  sim : ∀ a < n, ∀ b < n, s.sim a b = t.sim a b

section Alike
variable {n : ℕ} {s t : Merging K}

omit [Field K] in
theorem Merging.Alike.best (h : s.Alike n t) : s.best n = t.best n := by
  rw [Merging.best_eq, Merging.best_eq, h.alive]
  apply closestPair_congr
  intro i j hij hj _ _
  exact h.sim i (hij.trans hj) j hj

/-- The sweep writes what the update in one piece writes. -/
theorem Merging.Alike.join (h : s.Alike n t) (total : ℤ) (live : ℕ) {p : ℕ × ℕ}
    (hp : t.best n = some p) :
    (s.joinWith .average n total live p).Alike n (t.join n total live p) := by
  obtain ⟨i, j⟩ := p
  obtain ⟨hij, hj, -, -⟩ := Merging.best_spec hp
  dsimp only at hij hj
  have hi : i < n := hij.trans hj
  have hcost : s.sim i j = t.sim i j := h.sim i hi j hj
  constructor
  · simp [joinWith, Merging.join, h.alive]
  · simp [joinWith, Merging.join, h.size]
  · simp [joinWith, Merging.join, h.speech]
  · simp [joinWith, Merging.join, h.history, hcost]
  · simp [joinWith, Merging.join, h.people, h.speech, h.history, hcost]
  · simp [joinWith, Merging.join, h.substantial, h.alive, h.speech]
  · intro a ha b hb
    simp only [joinWith, foldl_sweepOne hij.ne, swept, Merging.join, touched, Linkage.merged]
    have hrow : ∀ k < n, s.sim i k = t.sim i k := h.sim i hi
    have hrow' : ∀ k < n, s.sim j k = t.sim j k := h.sim j hj
    simp [ha, hb, hrow, hrow', h.sim a ha b hb, h.alive, h.size, and_assoc]

theorem Merging.Alike.run (h : s.Alike n t) (total : ℤ) (live : ℕ) :
    (Merging.runWith .average n total live s).Alike n (Merging.run n total live t) := by
  fun_induction Merging.run n total live t generalizing s with
  | case1 live t p hp ih =>
    rw [Merging.runWith, h.best, hp]
    exact ih (h.join total (live + 2) hp)
  | case2 live t hp =>
    rw [Merging.runWith, h.best, hp]
    exact h
  | case3 live t hlast =>
    rw [Merging.runWith]
    · exact h
    · exact hlast

end Alike

/-- Without the hook the merge sequence is the one of the average linkage. -/
theorem mergingUnder_none (sqrt : K → K) (fragments : List (Fragment K)) :
    (mergingUnder sqrt none fragments).Alike (embedded fragments).length (merging sqrt fragments) :=
  Merging.Alike.run ⟨rfl, rfl, rfl, rfl, rfl, rfl, fun _ _ _ _ => rfl⟩ _ _

/-! ## The costs -/

theorem Linkage.merged_le_max [IsStrictOrderedRing K] (l : Linkage) {simI simJ wi wj : K}
    (hi : 0 < wi) (hj : 0 < wj) : l.merged simI simJ wi wj ≤ max simI simJ := by
  cases l with
  | average => exact weighted_mean_le_max hi hj
  | single => exact le_rfl
  | complete => exact min_le_max

/-- The clusters that are left. -/
def Merging.liveSet (n : ℕ) (s : Merging K) : Set ℕ := {a | a < n ∧ s.alive a}

/-- The table is symmetric on the live clusters, and they all have members. -/
structure Merging.Regular (n : ℕ) (s : Merging K) : Prop where
  symm : ∀ a ∈ s.liveSet n, ∀ b ∈ s.liveSet n, s.sim a b = s.sim b a
  size : ∀ a ∈ s.liveSet n, 0 < s.size a

section Costs
variable {l : Linkage} {n : ℕ} {s : Merging K} {p : ℕ × ℕ}

theorem Merging.liveSet_joinWith (total : ℤ) (live : ℕ) :
    (s.joinWith l n total live p).liveSet n = s.liveSet n \ {p.2} := by
  ext a
  by_cases ha : a = p.2 <;> simp [liveSet, joinWith, join, ha]

/-- The pair that is merged is the closest of all, in either order. -/
theorem Merging.Regular.closest (h : s.Regular n) (hp : s.best n = some p) :
    (s.liveSet n).Pairwise fun a b => s.sim a b ≤ s.sim p.1 p.2 := by
  intro a ha b hb hab
  obtain hlt | hlt := Nat.lt_or_gt_of_ne hab
  · exact le_closestPair hp hlt hb.1 ha.2 hb.2
  · rw [h.symm a ha b hb]
    exact le_closestPair hp hlt ha.1 hb.2 ha.2

theorem Merging.Regular.reduces [IsStrictOrderedRing K] (h : s.Regular n)
    (hp : s.best n = some p) (total : ℤ) (live : ℕ) :
    Reduces (s.liveSet n) p.1 p.2 s.sim (s.joinWith l n total live p).sim := by
  obtain ⟨hij, hj, hi, hlive⟩ := Merging.best_spec hp
  have hmem_i : p.1 ∈ s.liveSet n := ⟨hij.trans hj, hi⟩
  have hmem_j : p.2 ∈ s.liveSet n := ⟨hj, hlive⟩
  have hsim : (s.joinWith l n total live p).sim =
      swept l s.alive s.size p.1 p.2 s.sim n := foldl_sweepOne hij.ne n
  rw [hsim]
  constructor
  · intro a _ b _ ha hb
    exact swept_of_ne ha hb
  · intro k hk hki hkj
    rw [swept_self hk.1 ⟨hk.2, hki, hkj⟩]
    exact l.merged_le_max (h.size p.1 hmem_i) (h.size p.2 hmem_j)
  · intro k hk hki hkj
    exact swept_comm hk.1 ⟨hk.2, hki, hkj⟩

theorem Merging.Regular.join [IsStrictOrderedRing K] (h : s.Regular n)
    (hp : s.best n = some p) (total : ℤ) (live : ℕ) :
    (s.joinWith l n total live p).Regular n := by
  have hreduces := h.reduces (l := l) hp total live
  obtain ⟨hij, hj, hi, hlive⟩ := Merging.best_spec hp
  constructor
  · rw [liveSet_joinWith]
    rintro a ⟨ha, haj⟩ b ⟨hb, hbj⟩
    by_cases hai : a = p.1
    · by_cases hbi : b = p.1
      · rw [hai, hbi]
      · rw [hai, hreduces.column b hb hbi hbj]
    · by_cases hbi : b = p.1
      · rw [hbi, hreduces.column a ha hai haj]
      · rw [hreduces.kept a ha b hb hai hbi, hreduces.kept b hb a ha hbi hai, h.symm a ha b hb]
  · rw [liveSet_joinWith]
    rintro a ⟨ha, -⟩
    show 0 < Function.update s.size p.1 (s.size p.1 + s.size p.2) a
    rw [Function.update_apply]
    split
    · exact add_pos (h.size p.1 ⟨hij.trans hj, hi⟩) (h.size p.2 ⟨hj, hlive⟩)
    · exact h.size a ha

/-- What the rest of the loop pays is what joining the closest clusters costs. -/
theorem Merging.Regular.run [IsStrictOrderedRing K] (h : s.Regular n) (total : ℤ) (live : ℕ) :
    ∃ costs, Joins (s.liveSet n) s.sim costs ∧
      (Merging.runWith l n total live s).history.map Merge.sim = s.history.map Merge.sim ++ costs := by
  fun_induction Merging.runWith l n total live s with
  | case1 live s p hp ih =>
    obtain ⟨hij, hj, hi, hlive⟩ := Merging.best_spec hp
    obtain ⟨costs, hrest, hhistory⟩ := ih (h.join hp total (live + 2))
    rw [liveSet_joinWith] at hrest
    refine ⟨s.sim p.1 p.2 :: costs, ?_, ?_⟩
    · exact .join ⟨hij.trans hj, hi⟩ ⟨hj, hlive⟩ hij.ne (h.closest hp)
        (h.reduces hp total (live + 2)) hrest
    · rw [hhistory]
      simp [joinWith, Merging.join]
  | case2 live s hp => exact ⟨[], .done _ _, (List.append_nil _).symm⟩
  | case3 live s hlast => exact ⟨[], .done _ _, (List.append_nil _).symm⟩

/-- What is merged gets less and less similar. -/
theorem Merging.Regular.pairwise_ge [IsStrictOrderedRing K] (h : s.Regular n)
    (hstart : s.history = []) (total : ℤ) (live : ℕ) :
    ((Merging.runWith l n total live s).history.map Merge.sim).Pairwise (· ≥ ·) := by
  obtain ⟨costs, hjoins, hcosts⟩ := h.run (l := l) total live
  rw [hcosts, hstart, List.map_nil, List.nil_append]
  exact hjoins.pairwise_ge

/-- The merges between people are some of the merges. -/
theorem Merging.people_sublist (total : ℤ) (live : ℕ)
    (h : (s.peopleMerges.map Prod.snd).Sublist (s.history.map Merge.sim)) :
    ((Merging.runWith l n total live s).peopleMerges.map Prod.snd).Sublist
      ((Merging.runWith l n total live s).history.map Merge.sim) := by
  fun_induction Merging.runWith l n total live s with
  | case1 live s p hp ih =>
    apply ih
    simp only [joinWith, Merging.join, List.map_append, List.map_singleton]
    split
    · rw [List.map_append]
      exact h.append (List.Sublist.refl _)
    · exact h.trans (List.sublist_append_left _ _)
  | case2 live s hp => exact h
  | case3 live s hlast => exact h

theorem Merging.history_length (total : ℤ) (live : ℕ) (h : #{i ∈ range n | s.alive i} = live) :
    (Merging.runWith l n total live s).history.length = s.history.length + (live - 1) := by
  fun_induction Merging.runWith l n total live s with
  | case1 live s p hp ih =>
    obtain ⟨hij, hj, hi, hlive⟩ := Merging.best_spec hp
    have hleft : #{i ∈ range n | (s.joinWith l n total (live + 2) p).alive i} + 1 =
        #{i ∈ range n | s.alive i} := card_update_alive hj hlive
    have hhistory : (s.joinWith l n total (live + 2) p).history.length = s.history.length + 1 := by
      simp [joinWith, Merging.join]
    rw [ih (by omega), hhistory]
    omega
  | case2 live s hp =>
    obtain ⟨p, hsome⟩ := Merging.best_isSome (n := n) (s := s) (by omega)
    cases hp.symm.trans hsome
  | case3 live s hlast =>
    obtain _ | _ | live := live
    · rfl
    · rfl
    · exact absurd rfl (hlast live)

end Costs

theorem similarity_comm (sqrt : K → K) (fragments : List (Fragment K)) (a b : ℕ) :
    similarity sqrt fragments a b = similarity sqrt fragments b a := by
  rw [similarity, similarity]
  cases (embedded fragments)[a]?.bind (usableAt fragments) with
  | none => cases (embedded fragments)[b]?.bind (usableAt fragments) <;> rfl
  | some ea =>
    cases (embedded fragments)[b]?.bind (usableAt fragments) with
    | none => rfl
    | some eb =>
      obtain hlt | rfl | hlt := Nat.lt_trichotomy a b
      · simp [hlt, hlt.not_gt]
      · simp
      · simp [hlt, hlt.not_gt]

/-- The merges of a recording get less and less convincing, however the linkage is set. -/
theorem mergingUnder_pairwise_ge [IsStrictOrderedRing K] (sqrt : K → K) (var : Option String)
    (fragments : List (Fragment K)) :
    ((mergingUnder sqrt var fragments).history.map Merge.sim).Pairwise (· ≥ ·) := by
  apply Merging.Regular.pairwise_ge ⟨?_, ?_⟩ rfl
  · intro a _ b _
    exact similarity_comm sqrt fragments a b
  · intro a _
    exact one_pos

/-! ## What the cut reads -/

/-- What `chooseCut` compares at each merge: the median of the similarities that it accepted
before, and the merge. -/
def readings (accepted : List K) : List (Merge K) → List (Option K × Merge K)
  | [] => []
  | e :: history => (median accepted, e) :: readings (accepted ++ [e.sim]) history

/-- The walk stops at the first merge that falls too far. -/
theorem chooseCut_eq_findIdx (accepted : List K) (m : ℕ) (history : List (Merge K)) :
    chooseCut accepted m history = m + (readings accepted history).findIdx fun r =>
      r.2.live ≤ maxInferredSpeakers ∧ r.2.sim < relativeDrop * r.1.getD 1 := by
  induction history generalizing accepted m with
  | nil => simp [chooseCut, readings]
  | cons e history ih =>
    rw [chooseCut, readings, List.findIdx_cons]
    split
    · rename_i hstop
      simp [hstop]
    · rename_i hstop
      rw [ih]
      simp [hstop]
      omega

/-- What bounds all values from below bounds the median: some value does not exceed it. -/
theorem le_median [IsStrictOrderedRing K] {values : List K} {c mid : K} (h : ∀ x ∈ values, c ≤ x)
    (hmid : median values = some mid) : c ≤ mid := by
  have hhalf := (median_middle hmid).1
  have hne : values ≠ [] := by
    rintro rfl
    cases hmid
  have hlength := List.length_pos_of_ne_nil hne
  have hpos : 0 < values.countP (· ≤ mid) := by omega
  obtain ⟨x, hx, hle⟩ := List.countP_pos_iff.mp hpos
  exact (h x hx).trans (of_decide_eq_true hle)

theorem readings_fall [IsStrictOrderedRing K] {accepted : List K} {history : List (Merge K)}
    (h : (accepted ++ history.map Merge.sim).Pairwise (· ≥ ·)) :
    ∀ r ∈ readings accepted history, ∀ within ∈ r.1, 0 ≤ within - r.2.sim := by
  induction history generalizing accepted with
  | nil => simp [readings]
  | cons e history ih =>
    rw [List.map_cons] at h
    intro r hr within hwithin
    rcases List.mem_cons.mp hr with rfl | hrest
    · rw [sub_nonneg]
      apply le_median _ hwithin
      intro x hx
      exact (List.pairwise_append.mp h).2.2 x hx e.sim List.mem_cons_self
    · exact ih (by rwa [List.append_assoc]) r hrest within hwithin

/-- For every symmetric table and each linkage, the merges get less and less similar: no fall that
either reading of the cut takes is negative, and all fragments are merged into one cluster. -/
theorem merges_less_convincing [IsStrictOrderedRing K] (l : Linkage) {n : ℕ} {w : ℕ → ℕ → K}
    (hw : ∀ a < n, ∀ b < n, w a b = w b a) (total : ℤ) (speech : ℕ → ℤ) :
    let s := Merging.runWith l n total n (.ofMatrix n total w speech)
    (s.history.map Merge.sim).Pairwise (· ≥ ·) ∧
      (∀ r ∈ readings [] s.history, ∀ within ∈ r.1, 0 ≤ within - r.2.sim) ∧
      (∀ k k', k ≤ k' → k' < s.peopleMerges.length →
        0 ≤ (s.peopleMerges.getD k (0, 0)).2 - (s.peopleMerges.getD k' (0, 0)).2) ∧
      s.history.length = n - 1 := by
  intro s
  have hregular : (Merging.ofMatrix n total w speech).Regular n :=
    ⟨fun a ha b hb => hw a ha.1 b hb.1, fun a _ => one_pos⟩
  have hsorted : (s.history.map Merge.sim).Pairwise (· ≥ ·) := hregular.pairwise_ge rfl total n
  have hpeople : (s.peopleMerges.map Prod.snd).Pairwise (· ≥ ·) :=
    hsorted.sublist (Merging.people_sublist total n (List.Sublist.refl []))
  refine ⟨hsorted, readings_fall hsorted, ?_, ?_⟩
  · intro k k' hle hk'
    rw [List.getD_eq_getElem _ _ hk', List.getD_eq_getElem _ _ (hle.trans_lt hk'), sub_nonneg]
    obtain hlt | rfl := hle.lt_or_eq
    · have hfall := List.pairwise_iff_getElem.mp hpeople k k' (by simpa using hle.trans_lt hk')
        (by simpa using hk') hlt
      simpa using hfall
    · exact le_rfl
  · have hall : #{i ∈ range n | (Merging.ofMatrix n total w speech).alive i} = n := by
      simp [Merging.ofMatrix]
    have hlength := Merging.history_length (l := l) total n hall
    rwa [show (Merging.ofMatrix n total w speech).history.length = 0 from rfl, Nat.zero_add]
      at hlength

theorem merges_less_convincing_twoPairs :
    (Merging.runWith .complete 4 0 4 (.ofMatrix 4 0 twoPairs fun _ => 0)).history.map Merge.sim =
        [9 / 10, 8 / 10, 1 / 10] ∧
      (Merging.runWith .complete 4 0 4 (.ofMatrix 4 0 twoPairs fun _ => 0)).history.length = 3 :=
  ⟨by decide +kernel,
    (merges_less_convincing .complete (by decide +kernel) 0 fun _ => 0).2.2.2⟩

end ScribeLocal.Asr
