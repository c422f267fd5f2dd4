import ScribeLocal.Asr.Shuffle

/-!
# The cut of a shuffled recording

The readings of the merge sequence see its costs, its people and the members of its clusters, and
none of these depends on the order of the fragments.
-/
namespace ScribeLocal.Asr
open Finset

variable {K : Type*} [Field K] [LinearOrder K]

/-- The walk reads how many clusters there were and what each merge cost. -/
theorem chooseCut_congr {history history' : List (Merge K)} (accepted : List K) (m : ℕ)
    (h : history'.map (fun e => (e.live, e.sim)) = history.map fun e => (e.live, e.sim)) :
    chooseCut accepted m history' = chooseCut accepted m history := by
  induction history generalizing history' accepted m with
  | nil =>
    rw [List.map_nil, List.map_eq_nil_iff] at h
    rw [h]
  | cons e history ih =>
    cases history' with
    | nil => simp at h
    | cons e' history' =>
      rw [List.map_cons, List.map_cons, List.cons.injEq, Prod.mk.injEq] at h
      obtain ⟨live', sim', pair'⟩ := e'
      obtain ⟨live, sim, pair⟩ := e
      obtain ⟨⟨rfl, rfl⟩, hrest⟩ := h
      rw [chooseCut, chooseCut, ih _ _ hrest]

/-! ## How loose a cluster is -/

variable (sqrt : K → K)

/-- The similarities of the pairs of a cluster. -/
def pairSims (embs : List (List K)) : List K :=
  embs.tails.flatMap fun t => t.tail.map fun b => cosine sqrt (t.headD []) b

theorem pairSims_cons (a : List K) (embs : List (List K)) :
    pairSims sqrt (a :: embs) = embs.map (cosine sqrt a) ++ pairSims sqrt embs := rfl

theorem le_pairSims_iff (c : K) (embs : List (List K)) :
    (∀ x ∈ pairSims sqrt embs, c ≤ x) ↔ embs.Pairwise fun a b => c ≤ cosine sqrt a b := by
  induction embs with
  | nil => simp [pairSims]
  | cons a embs ih =>
    rw [pairSims_cons, List.pairwise_cons, ← ih]
    simp [or_imp, forall_and]

omit [Field K] in
theorem le_foldl_min_iff (c a : K) (l : List K) : c ≤ l.foldl min a ↔ c ≤ a ∧ ∀ x ∈ l, c ≤ x := by
  induction l generalizing a with
  | nil => simp
  | cons x l ih =>
    rw [List.foldl_cons, ih, le_min_iff, List.forall_mem_cons, and_assoc]

omit [Field K] in
theorem foldl_min_perm {l l' : List K} (h : l'.Perm l) (a : K) :
    l'.foldl min a = l.foldl min a := by
  apply eq_of_forall_le_iff
  intro c
  rw [le_foldl_min_iff, le_foldl_min_iff]
  simp only [h.mem_iff]

/-- The loosest pair does not depend on the order of the members. -/
theorem foldl_min_pairSims_perm {embs embs' : List (List K)} (h : embs'.Perm embs) (a : K) :
    (pairSims sqrt embs').foldl min a = (pairSims sqrt embs).foldl min a := by
  apply eq_of_forall_le_iff
  intro c
  rw [le_foldl_min_iff, le_foldl_min_iff, le_pairSims_iff, le_pairSims_iff,
    h.pairwise_iff fun hab => by rwa [cosine_comm]]

variable {σ : Equiv.Perm ℕ} {fragments fragments' : List (Fragment K)}

theorem Shuffled.clusterWorstPair (hσ : Shuffled σ fragments fragments') {members members' : List ℕ}
    (h : (members'.map σ).Perm members) :
    clusterWorstPair sqrt fragments' members' = clusterWorstPair sqrt fragments members := by
  have hembs : (members'.filterMap (Asr.usableAt fragments')).Perm
      (members.filterMap (Asr.usableAt fragments)) := by
    have husable : Asr.usableAt fragments' = Asr.usableAt fragments ∘ σ := funext hσ.usableAt
    rw [husable, ← List.filterMap_map]
    exact h.filterMap _
  have hmin := foldl_min_pairSims_perm sqrt hembs f32Max
  rw [pairSims, pairSims] at hmin
  simp only [Asr.clusterWorstPair, hembs.length_eq, hmin]

/-! ## Where both runs stop -/

variable {s s' : Merging K}

omit [Field K] [LinearOrder K] in
/-- What is read of the members of the clusters is the same at every point. -/
theorem Merging.Mirrored.map_perm {β : Type*} (hσ : Shuffled σ fragments fragments')
    (h : s.Mirrored σ fragments fragments' s') (hf : s.Follows fragments)
    (hf' : s'.Follows fragments') (g g' : List ℕ → β)
    (hg : ∀ members members', (members'.map σ).Perm members → g' members' = g members) (k : ℕ) :
    ((replay (embedded fragments').length s'.history k (embedded fragments')).map g').Perm
      ((replay (embedded fragments).length s.history k (embedded fragments)).map g) := by
  have hr' := hf'.sound k
  rw [hσ.embedded_length] at hr'
  rw [replay_eq, replay_eq, hσ.embedded_length]
  exact (h.replays k).map_perm (hf.sound k) hr' (fun f => hσ.mem_embedded) fun i j hij =>
    hg _ _ (hij.perm (hf.sound k) hr')

omit [Field K] [LinearOrder K] in
theorem Merging.Mirrored.people_eq (hσ : Shuffled σ fragments fragments')
    (h : s.Mirrored σ fragments fragments' s') (hf : s.Follows fragments)
    (hf' : s'.Follows fragments') (k : ℕ) :
    Asr.people fragments' (replay (embedded fragments').length s'.history k (embedded fragments')) =
      Asr.people fragments (replay (embedded fragments).length s.history k (embedded fragments)) := by
  have hperm := h.map_perm hσ hf hf'
    (fun c => Asr.substantial (embeddedSpeech fragments) (clusterSpeech fragments c))
    (fun c => Asr.substantial (embeddedSpeech fragments') (clusterSpeech fragments' c))
    (fun members members' hperm => by
      rw [hσ.embeddedSpeech, clusterSpeech, clusterSpeech,
        ← (hperm.map (speechAt fragments)).sum_eq, List.map_map]
      congr 2
      exact List.map_congr_left fun f _ => hσ.speechAt f) k
  have hcount := hperm.countP_eq id
  rw [List.countP_map, List.countP_map] at hcount
  exact hcount

omit [Field K] [LinearOrder K] in
theorem Merging.Mirrored.substantial (hσ : Shuffled σ fragments fragments')
    (h : s.Mirrored σ fragments fragments' s') (hf : s.Follows fragments)
    (hf' : s'.Follows fragments') : s'.substantial = s.substantial := by
  rw [hf.counts, hf'.counts, h.length]
  exact List.map_congr_left fun k _ => h.people_eq hσ hf hf' k

theorem Merging.Mirrored.discovered (h : s.Mirrored σ fragments fragments' s') :
    discovered s' = discovered s := by
  rw [Asr.discovered, Asr.discovered, chooseCut_congr [] 0 h.costs, h.people]

theorem Merging.Mirrored.stepBack (hσ : Shuffled σ fragments fragments')
    (h : s.Mirrored σ fragments fragments' s') (hf : s.Follows fragments)
    (hf' : s'.Follows fragments') (steps c : ℕ) :
    stepBack sqrt fragments' s'.history steps c = stepBack sqrt fragments s.history steps c := by
  induction steps generalizing c with
  | zero => rfl
  | succ steps ih =>
    cases c with
    | zero => rfl
    | succ c =>
      have hworsts : ((replay (embedded fragments').length s'.history (c + 1)
          (embedded fragments')).filterMap (clusterWorstPair sqrt fragments')).Perm
            ((replay (embedded fragments).length s.history (c + 1)
              (embedded fragments)).filterMap (clusterWorstPair sqrt fragments)) := by
        have hperm := (h.map_perm hσ hf hf' _ _
          (fun _ _ hperm => hσ.clusterWorstPair sqrt hperm) (c + 1)).filterMap id
        rwa [List.filterMap_map, List.filterMap_map] at hperm
      rw [Asr.stepBack, Asr.stepBack]
      simp only [hworsts.length_eq, median_perm hworsts, foldl_min_perm hworsts, ih]

variable [CharZero K]

/-- Both runs are cut at the same point. -/
theorem Shuffled.cut (hσ : Shuffled σ fragments fragments') (hne : embedded fragments ≠ [])
    (hd : ∀ t < (embedded fragments).length,
      (Merging.after (embedded fragments).length (Asr.embeddedSpeech fragments)
        (Merging.start sqrt fragments) t).Distinct (embedded fragments).length)
    (expected : Option ℤ) : cut sqrt fragments' expected = cut sqrt fragments expected := by
  have hm := merging_mirrored sqrt hσ hne hd
  have hf := merging_follows sqrt fragments
  have hf' := merging_follows sqrt fragments'
  rw [Asr.cut, Asr.cut, hσ.embedded_length]
  simp only [hm.discovered, hm.substantial hσ hf hf', hm.stepBack sqrt hσ hf hf']

end ScribeLocal.Asr
