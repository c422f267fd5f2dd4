import ScribeLocal.Asr.Speakers

/-!
# Voices

Each speaker has a voice, and refining gives a fragment to the speaker whose voice it resembles
most.
-/
namespace ScribeLocal.Asr

variable {K : Type*} [Field K] [LinearOrder K] (sqrt : K → K)

/-! ## The speakers with a voice -/

omit [Field K] [LinearOrder K] in
theorem usableAt_eq_some {fragments : List (Fragment K)} {i : ℕ} {emb : List K}
    (h : usableAt fragments i = some emb) : i ∈ embedded fragments := by
  rw [mem_embedded, h]
  refine ⟨?_, rfl⟩
  rw [usableAt, Option.bind_eq_some_iff] at h
  obtain ⟨f, hf, -⟩ := h
  exact (List.getElem?_eq_some_iff.mp hf).1

section Counted
variable {α β γ : Type*} {step : Option β → γ → Option β} {counts : γ → Option α}
  {add : Option β → γ → α → β}

/-- A fold over what counts leaves something exactly where something counted. -/
theorem foldl_isSome_iff
    (hstep : ∀ entry f, step entry f = (counts f).elim entry fun x => some (add entry f x))
    (l : List γ) (entry : Option β) :
    (l.foldl step entry).isSome ↔ entry.isSome ∨ ∃ f ∈ l, (counts f).isSome := by
  induction l generalizing entry with
  | nil => simp
  | cons f l ih =>
    rw [List.foldl_cons, ih, hstep]
    cases hf : counts f with
    | none => simp [hf]
    | some x => simp [hf]

/-- Two steps commute where adding does. -/
theorem step_comm
    (hstep : ∀ entry f, step entry f = (counts f).elim entry fun x => some (add entry f x))
    {f g : γ} (entry : Option β)
    (hadd : ∀ x ∈ counts f, ∀ y ∈ counts g,
      add (some (add entry f x)) g y = add (some (add entry g y)) f x) :
    step (step entry f) g = step (step entry g) f := by
  rw [hstep entry f, hstep entry g]
  cases hf : counts f with
  | none => simp [hstep, hf]
  | some x =>
    cases hg : counts g with
    | none => simp [hstep, hf, hg]
    | some y =>
      simp only [hstep, hf, hg, Option.elim_some]
      rw [hadd x hf y hg]

end Counted

/-- What one fragment adds to the voice of `c`. -/
def voiceStep (a : Assignment) (c : ℤ) (entry : Option (List K × K)) (f : Fragment K × ℕ) :
    Option (List K × K) :=
  match f.1.usable with
  | none => entry
  | some emb =>
    if a f.2 = c then
      let (sum, weight) := entry.getD (List.replicate emb.length 0, 0)
      if sum.length ≠ emb.length then some (sum, weight)
      else some (addWeighted sum emb f.1.weight, weight + f.1.weight)
    else entry

theorem voiceOf_eq (fragments : List (Fragment K)) (a : Assignment) (c : ℤ) :
    voiceOf sqrt fragments a c =
      (fragments.zipIdx.foldl (voiceStep a c) none).map fun (sum, _) => l2Normalize sqrt sum := rfl

/-- The sum and weight of a voice with one more fragment. An embedding of another length is
passed over. -/
def voiceAdd (entry : Option (List K × K)) (f : Fragment K × ℕ) (emb : List K) : List K × K :=
  let (sum, weight) := entry.getD (List.replicate emb.length 0, 0)
  if sum.length ≠ emb.length then (sum, weight)
  else (addWeighted sum emb f.1.weight, weight + f.1.weight)

omit [LinearOrder K] in
theorem voiceStep_eq (a : Assignment) (c : ℤ) (entry : Option (List K × K))
    (f : Fragment K × ℕ) : voiceStep a c entry f =
      (if a f.2 = c then f.1.usable else none).elim entry fun emb =>
        some (voiceAdd entry f emb) := by
  rw [voiceStep]
  cases f.1.usable with
  | none => simp
  | some emb =>
    by_cases hc : a f.2 = c
    · simp only [hc, if_true, voiceAdd, Option.elim_some, apply_ite some]
    · simp [hc]

/-- The speakers with a voice are those of the embedded fragments. -/
theorem voiceOf_isSome (fragments : List (Fragment K)) (a : Assignment) (c : ℤ) :
    (voiceOf sqrt fragments a c).isSome ↔ ∃ i ∈ embedded fragments, a i = c := by
  rw [voiceOf_eq, Option.isSome_map, foldl_isSome_iff (voiceStep_eq a c)]
  simp only [Option.isSome_none, Bool.false_eq_true, false_or]
  constructor
  · rintro ⟨⟨f, i⟩, hf, hcounts⟩
    have hf := List.mk_mem_zipIdx_iff_getElem?.mp hf
    obtain ⟨hc, husable⟩ : a i = c ∧ f.usable.isSome := by
      split at hcounts
      · exact ⟨‹_›, hcounts⟩
      · cases hcounts
    refine ⟨i, mem_embedded.mpr ⟨(List.getElem?_eq_some_iff.mp hf).1, ?_⟩, hc⟩
    simpa [usableAt, hf] using husable
  · rintro ⟨i, hi, hc⟩
    obtain ⟨hlt, husable⟩ := mem_embedded.mp hi
    refine ⟨(fragments[i], i), List.mk_mem_zipIdx_iff_getElem?.mpr (by simp), ?_⟩
    simpa [usableAt, hlt, hc] using husable

theorem mem_voices {fragments : List (Fragment K)} {a : Assignment} {c : ℤ} :
    c ∈ (voices sqrt fragments a).map Prod.fst ↔ ∃ i ∈ embedded fragments, a i = c := by
  rw [← voiceOf_isSome sqrt]
  simp only [voices, List.mem_map, List.mem_filterMap, Option.map_eq_some_iff, Prod.exists]
  constructor
  · rintro ⟨c, v, ⟨d, hd, w, hw, heq⟩, rfl⟩
    obtain ⟨rfl, rfl⟩ := Prod.mk.inj heq
    simp [hw]
  · intro h
    obtain ⟨v, hv⟩ := Option.isSome_iff_exists.mp h
    obtain ⟨i, hi, rfl⟩ := (voiceOf_isSome sqrt fragments a c).mp h
    exact ⟨a i, v, ⟨a i, mem_seen.mpr (mem_speakers.mpr ⟨i, (mem_embedded.mp hi).1, rfl⟩),
      v, hv, rfl⟩, rfl⟩

theorem voices_nodup (fragments : List (Fragment K)) (a : Assignment) :
    ((voices sqrt fragments a).map Prod.fst).Nodup := by
  have hsub : ((voices sqrt fragments a).map Prod.fst).Sublist (seen fragments.length a) := by
    rw [voices]
    induction seen fragments.length a with
    | nil => simp
    | cons c cs ih =>
      rw [List.filterMap_cons]
      cases voiceOf sqrt fragments a c with
      | none => exact ih.cons c
      | some v => exact ih.cons_cons c
  exact hsub.nodup (seen_nodup _ _)

/-- Fewer than two voices: the embedded fragments have one speaker. -/
theorem voices_length_lt_two {fragments : List (Fragment K)} {a : Assignment} :
    (voices sqrt fragments a).length < 2 ↔
      ∀ i ∈ embedded fragments, ∀ j ∈ embedded fragments, a i = a j := by
  have hnodup := voices_nodup sqrt fragments a
  have hmem : ∀ c, c ∈ (voices sqrt fragments a).map Prod.fst ↔
    ∃ i ∈ embedded fragments, a i = c := fun c => mem_voices sqrt
  rw [← List.length_map (f := Prod.fst)]
  generalize (voices sqrt fragments a).map Prod.fst = cs at hnodup hmem ⊢
  constructor
  · intro hlt i hi j hj
    have hi := (hmem (a i)).mpr ⟨i, hi, rfl⟩
    have hj := (hmem (a j)).mpr ⟨j, hj, rfl⟩
    match cs, hlt with
    | [], _ => simp at hi
    | [c], _ => rw [List.mem_singleton.mp hi, List.mem_singleton.mp hj]
  · intro h
    match cs with
    | [] => simp
    | [c] => simp
    | c :: d :: cs =>
      obtain ⟨i, hi, rfl⟩ := (hmem c).mp (by simp)
      obtain ⟨j, hj, rfl⟩ := (hmem d).mp (by simp)
      rw [h i hi j hj] at hnodup
      simp at hnodup

theorem revoiced_of_notMem {fragments : List (Fragment K)} {a : Assignment} {i : ℕ}
    (hi : i ∉ embedded fragments) :
    revoiced sqrt fragments a i = a i := by
  rw [revoiced]
  cases h : usableAt fragments i with
  | none => rfl
  | some emb => exact absurd (usableAt_eq_some h) hi

/-- With one voice nothing moves. -/
theorem revoiced_of_single {fragments : List (Fragment K)} {a : Assignment}
    (h : (voices sqrt fragments a).length < 2) : revoiced sqrt fragments a = a := by
  have hsame := (voices_length_lt_two sqrt).mp h
  funext i
  rw [revoiced]
  cases husable : usableAt fragments i with
  | none => rfl
  | some emb =>
    obtain hown | hvoice := nearestVoice_mem sqrt (voices sqrt fragments a) (a i) emb
    · exact hown
    · obtain ⟨j, hj, heq⟩ := (mem_voices sqrt).mp hvoice
      exact heq.symm.trans (hsame j hj i (usableAt_eq_some husable))

/-! ## Closest voices -/

theorem seen_sorted (m : ℕ) (a : Assignment) : (seen m a).Pairwise (· ≤ ·) :=
  List.pairwise_insertionSort _ _

/-- The voices stand in the order of their speakers. -/
theorem voices_sorted (fragments : List (Fragment K)) (a : Assignment) :
    (voices sqrt fragments a).Pairwise fun u v => u.1 < v.1 := by
  have hlt : (seen fragments.length a).Pairwise (· < ·) :=
    (seen_sorted _ a).imp₂ (fun _ _ hle hne => lt_of_le_of_ne hle hne) (seen_nodup _ a)
  apply List.Pairwise.filterMap _ _ hlt
  intro c d hcd u hu v hv
  obtain ⟨_, -, rfl⟩ := Option.map_eq_some_iff.mp hu
  obtain ⟨_, -, rfl⟩ := Option.map_eq_some_iff.mp hv
  exact hcd

/-- The embedding resembles this voice most, and none of a lower index as much. -/
def Closest (vs : List (ℤ × List K)) (emb : List K) (v : ℤ × List K) : Prop :=
  v.2.length = emb.length ∧ -f32Max < cosine sqrt v.2 emb ∧
    ∀ u ∈ vs, u.2.length = emb.length →
      cosine sqrt u.2 emb ≤ cosine sqrt v.2 emb ∧
        (u.1 < v.1 → cosine sqrt u.2 emb < cosine sqrt v.2 emb)

/-- The embedding can be compared with no voice. -/
def Incomparable (vs : List (ℤ × List K)) (emb : List K) : Prop :=
  ∀ v ∈ vs, v.2.length = emb.length → cosine sqrt v.2 emb ≤ -f32Max

instance (vs : List (ℤ × List K)) (emb : List K) (v : ℤ × List K) :
    Decidable (Closest sqrt vs emb v) := inferInstanceAs (Decidable (_ ∧ _ ∧ _))

instance (vs : List (ℤ × List K)) (emb : List K) : Decidable (Incomparable sqrt vs emb) :=
  inferInstanceAs (Decidable (∀ v ∈ vs, _))

/-- One voice on the walk. -/
def nearestStep (emb : List K) (best : ℤ × K) (v : ℤ × List K) : ℤ × K :=
  if v.2.length ≠ emb.length then best
  else if best.2 < cosine sqrt v.2 emb then (v.1, cosine sqrt v.2 emb) else best

theorem nearestVoice_eq (vs : List (ℤ × List K)) (own : ℤ) (emb : List K) :
    nearestVoice sqrt vs own emb = (vs.foldl (nearestStep sqrt emb) (own, -f32Max)).1 := rfl

/-- The walk stands at the closest of these voices, or where it has started. -/
def Walked (vs : List (ℤ × List K)) (own : ℤ) (emb : List K) (best : ℤ × K) : Prop :=
  Incomparable sqrt vs emb ∧ best = (own, -f32Max) ∨
    ∃ v ∈ vs, Closest sqrt vs emb v ∧ best = (v.1, cosine sqrt v.2 emb)

section Walk
variable {sqrt} {vs : List (ℤ × List K)} {own : ℤ} {emb : List K} {best : ℤ × K} {w : ℤ × List K}

theorem Walked.floor (h : Walked sqrt vs own emb best) : -f32Max ≤ best.2 := by
  rcases h with ⟨-, rfl⟩ | ⟨v, -, hclosest, rfl⟩
  · exact le_rfl
  · exact hclosest.2.1.le

theorem Walked.le (h : Walked sqrt vs own emb best) :
    ∀ u ∈ vs, u.2.length = emb.length → cosine sqrt u.2 emb ≤ best.2 := by
  rcases h with ⟨hnone, rfl⟩ | ⟨v, -, hclosest, rfl⟩
  · exact hnone
  · exact fun u hu hlength => (hclosest.2.2 u hu hlength).1

/-- A voice that is no better is passed by. -/
theorem Walked.pass (h : Walked sqrt vs own emb best) (hlater : ∀ u ∈ vs, u.1 < w.1)
    (hle : w.2.length = emb.length → cosine sqrt w.2 emb ≤ best.2) :
    Walked sqrt (vs ++ [w]) own emb best := by
  rcases h with ⟨hnone, rfl⟩ | ⟨v, hv, hclosest, rfl⟩
  · refine .inl ⟨fun u hu => ?_, rfl⟩
    rcases List.mem_append.mp hu with hold | hnew
    · exact hnone u hold
    · rw [List.mem_singleton.mp hnew]
      exact hle
  · refine .inr ⟨v, List.mem_append_left _ hv, ⟨hclosest.1, hclosest.2.1, fun u hu => ?_⟩, rfl⟩
    rcases List.mem_append.mp hu with hold | hnew
    · exact hclosest.2.2 u hold
    · rw [List.mem_singleton.mp hnew]
      exact fun hlength => ⟨hle hlength, fun hlt => absurd hlt (hlater v hv).not_gt⟩

/-- A better one is taken. -/
theorem Walked.take (h : Walked sqrt vs own emb best) (hlength : w.2.length = emb.length)
    (hlt : best.2 < cosine sqrt w.2 emb) :
    Walked sqrt (vs ++ [w]) own emb (w.1, cosine sqrt w.2 emb) := by
  refine .inr ⟨w, by simp, ⟨hlength, h.floor.trans_lt hlt, fun u hu hulength => ?_⟩, rfl⟩
  rcases List.mem_append.mp hu with hold | hnew
  · have hbelow := (h.le u hold hulength).trans_lt hlt
    exact ⟨hbelow.le, fun _ => hbelow⟩
  · rw [List.mem_singleton.mp hnew]
    exact ⟨le_rfl, fun hself => absurd hself (lt_irrefl _)⟩

theorem Walked.step (h : Walked sqrt vs own emb best) (hlater : ∀ u ∈ vs, u.1 < w.1) :
    Walked sqrt (vs ++ [w]) own emb (nearestStep sqrt emb best w) := by
  unfold nearestStep
  by_cases hlength : w.2.length = emb.length
  · rw [if_neg (not_not.mpr hlength)]
    by_cases hlt : best.2 < cosine sqrt w.2 emb
    · rw [if_pos hlt]
      exact h.take hlength hlt
    · rw [if_neg hlt]
      exact h.pass hlater fun _ => not_lt.mp hlt
  · rw [if_pos hlength]
    exact h.pass hlater fun heq => absurd heq hlength

variable (sqrt) in
theorem walked_foldl (hsorted : vs.Pairwise fun u v => u.1 < v.1) (own : ℤ) (emb : List K) :
    Walked sqrt vs own emb (vs.foldl (nearestStep sqrt emb) (own, -f32Max)) := by
  induction vs using List.reverseRecOn with
  | nil => exact .inl ⟨nofun, rfl⟩
  | append_singleton vs w ih =>
    obtain ⟨hbefore, -, hlast⟩ := List.pairwise_append.mp hsorted
    rw [List.foldl_concat]
    exact (ih hbefore).step fun u hu => hlast u hu w (List.mem_singleton_self w)

end Walk

/-- The walk over the voices ends at the closest, or where it has started. -/
theorem nearestVoice_closest {vs : List (ℤ × List K)} (hsorted : vs.Pairwise fun u v => u.1 < v.1)
    (own : ℤ) (emb : List K) :
    Incomparable sqrt vs emb ∧ nearestVoice sqrt vs own emb = own ∨
      ∃ v ∈ vs, Closest sqrt vs emb v ∧ nearestVoice sqrt vs own emb = v.1 := by
  rw [nearestVoice_eq]
  rcases walked_foldl sqrt hsorted own emb with ⟨hnone, heq⟩ | ⟨v, hv, hclosest, heq⟩
  · exact .inl ⟨hnone, by rw [heq]⟩
  · exact .inr ⟨v, hv, hclosest, by rw [heq]⟩

/-- No two voices are closest. -/
theorem Closest.eq {vs : List (ℤ × List K)} {emb : List K} {u v : ℤ × List K} (hu : u ∈ vs)
    (hv : v ∈ vs) (hclosest : Closest sqrt vs emb u) (hclosest' : Closest sqrt vs emb v) :
    u.1 = v.1 := by
  obtain ⟨hle, hlt⟩ := hclosest.2.2 v hv hclosest'.1
  obtain ⟨hle', hlt'⟩ := hclosest'.2.2 u hu hclosest.1
  rcases lt_trichotomy u.1 v.1 with h | h | h
  · exact absurd (hlt' h) hle.not_gt
  · exact h
  · exact absurd (hlt h) hle'.not_gt

/-- Whose voice a fragment resembles most: its own speaker's, where it has nothing to compare. -/
def Resembles (fragments : List (Fragment K)) (a : Assignment) (i : ℕ) (c : ℤ) : Prop :=
  match usableAt fragments i with
  | none => a i = c
  | some emb =>
    let vs := voices sqrt fragments a
    (∃ v ∈ vs, v.1 = c ∧ Closest sqrt vs emb v) ∨ Incomparable sqrt vs emb ∧ a i = c

instance (fragments : List (Fragment K)) (a : Assignment) (i : ℕ) (c : ℤ) :
    Decidable (Resembles sqrt fragments a i c) :=
  match h : usableAt fragments i with
  | none => decidable_of_iff (a i = c) (by rw [Resembles, h])
  | some emb =>
    decidable_of_iff ((∃ v ∈ voices sqrt fragments a, v.1 = c ∧
        Closest sqrt (voices sqrt fragments a) emb v) ∨
      Incomparable sqrt (voices sqrt fragments a) emb ∧ a i = c) (by rw [Resembles, h])

/-- The voice pass leaves each fragment with the speaker whose voice it resembles most. -/
theorem voiced_eq_iff {fragments : List (Fragment K)} {a : Assignment} {i : ℕ} {c : ℤ} :
    voiced sqrt fragments a i = c ↔ Resembles sqrt fragments a i c := by
  have hvoiced : voiced sqrt fragments a = revoiced sqrt fragments a := by
    unfold voiced
    split
    · rename_i hsingle
      exact (revoiced_of_single sqrt hsingle).symm
    · rfl
  rw [hvoiced]
  unfold revoiced Resembles
  cases usableAt fragments i with
  | none => exact Iff.rfl
  | some emb =>
    dsimp only
    rcases nearestVoice_closest sqrt (voices_sorted sqrt fragments a) (a i) emb with
      ⟨hnone, heq⟩ | ⟨v, hv, hclosest, heq⟩
    · rw [heq]
      constructor
      · exact fun hown => .inr ⟨hnone, hown⟩
      · rintro (⟨u, hu, -, hclosest⟩ | ⟨-, hown⟩)
        · exact absurd hclosest.2.1 (hnone u hu hclosest.1).not_gt
        · exact hown
    · rw [heq]
      constructor
      · rintro rfl
        exact .inl ⟨v, hv, rfl, hclosest⟩
      · rintro (⟨u, hu, rfl, hclosest'⟩ | ⟨hnone, -⟩)
        · exact Closest.eq sqrt hv hu hclosest hclosest'
        · exact absurd hclosest.2.1 (hnone v hv hclosest.1).not_gt

end ScribeLocal.Asr
