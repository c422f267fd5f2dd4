import ScribeLocal.Asr.Cluster
import ScribeLocal.Core.Types
import ScribeLocal.Greedy

/-!
# Voices and the enrolled speakers

`resolve_identities` matches the voices of a recording with the enrolled speakers, best pair
first. Similarities are exact numbers; `similarity` stands for the stage's own `cosine`, which
with its own `median` has the text of the one the clustering uses.
-/
namespace ScribeLocal.Pipeline
open Asr Greedy

variable {K : Type*} [Field K] [LinearOrder K]

def separation : K := 1 / 10

def matchConsistency : K := 0.75

/-- A pair that may be taken. -/
structure Candidate (K : Type*) where
  sim : K
  localIdx : ℤ
  speakerId : Uuid
  deriving DecidableEq

/-- Best first; ties break on the local index, then the speaker id. -/
def Candidate.key (c : Candidate K) : Kᵒᵈ ×ₗ ℤ ×ₗ Uuid :=
  toLex (OrderDual.toDual c.sim, toLex (c.localIdx, c.speakerId))

/-- Whether `score` clears the threshold and stands clear of the scores against the rest. -/
def clears (threshold score : K) (rest : List K) : Bool :=
  threshold ≤ score &&
    match median rest with
    | some baseline => separation ≤ score - baseline
    | none => true

variable (similarity : List K → List K → K)

def candidatesOf (enrolled : List (Uuid × List K)) (threshold : K) (voice : ℤ × List K) :
    List (Candidate K) :=
  let scores := enrolled.map fun e => similarity voice.2 e.2
  enrolled.zipIdx.filterMap fun (e, i) =>
    let score := scores.getD i 0
    if clears threshold score (scores.eraseIdx i) then some ⟨score, voice.1, e.1⟩ else none

/-- The pairs that may be taken, best first. -/
def ranked (voices : List (ℤ × List K)) (enrolled : List (Uuid × List K)) (threshold : K) :
    List (Candidate K) :=
  (voices.flatMap (candidatesOf similarity enrolled threshold)).insertionSort
    fun a b => a.key ≤ b.key

/-- The variables of the loop over the candidates. -/
structure Resolving (K : Type*) where
  resolved : ℤ → Option (Uuid × K)
  claimed : List Uuid
  accepted : List K

def Resolving.start : Resolving K := ⟨fun _ => none, [], []⟩

def Resolving.step (s : Resolving K) (c : Candidate K) : Resolving K :=
  if (s.resolved c.localIdx).isSome || s.claimed.contains c.speakerId then s
  else if (median s.accepted).any fun standard => c.sim < matchConsistency * standard then s
  else
    { resolved := Function.update s.resolved c.localIdx (some (c.speakerId, c.sim))
      claimed := c.speakerId :: s.claimed
      accepted := s.accepted ++ [c.sim] }

def resolveIdentities (voices : List (ℤ × List K)) (enrolled : List (Uuid × List K))
    (threshold : K) : ℤ → Option (Uuid × K) :=
  ((ranked similarity voices enrolled threshold).foldl Resolving.step .start).resolved

/-! ## The pairs that are taken -/

/-- Neither side is taken, and the pair keeps up with the ones taken so far. -/
def allows (chosen : List (Candidate K)) (c : Candidate K) : Bool :=
  (chosen.all fun d => d.localIdx ≠ c.localIdx && d.speakerId ≠ c.speakerId) &&
    !(median (chosen.map Candidate.sim)).any fun standard => c.sim < matchConsistency * standard

/-- The variables of the loop are read off the pairs taken so far. -/
structure Resolving.Holds (s : Resolving K) (chosen : List (Candidate K)) : Prop where
  resolved : ∀ l u x, s.resolved l = some (u, x) ↔ ⟨x, l, u⟩ ∈ chosen
  claimed : s.claimed = (chosen.map Candidate.speakerId).reverse
  accepted : s.accepted = chosen.map Candidate.sim

variable {s : Resolving K} {chosen : List (Candidate K)} {c d : Candidate K}

omit [Field K] [LinearOrder K] in
theorem Resolving.Holds.isSome_iff (h : s.Holds chosen) (l : ℤ) :
    (s.resolved l).isSome ↔ ∃ d ∈ chosen, d.localIdx = l := by
  rw [Option.isSome_iff_exists]
  constructor
  · rintro ⟨⟨u, x⟩, hl⟩
    exact ⟨_, (h.resolved l u x).mp hl, rfl⟩
  · rintro ⟨d, hd, rfl⟩
    exact ⟨_, (h.resolved d.localIdx d.speakerId d.sim).mpr hd⟩

omit [Field K] [LinearOrder K] in
theorem Resolving.start_holds : (Resolving.start : Resolving K).Holds [] where
  resolved _ _ _ := by simp [Resolving.start]
  claimed := rfl
  accepted := rfl

/-- The loop takes a pair exactly when the ones taken allow it. -/
theorem Resolving.Holds.step (h : s.Holds chosen) (c : Candidate K) :
    (s.step c).Holds (pick allows chosen c) := by
  have hfree : ((s.resolved c.localIdx).isSome || s.claimed.contains c.speakerId) =
      !chosen.all fun d => d.localIdx ≠ c.localIdx && d.speakerId ≠ c.speakerId := by
    rw [Bool.eq_iff_iff, Bool.or_eq_true, h.isSome_iff, h.claimed]
    simp only [List.contains_iff_mem, List.mem_reverse, List.mem_map, Bool.not_eq_true',
      List.all_eq_false, Bool.and_eq_true, decide_eq_true_eq, not_and_or, not_not]
    constructor
    · rintro (⟨d, hd, heq⟩ | ⟨d, hd, heq⟩)
      · exact ⟨d, hd, .inl heq⟩
      · exact ⟨d, hd, .inr heq⟩
    · rintro ⟨d, hd, heq | heq⟩
      · exact .inl ⟨d, hd, heq⟩
      · exact .inr ⟨d, hd, heq⟩
  rw [Resolving.step, hfree, h.accepted]
  cases hall : chosen.all fun d => d.localIdx ≠ c.localIdx && d.speakerId ≠ c.speakerId with
  | false =>
    rw [pick_of_not_ok (by simp only [allows, hall, Bool.false_and])]
    exact h
  | true =>
    cases hany : (median (chosen.map Candidate.sim)).any fun standard =>
        c.sim < matchConsistency * standard with
    | true =>
      rw [pick_of_not_ok (by simp only [allows, hany, Bool.not_true, Bool.and_false])]
      exact h
    | false =>
      rw [pick_of_ok (by simp only [allows, hall, hany, Bool.not_false, Bool.and_self])]
      have hapart : ∀ d ∈ chosen, d.localIdx ≠ c.localIdx := by
        intro d hd
        have hd := List.all_eq_true.mp hall d hd
        simp only [Bool.and_eq_true, decide_eq_true_eq] at hd
        exact hd.1
      refine ⟨?_, by simp [h.claimed], by simp⟩
      intro l u x
      show Function.update s.resolved c.localIdx (some (c.speakerId, c.sim)) l = _ ↔ _
      rw [List.mem_append, List.mem_singleton, ← h.resolved l u x]
      by_cases hl : l = c.localIdx
      · subst hl
        have hnone : s.resolved c.localIdx ≠ some (u, x) := by
          intro hsome
          exact hapart _ ((h.resolved _ u x).mp hsome) rfl
        rw [Function.update_self]
        constructor
        · intro heq
          cases heq
          exact .inr rfl
        · rintro (hsome | heq)
          · exact absurd hsome hnone
          · rw [← heq]
      · rw [Function.update_of_ne hl]
        refine ⟨.inl, fun hor => hor.resolve_right ?_⟩
        intro heq
        exact hl (congrArg Candidate.localIdx heq)

theorem Resolving.Holds.run (h : s.Holds chosen) (items : List (Candidate K)) :
    (items.foldl Resolving.step s).Holds (items.foldl (pick allows) chosen) := by
  induction items generalizing s chosen with
  | nil => exact h
  | cons c items ih => exact ih (h.step c)

variable {similarity} {voices voices' : List (ℤ × List K)} {enrolled enrolled' : List (Uuid × List K)}
  {threshold : K}

/-- What is resolved are the pairs a greedy choice takes of the ranked candidates. -/
theorem resolved_iff : resolveIdentities similarity voices enrolled threshold c.localIdx =
    some (c.speakerId, c.sim) ↔ c ∈ choose allows (ranked similarity voices enrolled threshold) :=
  (Resolving.start_holds.run _).resolved c.localIdx c.speakerId c.sim

/-! ## The pairs that may be taken -/

/-- What a voice scores against everybody else that is enrolled. -/
def scoresOfRest (similarity : List K → List K → K) (enrolled : List (Uuid × List K))
    (embedding : List K) (u : Uuid) : List K :=
  (enrolled.filter fun e => e.1 ≠ u).map fun e => similarity embedding e.2

/-- The pair of a voice and an enrolled speaker clears the threshold, and when the library has
others it stands clear of the median of the voice's similarities to them. -/
def Admissible (similarity : List K → List K → K) (voices : List (ℤ × List K))
    (enrolled : List (Uuid × List K)) (threshold : K) (c : Candidate K) : Prop :=
  ∃ embedding voiceprint, (c.localIdx, embedding) ∈ voices ∧ (c.speakerId, voiceprint) ∈ enrolled ∧
    c.sim = similarity embedding voiceprint ∧ threshold ≤ c.sim ∧
    ∀ baseline ∈ median (scoresOfRest similarity enrolled embedding c.speakerId),
      separation ≤ c.sim - baseline

omit [Field K] [LinearOrder K] in
/-- Leaving out a position is leaving out an id. -/
theorem eraseIdx_scores {embedding : List K} (h : (enrolled.map Prod.fst).Nodup) {e : Uuid × List K}
    {i : ℕ} (hi : enrolled[i]? = some e) :
    (enrolled.map fun e => similarity embedding e.2).eraseIdx i =
      scoresOfRest similarity enrolled embedding e.1 := by
  rw [List.eraseIdx_map, scoresOfRest]
  congr 1
  induction enrolled generalizing i with
  | nil => simp at hi
  | cons f enrolled ih =>
    rw [List.map_cons, List.nodup_cons] at h
    cases i with
    | zero =>
      obtain rfl : f = e := by simpa using hi
      have hrest : ∀ g ∈ enrolled, g.1 ≠ f.1 := by
        intro g hg heq
        exact h.1 (heq ▸ List.mem_map_of_mem hg)
      rw [List.eraseIdx_cons_zero, List.filter_cons_of_neg (by simp), List.filter_eq_self.mpr]
      simpa using hrest
    | succ i =>
      have hmem : e ∈ enrolled := List.mem_of_getElem? (by simpa using hi)
      have hne : f.1 ≠ e.1 := fun heq => h.1 (heq ▸ List.mem_map_of_mem hmem)
      rw [List.eraseIdx_cons_succ, List.filter_cons_of_pos (by simpa using hne),
        ih h.2 (by simpa using hi)]

theorem clears_iff {score : K} {rest : List K} : clears threshold score rest ↔
    threshold ≤ score ∧ ∀ baseline ∈ median rest, separation ≤ score - baseline := by
  rw [clears, Bool.and_eq_true, decide_eq_true_eq]
  cases median rest <;> simp

/-- The candidates of a voice, each enrolled speaker judged against the others by id. -/
theorem candidatesOf_eq (h : (enrolled.map Prod.fst).Nodup) (voice : ℤ × List K) :
    candidatesOf similarity enrolled threshold voice = enrolled.filterMap fun e =>
      let score := similarity voice.2 e.2
      if clears threshold score (scoresOfRest similarity enrolled voice.2 e.1) then
        some ⟨score, voice.1, e.1⟩
      else none := by
  rw [candidatesOf]
  conv_rhs => rw [← List.zipIdx_map_fst 0 enrolled, List.filterMap_map]
  apply List.filterMap_congr
  rintro ⟨e, i⟩ hmem
  have hi : enrolled[i]? = some e := List.mk_mem_zipIdx_iff_getElem?.mp hmem
  have hscore : (enrolled.map fun e => similarity voice.2 e.2).getD i 0 = similarity voice.2 e.2 := by
    rw [List.getD_eq_getElem?_getD, List.getElem?_map, hi]
    rfl
  simp only [hscore, eraseIdx_scores h hi, Function.comp_apply, List.zipIdx_map_fst]

theorem mem_ranked (h : (enrolled.map Prod.fst).Nodup) :
    c ∈ ranked similarity voices enrolled threshold ↔
      Admissible similarity voices enrolled threshold c := by
  rw [ranked, List.mem_insertionSort, List.mem_flatMap]
  constructor
  · rintro ⟨⟨l, embedding⟩, hvoice, hc⟩
    rw [candidatesOf_eq h, List.mem_filterMap] at hc
    obtain ⟨⟨u, voiceprint⟩, he, hc⟩ := hc
    rw [Option.ite_none_right_eq_some, clears_iff, Option.some_inj] at hc
    obtain ⟨⟨hthreshold, hrest⟩, rfl⟩ := hc
    exact ⟨embedding, voiceprint, hvoice, he, rfl, hthreshold, hrest⟩
  · rintro ⟨embedding, voiceprint, hvoice, he, hsim, hthreshold, hrest⟩
    refine ⟨_, hvoice, ?_⟩
    rw [candidatesOf_eq h, List.mem_filterMap]
    refine ⟨_, he, ?_⟩
    rw [Option.ite_none_right_eq_some, clears_iff, Option.some_inj, ← hsim]
    exact ⟨⟨hthreshold, hrest⟩, rfl⟩

omit [Field K] [LinearOrder K] in
theorem key_injective : Function.Injective (Candidate.key : Candidate K → _) := by
  intro a b h
  rcases a with ⟨x, l, u⟩
  rcases b with ⟨y, m, v⟩
  have hpair := toLex.injective h
  rw [Prod.mk.injEq] at hpair
  have hrest := toLex.injective hpair.2
  rw [Prod.mk.injEq] at hrest
  obtain rfl : x = y := OrderDual.toDual.injective hpair.1
  obtain rfl : l = m := hrest.1
  obtain rfl : u = v := hrest.2
  rfl

omit [Field K] in
theorem sim_le_of_key_le (h : c.key ≤ d.key) : d.sim ≤ c.sim := by
  rcases (Prod.Lex.le_iff).mp h with hlt | ⟨heq, -⟩
  · exact le_of_lt (OrderDual.toDual_lt_toDual.mp hlt)
  · exact (OrderDual.toDual.injective heq).ge

instance : Std.Total fun a b : Candidate K => a.key ≤ b.key := ⟨fun _ _ => le_total _ _⟩

instance : IsTrans (Candidate K) fun a b => a.key ≤ b.key := ⟨fun _ _ _ => le_trans⟩

instance : Std.Antisymm fun a b : Candidate K => a.key ≤ b.key :=
  ⟨fun _ _ hab hba => key_injective (le_antisymm hab hba)⟩

theorem pairwise_ranked :
    (ranked similarity voices enrolled threshold).Pairwise fun a b => a.key ≤ b.key :=
  List.pairwise_insertionSort _ _

theorem ranked_nodup (hvoices : (voices.map Prod.fst).Nodup)
    (henrolled : (enrolled.map Prod.fst).Nodup) :
    (ranked similarity voices enrolled threshold).Nodup := by
  rw [ranked, (List.perm_insertionSort _ _).nodup_iff, List.nodup_flatMap]
  constructor
  · intro voice _
    rw [candidatesOf_eq henrolled, List.Nodup, List.pairwise_filterMap]
    refine (List.pairwise_map.mp henrolled).imp ?_
    intro e f hne c hc d hd heq
    rw [Option.ite_none_right_eq_some, Option.some_inj] at hc hd
    exact hne (by rw [← hc.2, ← hd.2] at heq; exact congrArg Candidate.speakerId heq)
  · refine (List.pairwise_map.mp hvoices).imp ?_
    intro v w hne c hv hw
    rw [candidatesOf_eq henrolled, List.mem_filterMap] at hv hw
    obtain ⟨e, -, hv⟩ := hv
    obtain ⟨f, -, hw⟩ := hw
    rw [Option.ite_none_right_eq_some, Option.some_inj] at hv hw
    exact hne (by rw [← hw.2] at hv; exact congrArg Candidate.localIdx hv.2)

/-! ## Best first, one to one -/

def Chosen (resolved : ℤ → Option (Uuid × K)) (c : Candidate K) : Prop :=
  resolved c.localIdx = some (c.speakerId, c.sim)

instance (resolved : ℤ → Option (Uuid × K)) (c : Candidate K) : Decidable (Chosen resolved c) :=
  inferInstanceAs (Decidable (_ = _))

/-- A best-first one-to-one matching, and why each pair that is left out is left out. -/
structure BestFirst (similarity : List K → List K → K) (voices : List (ℤ × List K))
    (enrolled : List (Uuid × List K)) (threshold : K) (resolved : ℤ → Option (Uuid × K)) : Prop where
  oneToOne : ∀ l m u x y, resolved l = some (u, x) → resolved m = some (u, y) → l = m
  admissible : ∀ c, Chosen resolved c → Admissible similarity voices enrolled threshold c
  leftOut : ∀ c, Admissible similarity voices enrolled threshold c → ¬Chosen resolved c →
    (∃ d, Chosen resolved d ∧ (d.localIdx = c.localIdx ∨ d.speakerId = c.speakerId) ∧
      c.sim ≤ d.sim) ∨
    ∃ earlier later, ranked similarity voices enrolled threshold = earlier ++ c :: later ∧
      (∃ standard ∈ median ((earlier.filter fun d => Chosen resolved d).map Candidate.sim),
        c.sim < matchConsistency * standard) ∧
      ∀ d, Chosen resolved d → c.sim ≤ d.sim

theorem allows_iff : allows chosen c ↔
    (∀ d ∈ chosen, d.localIdx ≠ c.localIdx ∧ d.speakerId ≠ c.speakerId) ∧
      ∀ standard ∈ median (chosen.map Candidate.sim), ¬c.sim < matchConsistency * standard := by
  rw [allows, Bool.and_eq_true, List.all_eq_true, Bool.not_eq_true', Option.any_eq_false]
  simp

/-- Nobody is taken twice. -/
theorem choose_apart (items : List (Candidate K)) :
    (choose allows items).Pairwise fun c d => c.localIdx ≠ d.localIdx ∧ c.speakerId ≠ d.speakerId := by
  apply choose_induction (P := List.Pairwise _)
  · exact .nil
  · intro chosen c _ hchosen hok
    rw [List.pairwise_append]
    refine ⟨hchosen, List.pairwise_singleton _ _, ?_⟩
    intro d hd e he
    rw [List.mem_singleton.mp he]
    exact (allows_iff.mp hok).1 d hd

theorem eq_of_speakerId {items : List (Candidate K)} (hc : c ∈ choose allows items)
    (hd : d ∈ choose allows items) (h : c.speakerId = d.speakerId) : c = d := by
  have : Std.Symm fun c d : Candidate K => c.localIdx ≠ d.localIdx ∧ c.speakerId ≠ d.speakerId :=
    ⟨fun _ _ h => ⟨h.1.symm, h.2.symm⟩⟩
  by_contra hne
  exact ((choose_apart items).forall hc hd hne).2 h

/-- Once a pair falls short of the ones taken, no pair after it is taken. -/
theorem choose_of_short {earlier later : List (Candidate K)} {standard : K}
    (hsorted : (earlier ++ c :: later).Pairwise fun a b => a.key ≤ b.key)
    (hstandard : standard ∈ median ((choose allows earlier).map Candidate.sim))
    (hshort : c.sim < matchConsistency * standard) :
    choose allows (earlier ++ c :: later) = choose allows earlier := by
  apply choose_append_of_refused
  intro d hd
  have hle : d.sim ≤ c.sim := by
    rcases List.mem_cons.mp hd with rfl | hd
    · exact le_rfl
    · have hsorted := (List.pairwise_append.mp hsorted).2.1
      exact sim_le_of_key_le (List.rel_of_pairwise_cons hsorted hd)
  rw [Bool.eq_false_iff]
  intro hok
  exact (allows_iff.mp hok).2 standard hstandard (hle.trans_lt hshort)

theorem best_first (hvoices : (voices.map Prod.fst).Nodup)
    (henrolled : (enrolled.map Prod.fst).Nodup) :
    BestFirst similarity voices enrolled threshold
      (resolveIdentities similarity voices enrolled threshold) := by
  have hchosen (d : Candidate K) : Chosen (resolveIdentities similarity voices enrolled threshold) d ↔
      d ∈ choose allows (ranked similarity voices enrolled threshold) := resolved_iff
  constructor
  · intro l m u x y hl hm
    have hl := (hchosen ⟨x, l, u⟩).mp hl
    have hm := (hchosen ⟨y, m, u⟩).mp hm
    exact congrArg Candidate.localIdx (eq_of_speakerId hl hm rfl)
  · intro c hc
    exact (mem_ranked henrolled).mp (choose_sublist.subset ((hchosen c).mp hc))
  · intro c hc hnot
    have hmem : c ∈ ranked similarity voices enrolled threshold := (mem_ranked henrolled).mpr hc
    have hsorted : (ranked similarity voices enrolled threshold).Pairwise
      fun a b => a.key ≤ b.key := pairwise_ranked
    have hnodup : (ranked similarity voices enrolled threshold).Nodup :=
      ranked_nodup hvoices henrolled
    obtain ⟨earlier, later, hsplit⟩ := List.append_of_mem hmem
    rw [hsplit] at hsorted hnodup
    simp only [hsplit] at hchosen
    have hbefore : ∀ d ∈ choose allows earlier, c.sim ≤ d.sim := by
      intro d hd
      apply sim_le_of_key_le
      exact (List.pairwise_append.mp hsorted).2.2 d (choose_sublist.subset hd) c List.mem_cons_self
    have hrefused := not_ok_of_notMem (mt (hchosen c).mpr hnot)
    rw [Bool.eq_false_iff, ne_eq, allows_iff, not_and_or] at hrefused
    rcases hrefused with htaken | hshort
    · push Not at htaken
      obtain ⟨d, hd, hside⟩ := htaken
      exact .inl ⟨d, (hchosen d).mpr (mem_choose_of_mem hd), or_iff_not_imp_left.mpr hside, hbefore d hd⟩
    · push Not at hshort
      obtain ⟨standard, hstandard, hshort⟩ := hshort
      refine .inr ⟨earlier, later, hsplit, ⟨standard, ?_, hshort⟩, ?_⟩
      · simp only [hchosen, filter_mem_choose hnodup]
        exact hstandard
      · intro d hd
        rw [hchosen, choose_of_short hsorted hstandard hshort] at hd
        exact hbefore d hd

/-- Two voices and the people they belong to, the second person also somewhat like the first. -/
def meeting : List (ℤ × List ℚ) := [(0, [1, 0]), (1, [3 / 5, 4 / 5])]

def library : List (Uuid × List ℚ) := [(7, [1, 0]), (8, [0, 1])]

theorem best_first_meeting : BestFirst (cosine Rat.sqrt) meeting library (1 / 2)
    (resolveIdentities (cosine Rat.sqrt) meeting library (1 / 2)) :=
  best_first (by decide) (by decide)

-- The second voice keeps up with the first: 0.8 is no less than three quarters of 1.
example : resolveIdentities (cosine Rat.sqrt) meeting library (1 / 2) 1 = some (8, 4 / 5) := by
  decide +kernel

/-! ## The order of the rows -/

omit [Field K] [LinearOrder K] in
theorem scoresOfRest_perm (h : enrolled.Perm enrolled') (embedding : List K) (u : Uuid) :
    (scoresOfRest similarity enrolled embedding u).Perm
      (scoresOfRest similarity enrolled' embedding u) :=
  (h.filter _).map _

theorem candidatesOf_perm (hnodup : (enrolled.map Prod.fst).Nodup) (h : enrolled.Perm enrolled')
    (voice : ℤ × List K) : (candidatesOf similarity enrolled threshold voice).Perm
      (candidatesOf similarity enrolled' threshold voice) := by
  have hclears (score : K) (u : Uuid) :
      clears threshold score (scoresOfRest similarity enrolled voice.2 u) =
        clears threshold score (scoresOfRest similarity enrolled' voice.2 u) := by
    rw [clears, clears, median_perm (scoresOfRest_perm h voice.2 u)]
  rw [candidatesOf_eq hnodup, candidatesOf_eq ((h.map Prod.fst).nodup_iff.mp hnodup)]
  simp only [hclears]
  exact h.filterMap _

theorem ranked_perm (hnodup : (enrolled.map Prod.fst).Nodup) (hvoices : voices.Perm voices')
    (henrolled : enrolled.Perm enrolled') : ranked similarity voices enrolled threshold =
      ranked similarity voices' enrolled' threshold := by
  apply List.Perm.eq_of_pairwise' pairwise_ranked pairwise_ranked
  rw [ranked, ranked]
  refine (List.perm_insertionSort _ _).trans (.trans ?_ (List.perm_insertionSort _ _).symm)
  exact (hvoices.flatMap_right _).trans
    (List.Perm.flatMap_left _ fun voice _ => candidatesOf_perm hnodup henrolled voice)

end ScribeLocal.Pipeline
