import ScribeLocal.MachineInt
import ScribeLocal.Server.Content
import ScribeLocal.Tally

/-!
# Words to speakers

`assign_speakers` of the merge stage: a word goes to the speaker whose turns cover most of
it, and a word that no turn covers to the speaker of the nearest turn. The times and their sums
are `i64`, and wrap.
-/
namespace ScribeLocal.Pipeline
open MachineInt Tally

/-- A turn as the diarize stage left it. -/
structure TurnArtifact where
  localIdx : ℤ
  startMs : ℤ
  endMs : ℤ
  deriving DecidableEq

/-- Length of the overlap between `[a0, a1]` and `[b0, b1]`. -/
def overlap (a0 a1 b0 b1 : ℤ) : ℤ := max (i64 (min a1 b1 - max a0 b0)) 0

def bySpeaker (turns : List TurnArtifact) (w : Word) : List (ℤ × Int64) :=
  turns.foldl (fun entries t =>
    let ov := overlap w.startMs w.endMs t.startMs t.endMs
    if 0 < ov then add t.localIdx (.ofInt ov) entries else entries) []

/-- `best_dist` and `nearest`. -/
structure Nearest where
  bestDist : ℤ
  nearest : Option ℤ

/-- The distance of the midpoints. Halves of `i64` are near enough not to wrap. -/
def midDist (w : Word) (t : TurnArtifact) : ℤ :=
  ((i64 (w.startMs + w.endMs)).tdiv 2 - (i64 (t.startMs + t.endMs)).tdiv 2).natAbs

def Nearest.step (w : Word) (s : Nearest) (t : TurnArtifact) : Nearest :=
  if midDist w t < s.bestDist then ⟨midDist w t, some t.localIdx⟩ else s

def nearestTurn (turns : List TurnArtifact) (w : Word) : Option ℤ :=
  (turns.foldl (Nearest.step w) ⟨i64Max, none⟩).nearest

def bestIdx (order : HashOrder (ℤ × Int64)) (turns : List TurnArtifact) (w : Word) : Option ℤ :=
  match leader (order.iter (bySpeaker turns w)) with
  | some idx => some idx
  | none => nearestTurn turns w

/-- The map of each word hands out its entries in an order of its own. -/
def assignSpeakers (order : ℕ → HashOrder (ℤ × Int64)) (words : List Word)
    (turns : List TurnArtifact) : List Word :=
  if turns.isEmpty then words
  else words.mapIdx fun i w => { w with localIdx := bestIdx (order i) turns w }

/-! ## The loops -/

variable {order order' : HashOrder (ℤ × Int64)} {turns turns' : List TurnArtifact} {w : Word}
  {k j : ℤ} {t : TurnArtifact}

/-- The overlaps that the map sums up. -/
def shares (turns : List TurnArtifact) (w : Word) : List (ℤ × Int64) :=
  (turns.filter fun t => 0 < overlap w.startMs w.endMs t.startMs t.endMs).map fun t =>
    (t.localIdx, .ofInt (overlap w.startMs w.endMs t.startMs t.endMs))

theorem bySpeaker_eq (turns : List TurnArtifact) (w : Word) :
    bySpeaker turns w = tally (shares turns w) := by
  unfold bySpeaker tally shares
  rw [List.foldl_map, List.foldl_filter]
  simp only [decide_eq_true_eq]

theorem mem_keys_shares : k ∈ (shares turns w).map Prod.fst ↔
    ∃ t ∈ turns, t.localIdx = k ∧ 0 < overlap w.startMs w.endMs t.startMs t.endMs := by
  simp only [shares, List.map_map, List.mem_map, List.mem_filter, decide_eq_true_eq,
    Function.comp_apply]
  constructor
  · rintro ⟨t, ⟨ht, hpos⟩, hk⟩
    exact ⟨t, ht, hk, hpos⟩
  · rintro ⟨t, ht, hk, hpos⟩
    exact ⟨t, ⟨ht, hpos⟩, hk⟩

/-- The midpoint of `t` is nearer to that of the word than the midpoints of the turns of `others`
before it in the list, and no farther than those of the ones behind it. -/
structure Ahead (others : TurnArtifact → Prop) (turns : List TurnArtifact) (w : Word)
    (t : TurnArtifact) : Prop where
  inReach : midDist w t < i64Max
  split : ∃ before after, turns = before ++ t :: after ∧
    (∀ u ∈ before, others u → midDist w t < midDist w u) ∧
      ∀ u ∈ after, others u → midDist w t ≤ midDist w u

theorem Ahead.mem {others : TurnArtifact → Prop} (h : Ahead others turns w t) : t ∈ turns := by
  obtain ⟨before, after, rfl, -⟩ := h.split
  simp

/-- The loop ends with the first of the nearest turns, or with none. -/
theorem nearest_foldl (turns : List TurnArtifact) (w : Word) :
    turns.foldl (Nearest.step w) ⟨i64Max, none⟩ = ⟨i64Max, none⟩ ∧
        (∀ t ∈ turns, i64Max ≤ midDist w t) ∨
      ∃ t, Ahead (fun _ => True) turns w t ∧
        turns.foldl (Nearest.step w) ⟨i64Max, none⟩ = ⟨midDist w t, some t.localIdx⟩ := by
  induction turns using List.reverseRecOn with
  | nil => exact .inl ⟨rfl, nofun⟩
  | append_singleton turns u ih =>
    rw [List.foldl_concat]
    rcases ih with ⟨hnone, hall⟩ | ⟨t, ht, hstate⟩
    · rw [hnone]
      by_cases hreach : midDist w u < i64Max
      · refine .inr ⟨u, ⟨hreach, turns, [], rfl, fun v hv _ => ?_, nofun⟩, if_pos hreach⟩
        have := hall v hv
        omega
      · refine .inl ⟨if_neg hreach, fun t ht => ?_⟩
        rcases List.mem_append.mp ht with hold | hnew
        · exact hall t hold
        · rw [List.mem_singleton.mp hnew]
          omega
    · rw [hstate]
      right
      obtain ⟨hreach, before, after, rfl, hbefore, hafter⟩ := ht
      by_cases h : midDist w u < midDist w t
      · refine ⟨u, ⟨h.trans hreach, before ++ t :: after, [], rfl, fun v hv _ => ?_, nofun⟩, if_pos h⟩
        rcases List.mem_append.mp hv with hv | hv
        · exact h.trans (hbefore v hv trivial)
        · rcases List.mem_cons.mp hv with rfl | hv
          · exact h
          · exact h.trans_le (hafter v hv trivial)
      · refine ⟨t, ⟨hreach, before, after ++ [u], by simp, hbefore, fun v hv _ => ?_⟩, if_neg h⟩
        rcases List.mem_append.mp hv with hv | hv
        · exact hafter v hv trivial
        · rw [List.mem_singleton.mp hv]
          omega

theorem nearestTurn_cases (turns : List TurnArtifact) (w : Word) :
    nearestTurn turns w = none ∧ (∀ t ∈ turns, i64Max ≤ midDist w t) ∨
      ∃ t, Ahead (fun _ => True) turns w t ∧ nearestTurn turns w = some t.localIdx := by
  unfold nearestTurn
  rcases nearest_foldl turns w with ⟨hstate, hall⟩ | ⟨t, ht, hstate⟩
  · exact .inl ⟨by rw [hstate], hall⟩
  · exact .inr ⟨t, ht, by rw [hstate]⟩

/-! ## Words without a speaker -/

/-- Some turn covers part of the word, as the code measures it, or is in reach of it. -/
def Reached (turns : List TurnArtifact) (w : Word) : Prop :=
  ∃ t ∈ turns, 0 < overlap w.startMs w.endMs t.startMs t.endMs ∨ midDist w t < i64Max

theorem leader_eq_none : leader (order.iter (bySpeaker turns w)) = none ↔
    ∀ t ∈ turns, ¬0 < overlap w.startMs w.endMs t.startMs t.endMs := by
  rw [bySpeaker_eq, leader_eq_none_iff, shares, List.map_eq_nil_iff, List.filter_eq_nil_iff]
  simp only [decide_eq_true_eq]

theorem bestIdx_of_leader_eq_none (h : leader (order.iter (bySpeaker turns w)) = none) :
    bestIdx order turns w = nearestTurn turns w := by
  unfold bestIdx
  rw [h]

theorem bestIdx_of_leads (h : Leads (shares turns w) k) : bestIdx order turns w = some k := by
  unfold bestIdx
  rw [bySpeaker_eq, leader_eq_some_iff.mpr h]

theorem bestIdx_isSome_iff : (bestIdx order turns w).isSome ↔ Reached turns w := by
  cases hleader : leader (order.iter (bySpeaker turns w)) with
  | some idx =>
    have hkey : idx ∈ (shares turns w).map Prod.fst := by
      rw [bySpeaker_eq, leader_eq_some_iff] at hleader
      exact hleader.1
    obtain ⟨t, ht, -, hpos⟩ := mem_keys_shares.mp hkey
    simp only [bestIdx, hleader, Option.isSome_some, true_iff]
    exact ⟨t, ht, .inl hpos⟩
  | none =>
    have hall := leader_eq_none.mp hleader
    rw [bestIdx_of_leader_eq_none hleader]
    rcases nearestTurn_cases turns w with ⟨hnearest, hfar⟩ | ⟨t, ht, hnearest⟩
    · rw [hnearest]
      refine iff_of_false (by simp) ?_
      rintro ⟨t, ht, hpos | hreach⟩
      · exact hall t ht hpos
      · exact (hfar t ht).not_gt hreach
    · rw [hnearest]
      exact iff_of_true rfl ⟨t, ht.mem, .inr ht.inReach⟩

theorem getElem?_assignSpeakers {order : ℕ → HashOrder (ℤ × Int64)} {words : List Word} {i : ℕ}
    (h : turns ≠ []) (hw : words[i]? = some w) :
    (assignSpeakers order words turns)[i]? =
      some { w with localIdx := bestIdx (order i) turns w } := by
  rw [assignSpeakers, if_neg (by simpa using h), List.getElem?_mapIdx, hw]
  rfl

theorem all_labelled_iff {order : ℕ → HashOrder (ℤ × Int64)} {words : List Word}
    (h : turns ≠ []) : (∀ w ∈ assignSpeakers order words turns, w.localIdx.isSome) ↔
      ∀ w ∈ words, Reached turns w := by
  rw [assignSpeakers, if_neg (by simpa using h), List.forall_mem_iff_getElem,
    List.forall_mem_iff_getElem]
  simp [bestIdx_isSome_iff]

/-! ## What the turns cover -/

/-- How long `[a0, a1]` and `[b0, b1]` have in common. -/
def common (a0 a1 b0 b1 : ℤ) : ℤ := max (min a1 b1 - max a0 b0) 0

theorem common_nonneg (a0 a1 b0 b1 : ℤ) : 0 ≤ common a0 a1 b0 b1 := le_max_right _ _

/-- The overlap does not wrap. -/
def Unwrapped (w : Word) (t : TurnArtifact) : Prop :=
  FitsI64 (min w.endMs t.endMs - max w.startMs t.startMs)

instance (w : Word) (t : TurnArtifact) : Decidable (Unwrapped w t) :=
  inferInstanceAs (Decidable (FitsI64 _))

theorem Unwrapped.overlap_eq (h : Unwrapped w t) :
    overlap w.startMs w.endMs t.startMs t.endMs = common w.startMs w.endMs t.startMs t.endMs := by
  unfold overlap common
  rw [h.i64_eq]

/-- How much of the word the turns of one speaker cover. -/
def coverage (turns : List TurnArtifact) (w : Word) (k : ℤ) : ℤ :=
  ((turns.filter fun t => t.localIdx = k).map fun t =>
    common w.startMs w.endMs t.startMs t.endMs).sum

/-- Some turn covers part of the word. -/
def Overlapped (turns : List TurnArtifact) (w : Word) : Prop :=
  ∃ t ∈ turns, 0 < common w.startMs w.endMs t.startMs t.endMs

theorem coverage_cons : coverage (t :: turns) w k =
    (if t.localIdx = k then common w.startMs w.endMs t.startMs t.endMs else 0) +
      coverage turns w k := by
  unfold coverage
  by_cases h : t.localIdx = k <;> simp [h]

theorem coverage_append : coverage (turns ++ turns') w k =
    coverage turns w k + coverage turns' w k := by
  simp [coverage]

theorem coverage_nonneg : 0 ≤ coverage turns w k := by
  apply List.sum_nonneg
  intro ov hov
  obtain ⟨t, -, rfl⟩ := List.mem_map.mp hov
  exact common_nonneg ..

theorem coverage_pos_iff : 0 < coverage turns w k ↔
    ∃ t ∈ turns, t.localIdx = k ∧ 0 < common w.startMs w.endMs t.startMs t.endMs := by
  induction turns with
  | nil => simp [coverage]
  | cons t turns ih =>
    have hnonneg := common_nonneg w.startMs w.endMs t.startMs t.endMs
    have hrest := @coverage_nonneg turns w k
    rw [coverage_cons, List.exists_mem_cons_iff, ← ih]
    by_cases hk : t.localIdx = k
    · simp only [hk, if_true, true_and]
      omega
    · simp [hk]

theorem overlapped_iff : Overlapped turns w ↔ ∃ k, 0 < coverage turns w k := by
  simp only [coverage_pos_iff, Overlapped]
  constructor
  · rintro ⟨t, ht, hpos⟩
    exact ⟨t.localIdx, t, ht, rfl, hpos⟩
  · rintro ⟨-, t, ht, -, hpos⟩
    exact ⟨t, ht, hpos⟩

theorem Overlapped.ne_nil (h : Overlapped turns w) : turns ≠ [] := by
  rintro rfl
  obtain ⟨t, ht, -⟩ := h
  cases ht

/-- The turns left out of the map cover nothing. -/
theorem toInt_total_shares (h : ∀ t ∈ turns, Unwrapped w t) :
    (total (shares turns w) k).toInt = i64 (coverage turns w k) := by
  induction turns with
  | nil => rfl
  | cons t turns ih =>
    have htail := ih fun u hu => h u (List.mem_cons_of_mem _ hu)
    have hov := (h t List.mem_cons_self).overlap_eq
    have hnonneg := common_nonneg w.startMs w.endMs t.startMs t.endMs
    rw [coverage_cons]
    by_cases hpos : 0 < common w.startMs w.endMs t.startMs t.endMs
    · have hshares : shares (t :: turns) w =
          (t.localIdx, .ofInt (common w.startMs w.endMs t.startMs t.endMs)) :: shares turns w := by
        simp [shares, hov, hpos]
      rw [hshares, total_cons, toInt_add, htail, i64_add_i64]
      by_cases hk : t.localIdx = k
      · rw [if_pos hk, if_pos hk, toInt_ofInt, i64_i64_add]
      · rw [if_neg hk, if_neg hk]
        rfl
    · have hshares : shares (t :: turns) w = shares turns w := by simp [shares, hov, hpos]
      have hzero : common w.startMs w.endMs t.startMs t.endMs = 0 := by omega
      rw [hshares, hzero, ite_self, zero_add, htail]

/-! ## The speaker who covers most -/

/-- The turns of `k` cover most of the word, and `k` is the lowest index of those that do. -/
def CoversMost (turns : List TurnArtifact) (w : Word) (k : ℤ) : Prop :=
  0 < coverage turns w k ∧ ∀ j, coverage turns w j < coverage turns w k ∨
    coverage turns w j = coverage turns w k ∧ k ≤ j

theorem CoversMost.eq (hk : CoversMost turns w k) (hj : CoversMost turns w j) : k = j := by
  rcases hk.2 j with hlt | ⟨heq, hle⟩ <;> rcases hj.2 k with hgt | ⟨heq', hge⟩ <;> omega

/-- Nothing wraps: neither the overlap of the word with a turn or with a piece of one, nor the
sum of the overlaps with one speaker's turns. -/
structure Clear (turns : List TurnArtifact) (w : Word) : Prop where
  overlaps : ∀ t ∈ turns, Unwrapped w t
  pieces : ∀ t ∈ turns, t.startMs ≤ t.endMs →
    Unwrapped w { t with endMs := t.startMs } ∧ Unwrapped w { t with startMs := t.endMs }
  sums : ∀ t ∈ turns, coverage turns w t.localIdx < 2 ^ 63

theorem Clear.coverage_lt (h : Clear turns w) (k : ℤ) : coverage turns w k < 2 ^ 63 := by
  by_cases hpos : 0 < coverage turns w k
  · obtain ⟨t, ht, rfl, -⟩ := coverage_pos_iff.mp hpos
    exact h.sums t ht
  · omega

theorem Clear.total_lt_iff (h : Clear turns w) :
    total (shares turns w) j < total (shares turns w) k ↔
      coverage turns w j < coverage turns w k := by
  have hfits (k : ℤ) := FitsI64.of_nonneg coverage_nonneg (h.coverage_lt k)
  rw [Int64.lt_iff_toInt_lt, toInt_total_shares h.overlaps, toInt_total_shares h.overlaps,
    (hfits j).i64_eq, (hfits k).i64_eq]

theorem Clear.total_eq_iff (h : Clear turns w) :
    total (shares turns w) j = total (shares turns w) k ↔
      coverage turns w j = coverage turns w k := by
  have hfits (k : ℤ) := FitsI64.of_nonneg coverage_nonneg (h.coverage_lt k)
  rw [← Int64.toInt_inj, toInt_total_shares h.overlaps, toInt_total_shares h.overlaps,
    (hfits j).i64_eq, (hfits k).i64_eq]

theorem Clear.mem_keys_iff (h : Clear turns w) :
    k ∈ (shares turns w).map Prod.fst ↔ 0 < coverage turns w k := by
  rw [mem_keys_shares, coverage_pos_iff]
  constructor
  · rintro ⟨t, ht, hk, hpos⟩
    exact ⟨t, ht, hk, (h.overlaps t ht).overlap_eq ▸ hpos⟩
  · rintro ⟨t, ht, hk, hpos⟩
    exact ⟨t, ht, hk, (h.overlaps t ht).overlap_eq.symm ▸ hpos⟩

theorem Clear.leads_iff (h : Clear turns w) :
    Leads (shares turns w) k ↔ CoversMost turns w k := by
  unfold Leads CoversMost
  simp only [h.mem_keys_iff, h.total_lt_iff, h.total_eq_iff]
  constructor
  · rintro ⟨hk, hall⟩
    refine ⟨hk, fun j => ?_⟩
    by_cases hj : 0 < coverage turns w j
    · exact hall j hj
    · left
      omega
  · rintro ⟨hk, hall⟩
    exact ⟨hk, fun j _ => hall j⟩

theorem Clear.exists_coversMost (h : Clear turns w) (hover : Overlapped turns w) :
    ∃ k, CoversMost turns w k := by
  let order : HashOrder (ℤ × Int64) := ⟨id, .refl⟩
  obtain ⟨t, ht, hpos⟩ := hover
  cases hleader : leader (order.iter (bySpeaker turns w)) with
  | some k =>
    rw [bySpeaker_eq, leader_eq_some_iff, h.leads_iff] at hleader
    exact ⟨k, hleader⟩
  | none =>
    rw [← (h.overlaps t ht).overlap_eq] at hpos
    exact absurd hpos (leader_eq_none.mp hleader t ht)

theorem Clear.bestIdx_eq (h : Clear turns w) (hk : CoversMost turns w k) :
    bestIdx order turns w = some k :=
  bestIdx_of_leads (h.leads_iff.mpr hk)

/-! ## Reordered and split turns -/

/-- The same turns in another order, or with one of them split in two. -/
inductive Refragments : List TurnArtifact → List TurnArtifact → Prop
  | reorder {turns turns' : List TurnArtifact} : turns.Perm turns' → Refragments turns turns'
  | split {before after : List TurnArtifact} {k start mid stop : ℤ} :
    start ≤ mid → mid ≤ stop →
    Refragments (before ++ ⟨k, start, stop⟩ :: after)
      (before ++ ⟨k, start, mid⟩ :: ⟨k, mid, stop⟩ :: after)

theorem common_split {a0 a1 start mid stop : ℤ} (hstart : start ≤ mid) (hstop : mid ≤ stop) :
    common a0 a1 start stop = common a0 a1 start mid + common a0 a1 mid stop := by
  unfold common
  omega

theorem Refragments.coverage_eq (h : Refragments turns turns') (w : Word) (k : ℤ) :
    coverage turns' w k = coverage turns w k := by
  cases h with
  | reorder hperm => exact ((hperm.symm.filter _).map _).sum_eq
  | split hstart hstop =>
    simp only [coverage_append, coverage_cons]
    rw [common_split hstart hstop]
    split
    · ring
    · simp

/-- A piece of a turn that does not wrap does not wrap. -/
theorem unwrapped_piece {start stop : ℤ} (hstart : t.startMs ≤ start) (hle : start ≤ stop)
    (hstop : stop ≤ t.endMs) (h : Unwrapped w t)
    (hfirst : Unwrapped w { t with endMs := t.startMs })
    (hlast : Unwrapped w { t with startMs := t.endMs }) :
    Unwrapped w { t with startMs := start, endMs := stop } := by
  unfold Unwrapped FitsI64 at *
  dsimp only at *
  omega

theorem Refragments.clear (h : Refragments turns turns') (hclear : Clear turns w) :
    Clear turns' w := by
  have hsums : ∀ t ∈ turns', coverage turns' w t.localIdx < 2 ^ 63 := by
    intro t _
    rw [h.coverage_eq]
    exact hclear.coverage_lt _
  cases h with
  | reorder hperm =>
    exact ⟨fun t ht => hclear.overlaps t (hperm.mem_iff.mpr ht),
      fun t ht => hclear.pieces t (hperm.mem_iff.mpr ht), hsums⟩
  | @split before after k start mid stop hstart hstop =>
    have hwhole := hclear.overlaps ⟨k, start, stop⟩ (by simp)
    obtain ⟨hfirst, hlast⟩ := hclear.pieces ⟨k, start, stop⟩ (by simp) (hstart.trans hstop)
    have hpiece {a b : ℤ} (ha : start ≤ a) (hab : a ≤ b) (hb : b ≤ stop) :
        Unwrapped w ⟨k, a, b⟩ :=
      unwrapped_piece (t := ⟨k, start, stop⟩) ha hab hb hwhole hfirst hlast
    have hmem {t : TurnArtifact}
        (ht : t ∈ before ++ ⟨k, start, mid⟩ :: ⟨k, mid, stop⟩ :: after) :
        t = ⟨k, start, mid⟩ ∨ t = ⟨k, mid, stop⟩ ∨
          t ∈ before ++ ⟨k, start, stop⟩ :: after := by
      simp only [List.mem_append, List.mem_cons] at ht ⊢
      tauto
    refine ⟨fun t ht => ?_, fun t ht hle => ?_, hsums⟩
    · rcases hmem ht with rfl | rfl | hold
      · exact hpiece le_rfl hstart hstop
      · exact hpiece hstart hstop le_rfl
      · exact hclear.overlaps t hold
    · rcases hmem ht with rfl | rfl | hold
      · exact ⟨hpiece le_rfl le_rfl (hstart.trans hstop), hpiece hstart le_rfl hstop⟩
      · exact ⟨hpiece hstart le_rfl hstop, hpiece (hstart.trans hstop) le_rfl le_rfl⟩
      · exact hclear.pieces t hold hle

theorem coverage_of_reflTransGen (h : Relation.ReflTransGen Refragments turns turns') (w : Word)
    (k : ℤ) : coverage turns' w k = coverage turns w k := by
  induction h with
  | refl => rfl
  | tail _ hstep ih => rw [hstep.coverage_eq, ih]

theorem clear_of_reflTransGen (h : Relation.ReflTransGen Refragments turns turns')
    (hclear : Clear turns w) : Clear turns' w := by
  induction h with
  | refl => exact hclear
  | tail _ hstep ih => exact hstep.clear ih

/-- The speaker of a covered word depends on the turns only through how much of it each
speaker covers. -/
theorem Clear.bestIdx_congr (h : Clear turns w) (h' : Clear turns' w)
    (hover : Overlapped turns w) (hcoverage : ∀ k, coverage turns' w k = coverage turns w k) :
    bestIdx order' turns' w = bestIdx order turns w := by
  obtain ⟨k, hk⟩ := h.exists_coversMost hover
  have hk' : CoversMost turns' w k := by
    unfold CoversMost at hk ⊢
    simpa only [hcoverage] using hk
  rw [h.bestIdx_eq hk, h'.bestIdx_eq hk']

/-- Every word has a speaker. A word that is covered in part has the one who covers most of
it, whatever the order of the turns and however they are split. -/
structure ByCoverage (order : ℕ → HashOrder (ℤ × Int64)) (words : List Word)
    (turns : List TurnArtifact) : Prop where
  labelled : ∀ w ∈ assignSpeakers order words turns, w.localIdx.isSome
  most : ∀ (i : ℕ) (w : Word), words[i]? = some w → Overlapped turns w →
    ∃ k, CoversMost turns w k ∧
      (assignSpeakers order words turns)[i]? = some { w with localIdx := some k }
  unchanged : ∀ (i : ℕ) (w : Word), words[i]? = some w → Overlapped turns w →
    ∀ order' turns', Relation.ReflTransGen Refragments turns turns' →
      (assignSpeakers order' words turns')[i]? = (assignSpeakers order words turns)[i]?

/-- Where nothing wraps and every word is in reach of a turn, the words go to those who cover
most of them; and a word that is in reach of none has no speaker. -/
theorem labelled_by_coverage (order : ℕ → HashOrder (ℤ × Int64)) (words : List Word)
    (turns : List TurnArtifact) (h : turns ≠ []) :
    ((∀ w ∈ words, Reached turns w ∧ (Overlapped turns w → Clear turns w)) →
      ByCoverage order words turns) ∧
    (ByCoverage order words turns → ∀ w ∈ words, Reached turns w) := by
  constructor
  · intro hwords
    constructor
    · exact (all_labelled_iff h).mpr fun w hw => (hwords w hw).1
    · intro i w hw hover
      have hclear := (hwords w (List.mem_of_getElem? hw)).2 hover
      obtain ⟨k, hk⟩ := hclear.exists_coversMost hover
      refine ⟨k, hk, ?_⟩
      rw [getElem?_assignSpeakers h hw, hclear.bestIdx_eq hk]
    · intro i w hw hover order' turns' hrefragments
      have hclear := (hwords w (List.mem_of_getElem? hw)).2 hover
      have hcoverage := coverage_of_reflTransGen hrefragments w
      have hover' : Overlapped turns' w := by
        rw [overlapped_iff] at hover ⊢
        simpa only [hcoverage] using hover
      rw [getElem?_assignSpeakers hover'.ne_nil hw, getElem?_assignSpeakers h hw,
        hclear.bestIdx_congr (clear_of_reflTransGen hrefragments hclear) hover hcoverage]
  · intro hcovered
    exact (all_labelled_iff h).mp hcovered.labelled

/-- The midpoint of the word is `i64::MAX` from that of the turn. -/
theorem not_labelled_by_coverage : ¬ ∀ (order : ℕ → HashOrder (ℤ × Int64)) (words : List Word)
    (turns : List TurnArtifact), turns ≠ [] → ByCoverage order words turns := by
  intro h
  have hlabelled := (h (fun _ => ⟨id, .refl⟩) [⟨"late", 2 ^ 62 - 1, 2 ^ 62 - 1, none⟩]
    [⟨0, -2 ^ 62, -2 ^ 62⟩] (by decide)).labelled
  exact absurd hlabelled (by decide)

/-- Somebody talks across a pause, and somebody else in it. -/
def straddling : List TurnArtifact := [⟨1, 300, 700⟩, ⟨0, 0, 300⟩, ⟨0, 700, 1000⟩]

theorem clear_straddling : Clear straddling ⟨"so", 0, 1000, none⟩ where
  overlaps := by decide
  pieces := by decide
  sums := by decide

theorem labelled_by_coverage_straddling :
    ByCoverage (fun _ => ⟨id, .refl⟩) [⟨"so", 0, 1000, none⟩] straddling := by
  refine (labelled_by_coverage (fun _ => ⟨id, .refl⟩) [⟨"so", 0, 1000, none⟩] straddling
    (by decide)).1 ?_
  intro w hw
  obtain rfl := List.mem_singleton.mp hw
  exact ⟨⟨⟨1, 300, 700⟩, by decide, .inl (by decide)⟩, fun _ => clear_straddling⟩

example : bestIdx ⟨List.reverse, List.reverse_perm⟩ straddling ⟨"so", 0, 1000, none⟩ = some 0 := by
  decide

/-! ## A word inside a turn -/

/-- The turn and the word have a moment in common. -/
def Meets (t : TurnArtifact) (w : Word) : Prop :=
  (Set.Icc t.startMs t.endMs ∩ Set.Icc w.startMs w.endMs).Nonempty

/-- Some turn contains the word, and the turns that meet the word are all of `k`. -/
structure SpokenBy (turns : List TurnArtifact) (w : Word) (k : ℤ) : Prop where
  interval : w.startMs ≤ w.endMs
  contained : ∃ t ∈ turns, t.startMs ≤ w.startMs ∧ w.endMs ≤ t.endMs
  alone : ∀ t ∈ turns, Meets t w → t.localIdx = k

/-- The middle of a turn of `k` is nearer to the middle of the word than those of the others. -/
def CentredBy (turns : List TurnArtifact) (w : Word) (k : ℤ) : Prop :=
  ∃ t, t.localIdx = k ∧ Ahead (fun u => u.localIdx ≠ k) turns w t

theorem nearestTurn_eq_some_iff : nearestTurn turns w = some k ↔ CentredBy turns w k := by
  constructor
  · intro hk
    rcases nearestTurn_cases turns w with ⟨hnearest, -⟩ | ⟨t, ht, hnearest⟩
    · rw [hnearest] at hk
      cases hk
    · obtain rfl : t.localIdx = k := by simpa [hnearest] using hk
      obtain ⟨hreach, before, after, hsplit, hbefore, hafter⟩ := ht
      exact ⟨t, rfl, hreach, before, after, hsplit, fun u hu _ => hbefore u hu trivial,
        fun u hu _ => hafter u hu trivial⟩
  · rintro ⟨t, rfl, hreach, before, after, hsplit, hbefore, hafter⟩
    rcases nearestTurn_cases turns w with ⟨-, hfar⟩ | ⟨v, hv, hnearest⟩
    · exact absurd hreach (hfar t (by simp [hsplit])).not_gt
    · rw [hnearest]
      by_contra hne
      have hne : v.localIdx ≠ t.localIdx := fun heq => hne (congrArg some heq)
      -- one of the two comes first, and each is ahead of the other
      obtain ⟨-, before', after', hsplit', hbefore', hafter'⟩ := hv
      rw [hsplit, List.append_eq_append_iff] at hsplit'
      rcases hsplit' with ⟨between, rfl, hrest⟩ | ⟨between, rfl, hrest⟩
      · cases between with
        | nil => exact hne (congrArg TurnArtifact.localIdx (List.cons.inj hrest).1.symm)
        | cons b bs =>
          obtain ⟨rfl, rfl⟩ := List.cons.inj hrest
          have hlt := hbefore' t (by simp) trivial
          have hle := hafter v (by simp) hne
          omega
      · cases between with
        | nil => exact hne (congrArg TurnArtifact.localIdx (List.cons.inj hrest).1)
        | cons b bs =>
          obtain ⟨rfl, rfl⟩ := List.cons.inj hrest
          have hlt := hbefore v (by simp) hne
          have hle := hafter' t (by simp) trivial
          omega

/-- A turn that covers part of a word meets it. -/
theorem meets_of_common (h : 0 < common w.startMs w.endMs t.startMs t.endMs) : Meets t w := by
  unfold common at h
  refine ⟨max w.startMs t.startMs, ?_⟩
  simp only [Set.mem_inter_iff, Set.mem_Icc]
  omega

theorem SpokenBy.overlap_pos (h : SpokenBy turns w k) (hclear : ∀ t ∈ turns, Unwrapped w t)
    (hlt : w.startMs < w.endMs) :
    ∃ t ∈ turns, 0 < overlap w.startMs w.endMs t.startMs t.endMs := by
  obtain ⟨t, ht, hstart, hstop⟩ := h.contained
  refine ⟨t, ht, ?_⟩
  rw [(hclear t ht).overlap_eq]
  unfold common
  omega

theorem SpokenBy.overlap_nonpos (hclear : ∀ t ∈ turns, Unwrapped w t)
    (hlt : ¬w.startMs < w.endMs) :
    ∀ t ∈ turns, ¬0 < overlap w.startMs w.endMs t.startMs t.endMs := by
  intro t ht
  rw [(hclear t ht).overlap_eq]
  unfold common
  omega

/-- The map has no other key. -/
theorem SpokenBy.leads (h : SpokenBy turns w k) (hclear : ∀ t ∈ turns, Unwrapped w t)
    (hlt : w.startMs < w.endMs) : Leads (shares turns w) k := by
  have hkeys {j : ℤ} (hj : j ∈ (shares turns w).map Prod.fst) : j = k := by
    obtain ⟨t, ht, rfl, hpos⟩ := mem_keys_shares.mp hj
    rw [(hclear t ht).overlap_eq] at hpos
    exact h.alone t ht (meets_of_common hpos)
  obtain ⟨t, ht, hpos⟩ := h.overlap_pos hclear hlt
  have hkey : t.localIdx ∈ (shares turns w).map Prod.fst := mem_keys_shares.mpr ⟨t, ht, rfl, hpos⟩
  refine ⟨hkeys hkey ▸ hkey, fun j hj => .inr ?_⟩
  rw [hkeys hj]
  exact ⟨rfl, le_rfl⟩

/-- A word inside one person's turn, no overlap with which wraps, is given to that person exactly
when it has a length or the middle of one of their turns is the nearest. -/
theorem labelled_inside_iff (order : ℕ → HashOrder (ℤ × Int64)) {words : List Word}
    {turns : List TurnArtifact} {i : ℕ} {w : Word} {k : ℤ} (hw : words[i]? = some w)
    (h : SpokenBy turns w k) (hclear : ∀ t ∈ turns, Unwrapped w t) :
    (assignSpeakers order words turns)[i]? = some { w with localIdx := some k } ↔
      w.startMs < w.endMs ∨ CentredBy turns w k := by
  have hturns : turns ≠ [] := by
    obtain ⟨t, ht, -⟩ := h.contained
    exact List.ne_nil_of_mem ht
  have hlabel : (assignSpeakers order words turns)[i]? = some { w with localIdx := some k } ↔
      bestIdx (order i) turns w = some k := by
    rw [getElem?_assignSpeakers hturns hw]
    simp
  rw [hlabel]
  by_cases hlt : w.startMs < w.endMs
  · simp [bestIdx_of_leads (h.leads hclear hlt), hlt]
  · have hnone : leader ((order i).iter (bySpeaker turns w)) = none :=
      leader_eq_none.mpr (SpokenBy.overlap_nonpos hclear hlt)
    rw [bestIdx_of_leader_eq_none hnone, nearestTurn_eq_some_iff]
    simp [hlt]

/-- One person talks for ten seconds, and another says a word just after. -/
def answered : List TurnArtifact := [⟨0, 0, 10000⟩, ⟨1, 10100, 10200⟩]

theorem spokenBy_answered {w : Word} (hstart : 0 ≤ w.startMs) (h : w.startMs ≤ w.endMs)
    (hstop : w.endMs ≤ 10000) : SpokenBy answered w 0 where
  interval := h
  contained := ⟨⟨0, 0, 10000⟩, by decide, hstart, hstop⟩
  alone := by
    rintro t ht ⟨x, hx, hword⟩
    simp only [Set.mem_Icc] at hx hword
    fin_cases ht
    · rfl
    · simp only at hx
      omega

theorem not_labelled_inside : ¬ ∀ (order : ℕ → HashOrder (ℤ × Int64)) (words : List Word)
    (turns : List TurnArtifact) (i : ℕ) (w : Word) (k : ℤ), words[i]? = some w →
      SpokenBy turns w k →
      (assignSpeakers order words turns)[i]? = some { w with localIdx := some k } := by
  intro h
  have hlabel := h (fun _ => ⟨id, .refl⟩) [⟨"then", 9900, 9900, none⟩] answered 0 _ 0 rfl
    (spokenBy_answered (by decide) (by decide) (by decide))
  exact absurd hlabel (by decide)

/-- A word without a length near the middle of the long turn. -/
theorem labelled_inside_iff_answered :
    (assignSpeakers (fun _ => ⟨id, .refl⟩) [⟨"then", 5200, 5200, none⟩] answered)[0]? =
      some ⟨"then", 5200, 5200, some 0⟩ :=
  (labelled_inside_iff (fun _ => ⟨id, .refl⟩) rfl
    (spokenBy_answered (w := ⟨"then", 5200, 5200, none⟩) (by decide) (by decide) (by decide))
    (by decide)).mpr
    (.inr ⟨⟨0, 0, 10000⟩, rfl, by decide, [], [⟨1, 10100, 10200⟩], rfl, by decide, by decide⟩)

end ScribeLocal.Pipeline
