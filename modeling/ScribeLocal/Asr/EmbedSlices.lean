import ScribeLocal.Asr.Cluster
import ScribeLocal.Asr.SilenceSplit

/-!
# What the embedder is given

`compute_speaker_embeddings` clips each turn to the samples, takes the middle of what is over the
budget, splits it evenly and averages the embeddings of the slices by their length. The extractor
is a parameter.
-/
namespace ScribeLocal.Asr
open Tiling

def maxEmbedMs : ℤ := 30000

def embedBudgetMs : ℤ := 60000

/-- What becomes of a product that is no `i64`: with overflow checks, as in the tests, it panics,
and without, as in a release, it wraps. -/
inductive OverflowChecks where
  | on
  | off
  deriving DecidableEq, Repr

/-- `i64::mul` -/
def mulI64 (checks : OverflowChecks) (a b : ℤ) : Option ℤ :=
  if -2 ^ 63 ≤ a * b ∧ a * b < 2 ^ 63 then some (a * b)
  else
    match checks with
    | .on => none
    | .off => some ((a * b).bmod (2 ^ 64))

/-- `((ms * sr) / 1000) as usize` -/
def sampleAt (checks : OverflowChecks) (sampleRate : UInt32) (ms : ℤ) : Option ℕ :=
  (mulI64 checks ms sampleRate.toNat).map fun x => asUsize (x.tdiv 1000)

def splitEvenly (start stop maxLen : ℕ) : List (ℕ × ℕ) :=
  if stop ≤ start ∨ maxLen = 0 then [(start, stop)]
  else
    let len := stop - start
    let pieces := (len + maxLen - 1) / maxLen
    (List.range pieces).map fun i => (start + len * i / pieces, start + len * (i + 1) / pieces)

/-- The middle of a range that is over the budget. -/
def middle (budget start stop : ℕ) : ℕ × ℕ :=
  if budget < stop - start then
    let centre := start + (stop - start) / 2
    (centre - budget / 2, centre + budget / 2)
  else (start, stop)

/-- The ranges of the samples that are embedded for one turn. There are none if it panics. -/
def turnSlices (checks : OverflowChecks) (len : ℕ) (sampleRate : UInt32)
    (turn : ScribeLocal.SpeakerTurn) : Option (List (ℕ × ℕ)) := do
  let start ← sampleAt checks sampleRate (max turn.startMs 0)
  let stop ← sampleAt checks sampleRate (max turn.endMs turn.startMs)
  let stop := min stop len
  if stop ≤ start then return []
  let budget ← sampleAt checks sampleRate embedBudgetMs
  let (start, stop) := middle budget start stop
  let maxLen ← sampleAt checks sampleRate maxEmbedMs
  return (splitEvenly start stop maxLen).filter fun p => p.1 < p.2

section Embeddings
variable {α K : Type*} [Field K] [LinearOrder K] (sqrt : K → K)
  (extract : List α → Option (List K))

/-- The sums of the embeddings and of their weights, by speaker. -/
abbrev Sums (K : Type*) := ℤ → Option (List K × K)

/-- The embedding of one slice is added to its speaker's. -/
def embedSlice (samples : List α) (sampleRate : UInt32) (localIdx : ℤ) (acc : Sums K)
    (slice : ℕ × ℕ) : Sums K :=
  match extract (samples.extract slice.1 slice.2) with
  | none => acc
  | some emb =>
    let weight : K := ((slice.2 - slice.1 : ℕ) : K) / sampleRate.toNat
    let entry := (acc localIdx).getD (List.replicate emb.length 0, 0)
    let sum := if entry.1.length ≠ emb.length then List.replicate emb.length 0 else entry.1
    Function.update acc localIdx (some (addWeighted sum emb weight, entry.2 + weight))

def embedTurn (checks : OverflowChecks) (samples : List α) (sampleRate : UInt32) (acc : Sums K)
    (turn : ScribeLocal.SpeakerTurn) : Option (Sums K) :=
  (turnSlices checks samples.length sampleRate turn).map fun slices =>
    slices.foldl (embedSlice extract samples sampleRate turn.localIdx) acc

def computeSpeakerEmbeddings (checks : OverflowChecks) (samples : List α) (sampleRate : UInt32)
    (turns : List ScribeLocal.SpeakerTurn) : Option (ℤ → Option (List K)) :=
  (turns.foldlM (embedTurn extract checks samples sampleRate) fun _ => none).map
    fun (acc : Sums K) idx => (acc idx).bind fun entry =>
      if entry.2 ≤ 0 then none else some (l2Normalize sqrt (entry.1.map (· / entry.2)))

end Embeddings

/-! ## Even splitting -/

theorem mul_pieces (len : ℕ) {maxLen : ℕ} (hmax : 0 < maxLen) :
    len ≤ (len + maxLen - 1) / maxLen * maxLen := by
  have hdiv := Nat.lt_mul_div_succ (len + maxLen - 1) hmax
  rw [Nat.mul_succ, mul_comm] at hdiv
  omega

theorem pieces_le {len maxLen : ℕ} (hmax : 0 < maxLen) :
    (len + maxLen - 1) / maxLen ≤ len := by
  rw [Nat.div_le_iff_le_mul hmax]
  have hmul := Nat.le_mul_of_pos_right len hmax
  omega

variable {start stop maxLen : ℕ}

theorem splitEvenly_eq (hlt : start < stop) (hmax : 0 < maxLen) :
    ∃ pieces, 0 < pieces ∧ pieces ≤ stop - start ∧ stop - start ≤ pieces * maxLen ∧
      splitEvenly start stop maxLen = (List.range pieces).map fun i =>
        (start + (stop - start) * i / pieces, start + (stop - start) * (i + 1) / pieces) := by
  have hlen : 0 < stop - start := Nat.sub_pos_of_lt hlt
  have hcover := mul_pieces (stop - start) hmax
  refine ⟨(stop - start + maxLen - 1) / maxLen, ?_, pieces_le hmax, hcover, ?_⟩
  · exact Nat.pos_of_mul_pos_right (hlen.trans_le hcover)
  · rw [splitEvenly, if_neg (by omega)]

/-- The pieces follow each other from the start to the end. -/
theorem splitEvenly_tiles (hlt : start < stop) (hmax : 0 < maxLen) :
    Tiles start (splitEvenly start stop maxLen) stop := by
  obtain ⟨pieces, hpos, hle, -, heq⟩ := splitEvenly_eq hlt hmax
  have hrise : ∀ i < pieces, start + (stop - start) * i / pieces <
      start + (stop - start) * (i + 1) / pieces := by
    intro i _
    have hstep := div_le_step (stop - start) pieces i
    have hone : 0 < (stop - start) / pieces := Nat.div_pos hle hpos
    omega
  have htiles := tiles_range hrise
  rw [Nat.mul_zero, Nat.zero_div, Nat.add_zero, Nat.mul_div_cancel _ hpos] at htiles
  rw [heq]
  rwa [Nat.add_sub_cancel' hlt.le] at htiles

/-- No piece is longer than it may be, and none is more than a sample longer than another. -/
theorem splitEvenly_length (hlt : start < stop) (hmax : 0 < maxLen) :
    ∃ c, ∀ p ∈ splitEvenly start stop maxLen, c ≤ p.2 - p.1 ∧ p.2 - p.1 ≤ c + 1 ∧
      p.2 - p.1 ≤ maxLen := by
  obtain ⟨pieces, hpos, -, hcover, heq⟩ := splitEvenly_eq hlt hmax
  refine ⟨(stop - start) / pieces, ?_⟩
  intro p hp
  rw [heq] at hp
  obtain ⟨i, -, rfl⟩ := List.mem_map.mp hp
  have hlow := div_le_step (stop - start) pieces i
  have hhigh := step_le_div_succ (stop - start) i hpos
  have hbound := step_le (i := i) hpos hcover
  dsimp only
  generalize (stop - start) * (i + 1) / pieces = next at *
  generalize (stop - start) * i / pieces = here at *
  generalize (stop - start) / pieces = c at *
  omega

/-! ## The middle -/

/-- `start .. stop` is the middle of `lo .. hi`, as long as the budget if there is as much. -/
structure Central (budget lo hi start stop : ℕ) : Prop where
  inside : lo ≤ start ∧ stop ≤ hi
  length : stop = start + min budget (hi - lo)
  central : start - lo ≤ hi - stop ∧ hi - stop ≤ start - lo + 1

theorem middle_central (half : ℕ) {lo hi : ℕ} (hle : lo ≤ hi) :
    Central (2 * half) lo hi (middle (2 * half) lo hi).1 (middle (2 * half) lo hi).2 := by
  rw [middle]
  split
  · constructor <;> dsimp only <;> omega
  · constructor <;> dsimp only <;> omega

/-! ## Positions -/

variable {checks : OverflowChecks} {sampleRate : UInt32} {ms : ℤ} {len : ℕ}

theorem mulI64_of_fits {a b : ℤ} (h : -2 ^ 63 ≤ a * b ∧ a * b < 2 ^ 63) :
    mulI64 checks a b = some (a * b) := if_pos h

theorem asUsize_of_nonneg {x : ℤ} (h : 0 ≤ x) (hlt : x < 2 ^ 64) : asUsize x = x.toNat := by
  rw [asUsize, Int.emod_eq_of_lt h hlt]

/-- What truncates to no sample is read as none. All else before zero is read as the end of the
address space. -/
theorem asUsize_eq_zero_iff {x : ℤ} (hlow : -2 ^ 63 ≤ x) (hneg : x < 0) :
    asUsize (x.tdiv 1000) = 0 ↔ -1000 < x := by
  have htrunc : x.tdiv 1000 = -(-x / 1000) := by
    rw [← Int.tdiv_eq_ediv_of_nonneg (by omega), Int.neg_tdiv, neg_neg]
  rw [asUsize, htrunc]
  omega

theorem sampleAt_of_fits
    (h : -2 ^ 63 ≤ ms * sampleRate.toNat ∧ ms * sampleRate.toNat < 2 ^ 63) :
    sampleAt checks sampleRate ms = some (asUsize ((ms * sampleRate.toNat).tdiv 1000)) := by
  rw [sampleAt, mulI64_of_fits h, Option.map_some]

theorem sampleAt_of_nonneg (h : 0 ≤ ms * sampleRate.toNat)
    (hlt : ms * sampleRate.toNat < 2 ^ 63) :
    sampleAt checks sampleRate ms = some (ms * sampleRate.toNat / 1000).toNat := by
  rw [sampleAt_of_fits ⟨by omega, hlt⟩, Int.tdiv_eq_ediv_of_nonneg h,
    asUsize_of_nonneg (by omega) (by omega)]

theorem sampleAt_embedBudgetMs :
    sampleAt checks sampleRate embedBudgetMs = some (2 * (30 * sampleRate.toNat)) := by
  have hlt := sampleRate.toNat_lt
  rw [embedBudgetMs, sampleAt_of_nonneg (by omega) (by omega)]
  congr 1
  omega

theorem sampleAt_maxEmbedMs :
    sampleAt checks sampleRate maxEmbedMs = some (30 * sampleRate.toNat) := by
  have hlt := sampleRate.toNat_lt
  rw [maxEmbedMs, sampleAt_of_nonneg (by omega) (by omega)]
  congr 1
  omega

/-! ## The slices of a range -/

/-- The slices of a turn that lies at `start .. stop`. -/
def rangeSlices (n start stop : ℕ) : List (ℕ × ℕ) :=
  if stop ≤ start then []
  else
    (splitEvenly (middle (2 * (30 * n)) start stop).1 (middle (2 * (30 * n)) start stop).2
      (30 * n)).filter fun p => p.1 < p.2

theorem turnSlices_eq {turn : ScribeLocal.SpeakerTurn}
    (hstart : sampleAt checks sampleRate (max turn.startMs 0) = some start)
    (hstop : sampleAt checks sampleRate (max turn.endMs turn.startMs) = some stop) :
    turnSlices checks len sampleRate turn =
      some (rangeSlices sampleRate.toNat start (min stop len)) := by
  simp only [turnSlices, hstart, hstop, sampleAt_embedBudgetMs, sampleAt_maxEmbedMs, rangeSlices]
  split
  · simp_all
  · simp_all

theorem rangeSlices_of_le {n : ℕ} (hle : stop ≤ start) : rangeSlices n start stop = [] :=
  if_pos hle

theorem middle_lt {n : ℕ} (hlt : start < stop) (hpos : 0 < n) :
    (middle (2 * (30 * n)) start stop).1 < (middle (2 * (30 * n)) start stop).2 := by
  have hmiddle := middle_central (30 * n) hlt.le
  rw [hmiddle.length]
  omega

/-- No piece is empty, so none is left out. -/
theorem rangeSlices_of_lt {n : ℕ} (hlt : start < stop) (hpos : 0 < n) :
    rangeSlices n start stop =
      splitEvenly (middle (2 * (30 * n)) start stop).1 (middle (2 * (30 * n)) start stop).2
        (30 * n) := by
  have htiles := splitEvenly_tiles (middle_lt hlt hpos) (show 0 < 30 * n by omega)
  rw [rangeSlices, if_neg hlt.not_ge, List.filter_eq_self]
  intro p hp
  exact decide_eq_true (htiles.bounds hp).2.1

/-- The ranges that are embedded for a turn are fit to be. -/
structure Bounded (len : ℕ) (sampleRate : UInt32) (slices : List (ℕ × ℕ)) : Prop where
  inside : ∀ p ∈ slices, p.1 < p.2 ∧ p.2 ≤ len
  short : ∀ p ∈ slices, 1000 * ((p.2 - p.1 : ℕ) : ℤ) ≤ maxEmbedMs * sampleRate.toNat
  even : ∀ p ∈ slices, ∀ q ∈ slices, p.2 - p.1 ≤ q.2 - q.1 + 1
  contiguous : ∃ first last, Tiles first slices last
  total : 1000 * (((slices.map fun p => p.2 - p.1).sum : ℕ) : ℤ) ≤
    embedBudgetMs * sampleRate.toNat

theorem Bounded.nil : Bounded len sampleRate [] where
  inside := by simp
  short := by simp
  even := by simp
  contiguous := ⟨0, 0, rfl⟩
  total := by
    rw [embedBudgetMs]
    simp

theorem rangeSlices_bounded (hlen : stop ≤ len) (hpos : start < stop → 0 < sampleRate.toNat) :
    Bounded len sampleRate (rangeSlices sampleRate.toNat start stop) := by
  by_cases hlt : start < stop
  · have hmiddle := middle_central (30 * sampleRate.toNat) hlt.le
    have hmax : 0 < 30 * sampleRate.toNat := by
      have := hpos hlt
      omega
    have hnonempty := middle_lt hlt (hpos hlt)
    have htiles := splitEvenly_tiles hnonempty hmax
    obtain ⟨c, hlength⟩ := splitEvenly_length hnonempty hmax
    rw [rangeSlices_of_lt hlt (hpos hlt)]
    constructor
    · intro p hp
      obtain ⟨-, hp_lt, hp_le⟩ := htiles.bounds hp
      exact ⟨hp_lt, hp_le.trans (hmiddle.inside.2.trans hlen)⟩
    · intro p hp
      have hp_le := (hlength p hp).2.2
      rw [maxEmbedMs]
      omega
    · intro p hp q hq
      have hp_le := hlength p hp
      have hq_le := hlength q hq
      omega
    · exact ⟨_, _, htiles⟩
    · have hsum := htiles.sum_length
      have hlast := hmiddle.length
      rw [embedBudgetMs]
      omega
  · rw [rangeSlices_of_le (not_lt.mp hlt)]
    exact .nil

/-- What is embedded is the middle of the range. -/
theorem rangeSlices_covers {n : ℕ} (hle : start ≤ stop) (hpos : start < stop → 0 < n) :
    ∃ first last, Central (2 * (30 * n)) start stop first last ∧
      Tiles first (rangeSlices n start stop) last := by
  obtain hlt | rfl := hle.lt_or_eq
  · refine ⟨_, _, middle_central (30 * n) hle, ?_⟩
    have hmax : 0 < 30 * n := by
      have := hpos hlt
      omega
    rw [rangeSlices_of_lt hlt (hpos hlt)]
    exact splitEvenly_tiles (middle_lt hlt (hpos hlt)) hmax
  · refine ⟨_, _, middle_central (30 * n) le_rfl, ?_⟩
    rw [rangeSlices_of_le le_rfl, (middle_central (30 * n) le_rfl).length]
    simp [Tiles]

theorem rangeSlices_max (n start stop : ℕ) :
    rangeSlices n start (max start stop) = rangeSlices n start stop := by
  obtain hle | hle := Nat.le_total start stop
  · rw [max_eq_right hle]
  · rw [max_eq_left hle, rangeSlices_of_le le_rfl, rangeSlices_of_le hle]

/-! ## The slices of a turn -/

section Turn
variable {turn : ScribeLocal.SpeakerTurn} {slices : List (ℕ × ℕ)}

theorem exists_positions (h : turnSlices checks len sampleRate turn = some slices) :
    ∃ start stop, sampleAt checks sampleRate (max turn.startMs 0) = some start ∧
      sampleAt checks sampleRate (max turn.endMs turn.startMs) = some stop ∧
      slices = rangeSlices sampleRate.toNat start (min stop len) := by
  cases hstart : sampleAt checks sampleRate (max turn.startMs 0) with
  | none => simp [turnSlices, hstart] at h
  | some start =>
    cases hstop : sampleAt checks sampleRate (max turn.endMs turn.startMs) with
    | none => simp [turnSlices, hstart, hstop] at h
    | some stop =>
      rw [turnSlices_eq hstart hstop] at h
      exact ⟨start, stop, rfl, rfl, (Option.some.inj h).symm⟩

theorem sampleRate_pos (h : sampleAt checks sampleRate ms = some stop) (hpos : 0 < stop) :
    0 < sampleRate.toNat := by
  by_contra hzero
  have hrate : sampleRate.toNat = 0 := by omega
  rw [sampleAt_of_nonneg (by simp [hrate]) (by simp [hrate])] at h
  obtain rfl := Option.some.inj h
  simp [hrate] at hpos

/-- Whatever the turn is, what is embedded for it is fit to be. -/
theorem turnSlices_bounded (h : turnSlices checks len sampleRate turn = some slices) :
    Bounded len sampleRate slices := by
  obtain ⟨start, stop, -, hstop, rfl⟩ := exists_positions h
  apply rangeSlices_bounded (Nat.min_le_right _ _)
  intro hlt
  exact sampleRate_pos hstop (by omega)

/-- The range of the samples that a turn takes up. -/
def clipped (len : ℕ) (sampleRate : UInt32) (turn : ScribeLocal.SpeakerTurn) : ℕ × ℕ :=
  let start := (max turn.startMs 0 * sampleRate.toNat / 1000).toNat
  (start, max start (min (turn.endMs * sampleRate.toNat / 1000).toNat len))

/-- What is embedded for a turn is fit to be, and is the middle of the turn. -/
structure Embeds (len : ℕ) (sampleRate : UInt32) (turn : ScribeLocal.SpeakerTurn)
    (slices : List (ℕ × ℕ)) : Prop extends Bounded len sampleRate slices where
  covers : ∃ first last, Central (embedBudgetMs * sampleRate.toNat / 1000).toNat
    (clipped len sampleRate turn).1 (clipped len sampleRate turn).2 first last ∧
      Tiles first slices last

/-- The product fits an `i64`, and a turn does not end a sample before the recording, unless there
are no samples. -/
def Embeddable (len : ℕ) (sampleRate : UInt32) (turn : ScribeLocal.SpeakerTurn) : Prop :=
  let x := max turn.endMs turn.startMs * (sampleRate.toNat : ℤ)
  (-2 ^ 63 ≤ x ∧ x < 2 ^ 63) ∧ (len = 0 ∨ -1000 < x)

theorem budget_eq : (embedBudgetMs * sampleRate.toNat / 1000).toNat =
    2 * (30 * sampleRate.toNat) := by
  rw [embedBudgetMs]
  omega

/-- The slices of the right range embed the turn. -/
theorem embeds_rangeSlices (hclipped : max start (min stop len) = (clipped len sampleRate turn).2)
    (hstart : start = (clipped len sampleRate turn).1)
    (hpos : start < min stop len → 0 < sampleRate.toNat) :
    Embeds len sampleRate turn (rangeSlices sampleRate.toNat start (min stop len)) := by
  refine ⟨rangeSlices_bounded (Nat.min_le_right _ _) hpos, ?_⟩
  rw [budget_eq, ← hclipped, ← hstart, ← rangeSlices_max]
  apply rangeSlices_covers (le_max_left _ _)
  intro hlt
  exact hpos (by omega)

theorem start_le (turn : ScribeLocal.SpeakerTurn) (n : ℕ) :
    max turn.startMs 0 * n ≤ max (max turn.endMs turn.startMs * n) 0 := by
  have hn : (0 : ℤ) ≤ n := Int.natCast_nonneg _
  rw [max_mul_of_nonneg _ _ hn, zero_mul]
  exact max_le_max_right 0 (mul_le_mul_of_nonneg_right (le_max_right _ _) hn)

/-- The start is read as it is. -/
theorem sampleAt_start (hhigh : max turn.endMs turn.startMs * (sampleRate.toNat : ℤ) < 2 ^ 63) :
    sampleAt checks sampleRate (max turn.startMs 0) = some (clipped len sampleRate turn).1 := by
  have hstart := start_le turn sampleRate.toNat
  apply sampleAt_of_nonneg
  · exact mul_nonneg (le_max_right _ _) (Int.natCast_nonneg _)
  · omega

/-- A turn that ends before the start of the recording takes up nothing of it. -/
theorem clipped_of_neg (hneg : max turn.endMs turn.startMs * (sampleRate.toNat : ℤ) < 0) :
    clipped len sampleRate turn = (0, 0) := by
  have hrate : (0 : ℤ) ≤ sampleRate.toNat := Int.natCast_nonneg _
  have hstart := start_le turn sampleRate.toNat
  have hend : turn.endMs * (sampleRate.toNat : ℤ) ≤ _ :=
    mul_le_mul_of_nonneg_right (le_max_left _ turn.startMs) hrate
  have hzero : (max turn.startMs 0 * (sampleRate.toNat : ℤ) / 1000).toNat = 0 := by omega
  have hzero' : (turn.endMs * (sampleRate.toNat : ℤ) / 1000).toNat = 0 := by omega
  simp only [clipped, hzero, hzero', Nat.zero_min, max_self]

/-- A turn that ends before it starts takes up nothing either. -/
theorem clipped_snd : (clipped len sampleRate turn).2 =
    max (clipped len sampleRate turn).1
      (min (max turn.endMs turn.startMs * sampleRate.toNat / 1000).toNat len) := by
  obtain hle | hle := le_total turn.startMs turn.endMs
  · rw [max_eq_left hle, clipped]
  · have hrate : (0 : ℤ) ≤ sampleRate.toNat := Int.natCast_nonneg _
    have hend : turn.endMs * (sampleRate.toNat : ℤ) ≤ turn.startMs * sampleRate.toNat :=
      mul_le_mul_of_nonneg_right hle hrate
    have hstart : turn.startMs * (sampleRate.toNat : ℤ) ≤ max turn.startMs 0 * sampleRate.toNat :=
      mul_le_mul_of_nonneg_right (le_max_left _ _) hrate
    rw [max_eq_right hle, clipped]
    dsimp only
    generalize turn.endMs * (sampleRate.toNat : ℤ) = x at *
    generalize turn.startMs * (sampleRate.toNat : ℤ) = y at *
    generalize max turn.startMs 0 * (sampleRate.toNat : ℤ) = z at *
    omega

theorem exists_embeds (h : Embeddable len sampleRate turn) :
    ∃ slices, turnSlices checks len sampleRate turn = some slices ∧
      Embeds len sampleRate turn slices := by
  obtain ⟨⟨hlow, hhigh⟩, hend⟩ := h
  have hstart : sampleAt checks sampleRate (max turn.startMs 0) =
      some (clipped len sampleRate turn).1 := sampleAt_start hhigh
  obtain hneg | hnonneg := Int.lt_or_le (max turn.endMs turn.startMs * sampleRate.toNat) 0
  · have hstop : sampleAt checks sampleRate (max turn.endMs turn.startMs) = some _ :=
      sampleAt_of_fits ⟨hlow, hhigh⟩
    have hread := asUsize_eq_zero_iff hlow hneg
    have hnone : min (asUsize ((max turn.endMs turn.startMs * sampleRate.toNat).tdiv 1000)) len =
        0 := by omega
    refine ⟨_, turnSlices_eq hstart hstop, embeds_rangeSlices ?_ rfl ?_⟩
    · rw [hnone, clipped_of_neg hneg, max_self]
    · intro hlt
      omega
  · have hstop : sampleAt checks sampleRate (max turn.endMs turn.startMs) = some _ :=
      sampleAt_of_nonneg hnonneg hhigh
    refine ⟨_, turnSlices_eq hstart hstop, embeds_rangeSlices clipped_snd.symm rfl ?_⟩
    intro hlt
    exact sampleRate_pos hstop (by omega)

/-- With overflow checks a product that is read fits. -/
theorem fits_of_sampleAt (h : sampleAt .on sampleRate ms = some stop) :
    -2 ^ 63 ≤ ms * sampleRate.toNat ∧ ms * sampleRate.toNat < 2 ^ 63 := by
  by_contra hfits
  have hmul : mulI64 .on ms sampleRate.toNat = none := if_neg hfits
  rw [sampleAt, hmul] at h
  cases h

theorem embeddable_of_embeds (h : turnSlices .on len sampleRate turn = some slices)
    (hembeds : Embeds len sampleRate turn slices) : Embeddable len sampleRate turn := by
  obtain ⟨start, stop, hstart, hstop, rfl⟩ := exists_positions h
  have hfits := fits_of_sampleAt hstop
  refine ⟨hfits, ?_⟩
  by_contra hend
  rw [not_or, not_lt] at hend
  obtain ⟨hlen, hend⟩ := hend
  have hclipped : clipped len sampleRate turn = (0, 0) := clipped_of_neg (by omega)
  -- The turn is over before the recording starts, and yet all of the samples are read for it.
  obtain rfl : start = 0 := by
    have hread : sampleAt .on sampleRate (max turn.startMs 0) =
        some (clipped len sampleRate turn).1 := sampleAt_start hfits.2
    rw [hclipped] at hread
    exact Option.some.inj (hstart.symm.trans hread)
  have hread : stop ≠ 0 := by
    rw [sampleAt_of_fits hfits] at hstop
    rw [← Option.some.inj hstop, Ne, asUsize_eq_zero_iff hfits.1 (by omega)]
    omega
  have hlt : 0 < min stop len := by omega
  obtain ⟨first, last, hcentral, htiles⟩ := hembeds.covers
  have hlast := hcentral.length
  rw [hclipped] at hlast
  have hpos := sampleRate_pos hstop (by omega)
  obtain ⟨first', last', hmiddle, htiles'⟩ := rangeSlices_covers hlt.le fun _ => hpos
  have hlast' := hmiddle.length
  have hsum := htiles.sum_length
  have hsum' := htiles'.sum_length
  omega

end Turn

/-! ## The extractor -/

section Extractor
variable {α K : Type*} [Field K] [LinearOrder K] (sqrt : K → K)
  {extract extract' : List α → Option (List K)} {samples : List α}

omit [LinearOrder K] in
theorem embedTurn_congr {turn : ScribeLocal.SpeakerTurn}
    (h : ∀ slices, turnSlices checks samples.length sampleRate turn = some slices →
      ∀ p ∈ slices, extract (samples.extract p.1 p.2) = extract' (samples.extract p.1 p.2))
    (acc : Sums K) :
    embedTurn extract checks samples sampleRate acc turn =
      embedTurn extract' checks samples sampleRate acc turn := by
  rw [embedTurn, embedTurn]
  cases hslices : turnSlices checks samples.length sampleRate turn with
  | none => rfl
  | some slices =>
    rw [Option.map_some, Option.map_some]
    congr 1
    apply List.foldl_ext
    intro acc p hp
    rw [embedSlice, embedSlice, h slices hslices p hp]

omit [LinearOrder K] in
theorem foldlM_embedTurn_congr {turns : List ScribeLocal.SpeakerTurn}
    (h : ∀ turn ∈ turns, ∀ slices, turnSlices checks samples.length sampleRate turn = some slices →
      ∀ p ∈ slices, extract (samples.extract p.1 p.2) = extract' (samples.extract p.1 p.2))
    (acc : Sums K) :
    turns.foldlM (embedTurn extract checks samples sampleRate) acc =
      turns.foldlM (embedTurn extract' checks samples sampleRate) acc := by
  induction turns generalizing acc with
  | nil => rfl
  | cons turn turns ih =>
    rw [List.foldlM_cons, List.foldlM_cons, embedTurn_congr (h turn List.mem_cons_self)]
    congr 1
    funext acc
    exact ih (fun turn hturn => h turn (List.mem_cons_of_mem _ hturn)) acc

/-- It does not matter what the extractor makes of anything but a stretch of the samples that is
not empty and not too long. -/
theorem computeSpeakerEmbeddings_congr (turns : List ScribeLocal.SpeakerTurn)
    (h : ∀ slice : List α, slice <:+: samples → slice ≠ [] →
      1000 * (slice.length : ℤ) ≤ maxEmbedMs * sampleRate.toNat → extract slice = extract' slice) :
    computeSpeakerEmbeddings sqrt extract checks samples sampleRate turns =
      computeSpeakerEmbeddings sqrt extract' checks samples sampleRate turns := by
  rw [computeSpeakerEmbeddings, computeSpeakerEmbeddings, foldlM_embedTurn_congr]
  intro turn _ slices hslices p hp
  have hbounded := turnSlices_bounded hslices
  obtain ⟨hlt, hle⟩ := hbounded.inside p hp
  have hlength : (samples.extract p.1 p.2).length = p.2 - p.1 := by
    rw [List.extract_eq_take_drop, List.length_take, List.length_drop]
    omega
  apply h
  · rw [List.extract_eq_take_drop]
    exact (List.take_prefix _ _).isInfix.trans (List.drop_suffix _ _).isInfix
  · rw [← List.length_pos_iff_ne_nil, hlength]
    omega
  · rw [hlength]
    exact hbounded.short p hp

end Extractor

/-! ## All turns -/

/-- With overflow checks or without, each turn is embedded. -/
def EmbedsTurns (len : ℕ) (sampleRate : UInt32) (turns : List ScribeLocal.SpeakerTurn) : Prop :=
  ∀ checks, ∀ turn ∈ turns, ∃ slices, turnSlices checks len sampleRate turn = some slices ∧
    Embeds len sampleRate turn slices

theorem embedsTurns_iff {α : Type*} (samples : List α) (sampleRate : UInt32)
    (turns : List ScribeLocal.SpeakerTurn) :
    EmbedsTurns samples.length sampleRate turns ↔
      ∀ turn ∈ turns, Embeddable samples.length sampleRate turn := by
  constructor
  · intro h turn hturn
    obtain ⟨slices, hslices, hembeds⟩ := h .on turn hturn
    exact embeddable_of_embeds hslices hembeds
  · intro h checks turn hturn
    exact exists_embeds (h turn hturn)

theorem turnSlices_before_start (checks : OverflowChecks) :
    turnSlices checks 3 16000 ⟨0, -2000, -1000⟩ = some [(0, 3)] := by
  cases checks <;> decide +kernel

/-- A turn that is over before the recording starts is given all of the recording. -/
theorem not_embedsTurns_before_start :
    ¬∀ (samples : List ℚ) (sampleRate : UInt32) (turns : List ScribeLocal.SpeakerTurn),
      1000 ≤ maxEmbedMs * sampleRate.toNat → EmbedsTurns samples.length sampleRate turns := by
  intro h
  obtain ⟨slices, hslices, hembeds⟩ :=
    h (List.replicate 3 0) 16000 [⟨0, -2000, -1000⟩] (by decide) .off ⟨0, -2000, -1000⟩
      List.mem_cons_self
  rw [List.length_replicate] at hslices hembeds
  obtain rfl := Option.some.inj ((turnSlices_before_start .off).symm.trans hslices)
  obtain ⟨first, last, hcentral, htiles⟩ := hembeds.covers
  have hlast := hcentral.length
  have hclipped : clipped 3 16000 ⟨0, -2000, -1000⟩ = (0, 0) := by decide +kernel
  rw [hclipped] at hlast
  have hsum := htiles.sum_length
  simp at hsum
  omega

end ScribeLocal.Asr
