import Mathlib.Data.List.DropRight
import ScribeLocal.Asr.Transcribe
import ScribeLocal.MachineInt
import ScribeLocal.Server.Content
import ScribeLocal.Tiling

/-!
# Turns split at silence

`split_turns_at_silence` looks for quiet stretches in the samples of a turn, cuts the turn in
the middle of each, leaves out the cuts that make a sliver, and numbers the pieces. The times are
`i64`, and their sums and products wrap.
-/
namespace ScribeLocal.Asr
open MachineInt Tiling

/-- The experiment hooks of the split. -/
structure SplitEnv where
  splitSilenceMs : Option ℤ
  pieceMs : Option ℤ
  floorAlpha : Option Float32
  silenceRatio : Option Float32

def silenceFrameMs : ℤ := 20

def minSplitSilenceMsDefault : ℤ := 160

def minPieceMsDefault : ℤ := 400

def silenceRatioDefault : Float32 := 0.15

def floorAlphaDefault : Float32 := 0.35

def speechPercentile : Float32 := 0.85

def minSplitSilenceMs (env : SplitEnv) : ℤ := env.splitSilenceMs.getD minSplitSilenceMsDefault

def minPieceMs (env : SplitEnv) : ℤ := env.pieceMs.getD minPieceMsDefault

/-- `as usize` -/
def asUsize (x : ℤ) : ℕ := (x % 2 ^ 64).toNat

/-! ## Quiet frames -/

/-- `f32::max` -/
def maxF32 (a b : Float32) : Float32 := if a.isNaN || a < b then b else a

/-- The root mean square of each frame. -/
def frameEnergies (clip : Samples) (frame : ℕ) : List Float32 :=
  (clip.toChunks frame).map fun c => (energy c / Float32.ofNat c.length).sqrt

/-- The turn's own speech level, or a level above its noise floor where that is higher. -/
def silenceThreshold (env : SplitEnv) (energies : List Float32) : Float32 :=
  let mean := energies.foldl (· + ·) 0 / Float32.ofNat energies.length
  let sorted := energies.mergeSort fun a b => !(b < a)
  let floor := sorted.getD 0 0
  let speech := sorted.getD
    (Float32.ofNat (sorted.length - 1) * speechPercentile).toUInt64.toNat 0
  let adaptive := if 0 < floor && floor < speech then
      floor * (speech / floor).pow (env.floorAlpha.getD floorAlphaDefault)
    else 0
  maxF32 (mean * env.silenceRatio.getD silenceRatioDefault) adaptive

def quietFrames (env : SplitEnv) (clip : Samples) (frame : ℕ) : List Bool :=
  let energies := frameEnergies clip frame
  energies.map fun e => decide (e ≤ silenceThreshold env energies)

/-! ## Cuts -/

/-- `cut_ms` and `run_start`. -/
structure Runs where
  cutMs : List ℤ
  runStart : Option ℕ

/-- Where the turn is cut at a frame. -/
def cutAt (startMs : ℤ) (mid : ℕ) : ℤ := i64 (startMs + i64 (mid * silenceFrameMs))

/-- A run of quiet frames that has ended is cut in its middle if it is long enough. -/
def Runs.frame (startMs : ℤ) (minRun : ℕ) (s : Runs) (frame : Bool × ℕ) : Runs :=
  match frame.1, s.runStart with
  | true, none => { s with runStart := some frame.2 }
  | false, some first =>
    if minRun ≤ frame.2 - first then
      ⟨s.cutMs ++ [cutAt startMs (first + (frame.2 - first) / 2)], none⟩
    else { s with runStart := none }
  | _, _ => s

def findCuts (startMs : ℤ) (minRun : ℕ) (quiet : List Bool) : List ℤ :=
  ((quiet ++ [false]).zipIdx.foldl (Runs.frame startMs minRun) ⟨[], none⟩).cutMs

/-- `kept` and `last`. -/
structure Keeping where
  kept : List ℤ
  last : ℤ

def Keeping.cut (minPiece : ℤ) (s : Keeping) (cut : ℤ) : Keeping :=
  if minPiece ≤ i64 (cut - s.last) then ⟨s.kept ++ [cut], cut⟩ else s

/-- Without the cuts that leave a sliver before them, and without the last ones if what
follows them is a sliver. -/
def keptCuts (minPiece : ℤ) (turn : ScribeLocal.SpeakerTurn) (cutMs : List ℤ) : List ℤ :=
  (cutMs.foldl (Keeping.cut minPiece) ⟨[], turn.startMs⟩).kept.rdropWhile
    fun c => decide (i64 (turn.endMs - c) < minPiece)

/-! ## Split -/

/-- The pieces so far, and the number of the next. -/
structure Emitter where
  out : List ScribeLocal.SpeakerTurn
  nextIdx : ℤ

def Emitter.emit (s : Emitter) (startMs endMs : ℤ) : Emitter :=
  if startMs < endMs then ⟨s.out ++ [⟨s.nextIdx, startMs, endMs⟩], s.nextIdx + 1⟩ else s

/-- The loop over the cuts, from `pieceStart` on. -/
def Emitter.pieces (s : Emitter) (pieceStart : ℤ) (cutMs : List ℤ) (endMs : ℤ) : Emitter :=
  match cutMs with
  | [] => s.emit pieceStart endMs
  | cut :: cutMs =>
    if pieceStart < cut then (s.emit pieceStart cut).pieces cut cutMs endMs
    else s.pieces pieceStart cutMs endMs

def silenceFrame (sampleRate : UInt32) : ℕ :=
  asUsize (max ((silenceFrameMs * (sampleRate.toNat : ℤ)).tdiv 1000) 1)

def minRun (env : SplitEnv) : ℕ := asUsize (max ((minSplitSilenceMs env).tdiv silenceFrameMs) 1)

/-- The samples of the turn, from the first to before the second. -/
def turnSamples (samples : Samples) (sampleRate : UInt32) (turn : ScribeLocal.SpeakerTurn) :
    ℕ × ℕ :=
  let sr : ℤ := sampleRate.toNat
  (asUsize ((i64 (max turn.startMs 0 * sr)).tdiv 1000),
    min (asUsize ((i64 (max turn.endMs turn.startMs * sr)).tdiv 1000)) samples.length)

def Emitter.turn (env : SplitEnv) (samples : Samples) (sampleRate : UInt32) (s : Emitter)
    (turn : ScribeLocal.SpeakerTurn) : Emitter :=
  let frame := silenceFrame sampleRate
  let (start, stop) := turnSamples samples sampleRate turn
  if stop ≤ start ∨ stop - start < frame * 2 then s.emit turn.startMs turn.endMs
  else
    let quiet := quietFrames env (samples.extract start stop) frame
    s.pieces turn.startMs
      (keptCuts (minPieceMs env) turn (findCuts turn.startMs (minRun env) quiet)) turn.endMs

def splitTurnsAtSilence (env : SplitEnv) (turns : List ScribeLocal.SpeakerTurn)
    (samples : Samples) (sampleRate : UInt32) : List ScribeLocal.SpeakerTurn :=
  (turns.foldl (Emitter.turn env samples sampleRate) ⟨[], 0⟩).out

/-! ## One turn -/

/-- The stretches between the cuts. -/
def stretches (start : ℤ) : List ℤ → ℤ → List (ℤ × ℤ)
  | [], stop => if start < stop then [(start, stop)] else []
  | cut :: cuts, stop =>
    if start < cut then (start, cut) :: stretches cut cuts stop else stretches start cuts stop

variable {env : SplitEnv} {samples : Samples} {sampleRate : UInt32} {s : Emitter}
  {turn : ScribeLocal.SpeakerTurn} {start stop minPiece : ℤ} {cuts : List ℤ}

/-- Number the stretches from `i` on. -/
def number (i : ℤ) : List (ℤ × ℤ) → List ScribeLocal.SpeakerTurn
  | [] => []
  | p :: ps => ⟨i, p.1, p.2⟩ :: number (i + 1) ps

theorem emit_eq (s : Emitter) (start stop : ℤ) : s.emit start stop =
    ⟨s.out ++ number s.nextIdx (stretches start [] stop),
      s.nextIdx + (stretches start [] stop).length⟩ := by
  unfold Emitter.emit stretches
  by_cases h : start < stop <;> simp [h, number]

theorem pieces_eq (s : Emitter) (start : ℤ) (cuts : List ℤ) (stop : ℤ) :
    s.pieces start cuts stop =
      ⟨s.out ++ number s.nextIdx (stretches start cuts stop),
        s.nextIdx + (stretches start cuts stop).length⟩ := by
  induction cuts generalizing s start with
  | nil => exact emit_eq s start stop
  | cons cut cuts ih =>
    unfold Emitter.pieces stretches
    by_cases h : start < cut
    · have hemit : s.emit start cut = ⟨s.out ++ [⟨s.nextIdx, start, cut⟩], s.nextIdx + 1⟩ :=
        if_pos h
      rw [if_pos h, if_pos h, ih, hemit]
      simp only [number, List.append_assoc, List.singleton_append, List.length_cons]
      congr 1
      push_cast
      ring
    · rw [if_neg h, if_neg h, ih]

theorem tiles_stretches (h : (start :: cuts ++ [stop]).IsChain (· ≤ ·)) :
    Tiles start (stretches start cuts stop) stop := by
  induction cuts generalizing start with
  | nil =>
    have hle : start ≤ stop := by simpa using h
    unfold stretches
    by_cases hlt : start < stop
    · rw [if_pos hlt]
      exact ⟨rfl, hlt, rfl⟩
    · rw [if_neg hlt]
      exact le_antisymm hle (not_lt.mp hlt)
  | cons cut cuts ih =>
    rw [List.cons_append, List.cons_append, List.isChain_cons_cons] at h
    unfold stretches
    by_cases hlt : start < cut
    · rw [if_pos hlt]
      exact ⟨rfl, hlt, ih h.2⟩
    · obtain rfl : start = cut := le_antisymm h.1 (not_lt.mp hlt)
      rw [if_neg hlt]
      exact ih h.2

/-- Between cuts that lie at least so far apart, each stretch is at least so long. -/
theorem le_of_mem_stretches (hpos : 0 ≤ minPiece)
    (h : (start :: cuts).IsChain fun a b => minPiece ≤ b - a)
    (hlast : ∀ a ∈ (start :: cuts).getLast?, a < stop → minPiece ≤ stop - a) {p : ℤ × ℤ}
    (hp : p ∈ stretches start cuts stop) : minPiece ≤ p.2 - p.1 := by
  induction cuts generalizing start with
  | nil =>
    unfold stretches at hp
    split at hp
    · rename_i hlt
      obtain rfl : p = (start, stop) := List.mem_singleton.mp hp
      exact hlast start rfl hlt
    · cases hp
  | cons cut cuts ih =>
    rw [List.isChain_cons_cons] at h
    rw [List.getLast?_cons_cons] at hlast
    unfold stretches at hp
    by_cases hlt : start < cut
    · rw [if_pos hlt] at hp
      rcases List.mem_cons.mp hp with rfl | hrest
      · exact h.1
      · exact ih h.2 hlast hrest
    · obtain rfl : start = cut := by
        have hstep := h.1
        omega
      rw [if_neg hlt] at hp
      exact ih h.2 hlast hp

/-! ## The cuts that are kept -/

theorem length_go_le {α : Type*} (n : ℕ) (xs : List α) (acc₁ : Array α) (acc₂ : Array (List α)) :
    (List.toChunks.go n xs acc₁ acc₂).length ≤ acc₂.size + 1 + xs.length := by
  induction xs generalizing acc₁ acc₂ with
  | nil => simp [List.toChunks.go]
  | cons y ys ih =>
    unfold List.toChunks.go
    split
    · have hnext := ih ((Array.mkEmpty n).push y) (acc₂.push acc₁.toList)
      simp at hnext ⊢
      omega
    · have hnext := ih (acc₁.push y) acc₂
      simp at hnext ⊢
      omega

theorem length_toChunks_le {α : Type*} (n : ℕ) (xs : List α) :
    (xs.toChunks n).length ≤ xs.length := by
  match n, xs with
  | _, [] => simp [List.toChunks]
  | 0, x :: xs => simp [List.toChunks]
  | n + 1, x :: xs =>
    have hgo := length_go_le (n + 1) xs #[x] #[]
    simp [List.toChunks] at hgo ⊢
    omega

theorem length_quietFrames_le (env : SplitEnv) (clip : Samples) (frame : ℕ) :
    (quietFrames env clip frame).length ≤ clip.length := by
  unfold quietFrames frameEnergies
  rw [List.length_map, List.length_map]
  exact length_toChunks_le frame clip

/-- The middles of the runs so far, in order; the run that is open starts behind them. -/
structure Runs.Middles (startMs : ℤ) (n : ℕ) (mids : List ℕ) (s : Runs) : Prop where
  cutMs : s.cutMs = mids.map (cutAt startMs)
  sorted : mids.Pairwise (· ≤ ·)
  behind : ∀ m ∈ mids, m ≤ s.runStart.getD n
  opened : ∀ first ∈ s.runStart, first ≤ n

theorem Runs.Middles.frame {startMs : ℤ} {n : ℕ} {mids : List ℕ} {s : Runs}
    (h : s.Middles startMs n mids) (minRun : ℕ) (quiet : Bool) :
    ∃ mids', (s.frame startMs minRun (quiet, n)).Middles startMs (n + 1) mids' := by
  obtain ⟨hcut, hsorted, hbehind, hopened⟩ := h
  rcases s with ⟨cutMs, runStart⟩
  cases runStart with
  | none =>
    refine ⟨mids, ?_⟩
    cases quiet with
    | true =>
      exact ⟨hcut, hsorted, hbehind, fun first hfirst => by cases hfirst; exact n.le_succ⟩
    | false => exact ⟨hcut, hsorted, fun m hm => (hbehind m hm).trans n.le_succ, nofun⟩
  | some first =>
    have hfirst : first ≤ n := hopened first rfl
    have hlater : ∀ m ∈ mids, m ≤ n + 1 := fun m hm =>
      (hbehind m hm).trans (hfirst.trans n.le_succ)
    cases quiet with
    | true =>
      exact ⟨mids, hcut, hsorted, hbehind, fun first' h => (hopened first' h).trans n.le_succ⟩
    | false =>
      unfold Runs.frame
      dsimp only
      split
      · refine ⟨mids ++ [first + (n - first) / 2], ?_, ?_, ?_, nofun⟩
        · rw [List.map_append, ← hcut]
          rfl
        · rw [List.pairwise_append]
          refine ⟨hsorted, List.pairwise_singleton _ _, fun m hm m' hm' => ?_⟩
          have hle : m ≤ first := hbehind m hm
          rw [List.mem_singleton.mp hm']
          omega
        · intro m hm
          rcases List.mem_append.mp hm with hold | hnew
          · exact hlater m hold
          · rw [List.mem_singleton.mp hnew]
            show _ ≤ n + 1
            omega
      · exact ⟨mids, hcut, hsorted, hlater, nofun⟩

theorem exists_middles (startMs : ℤ) (minRun : ℕ) (quiet : List Bool) :
    ∃ mids : List ℕ, findCuts startMs minRun quiet = mids.map (cutAt startMs) ∧
      mids.Pairwise (· ≤ ·) ∧ ∀ m ∈ mids, m ≤ quiet.length + 1 := by
  have hrun (frames : List Bool) : ∃ mids,
      (frames.zipIdx.foldl (Runs.frame startMs minRun) ⟨[], none⟩).Middles startMs frames.length
        mids := by
    induction frames using List.reverseRecOn with
    | nil => exact ⟨[], rfl, .nil, nofun, nofun⟩
    | append_singleton frames frame ih =>
      obtain ⟨mids, hmids⟩ := ih
      rw [List.zipIdx_append, List.foldl_append, List.length_append, List.length_singleton]
      simpa using hmids.frame minRun frame
  obtain ⟨mids, hcut, hsorted, hbehind, hopened⟩ := hrun (quiet ++ [false])
  rw [List.length_append, List.length_singleton] at hbehind hopened
  refine ⟨mids, hcut, hsorted, fun m hm => (hbehind m hm).trans ?_⟩
  generalize (quiet ++ [false]).zipIdx.foldl (Runs.frame startMs minRun) ⟨[], none⟩ = s at hopened
  cases hs : s.runStart with
  | none => exact le_rfl
  | some first => exact hopened first hs

/-- The offset of a frame that is counted in an `i64`. -/
theorem cutAt_eq {startMs : ℤ} {m : ℕ} (hm : m * silenceFrameMs < 2 ^ 63) :
    cutAt startMs m = i64 (startMs + m * silenceFrameMs) := by
  have hf : silenceFrameMs = 20 := rfl
  have hfits : FitsI64 (m * silenceFrameMs) := by
    apply FitsI64.of_nonneg _ hm
    rw [hf]
    omega
  rw [cutAt, hfits.i64_eq]

/-- How far two cuts lie apart. -/
theorem i64_cutAt_sub {startMs : ℤ} {l m : ℕ} (hle : l ≤ m) (hm : m * silenceFrameMs < 2 ^ 63) :
    i64 (cutAt startMs m - cutAt startMs l) = m * silenceFrameMs - l * silenceFrameMs := by
  have hf : silenceFrameMs = 20 := rfl
  rw [cutAt_eq hm, cutAt_eq (by rw [hf] at hm ⊢; omega), i64_sub, add_sub_add_left_eq_sub,
    FitsI64.i64_eq]
  rw [hf] at hm ⊢
  unfold FitsI64
  omega

/-- One middle is no sliver behind the other. -/
def Apart (minPiece : ℤ) (a b : ℕ) : Prop :=
  a ≤ b ∧ minPiece ≤ b * silenceFrameMs - a * silenceFrameMs

/-- The forward pass keeps the cuts of middles that are far enough apart. -/
theorem exists_kept {startMs : ℤ} (minPiece : ℤ) (hstart : FitsI64 startMs) {mids : List ℕ}
    (hsorted : mids.Pairwise (· ≤ ·)) (hmids : ∀ m ∈ mids, m * silenceFrameMs < 2 ^ 63) :
    ∃ kept : List ℕ,
      ((mids.map (cutAt startMs)).foldl (Keeping.cut minPiece) ⟨[], startMs⟩).kept =
        kept.map (cutAt startMs) ∧
      (∀ m ∈ kept, m * silenceFrameMs < 2 ^ 63) ∧ (0 :: kept).IsChain (Apart minPiece) := by
  have hrun : ∀ (s : Keeping) (kept : List ℕ) (l : ℕ), s.kept = kept.map (cutAt startMs) →
      (∀ m ∈ kept, m * silenceFrameMs < 2 ^ 63) → (0 :: kept).getLast? = some l →
      s.last = cutAt startMs l → (∀ m ∈ mids, l ≤ m) → (0 :: kept).IsChain (Apart minPiece) →
      ∃ kept : List ℕ, ((mids.map (cutAt startMs)).foldl (Keeping.cut minPiece) s).kept =
          kept.map (cutAt startMs) ∧
        (∀ m ∈ kept, m * silenceFrameMs < 2 ^ 63) ∧ (0 :: kept).IsChain (Apart minPiece) := by
    induction mids with
    | nil => exact fun s kept l hkept hfits _ _ _ hchain => ⟨kept, hkept, hfits, hchain⟩
    | cons m mids ih =>
      intro s kept l hkept hfits hlast heq hle hchain
      obtain ⟨hfirst, hrest⟩ := List.pairwise_cons.mp hsorted
      have hm := hmids m List.mem_cons_self
      have hlm := hle m List.mem_cons_self
      rw [List.map_cons, List.foldl_cons]
      unfold Keeping.cut
      rw [heq, i64_cutAt_sub hlm hm]
      by_cases hfar : minPiece ≤ m * silenceFrameMs - l * silenceFrameMs
      · rw [if_pos hfar]
        refine ih hrest (fun v hv => hmids v (List.mem_cons_of_mem _ hv)) _ (kept ++ [m]) m ?_ ?_
          ?_ rfl hfirst ?_
        · rw [hkept, List.map_append]
          rfl
        · intro v hv
          rcases List.mem_append.mp hv with hold | hnew
          · exact hfits v hold
          · rw [List.mem_singleton.mp hnew]
            exact hm
        · show ((0 :: kept) ++ [m]).getLast? = some m
          exact List.getLast?_concat
        · apply hchain.append (.singleton m)
          intro a ha b hb
          obtain rfl : l = a := by simpa [hlast] using ha
          obtain rfl : m = b := by simpa using hb
          exact ⟨hlm, hfar⟩
      · rw [if_neg hfar]
        exact ih hrest (fun v hv => hmids v (List.mem_cons_of_mem _ hv)) s kept l hkept hfits hlast
          heq (fun v hv => hle v (List.mem_cons_of_mem _ hv)) hchain
  refine hrun ⟨[], startMs⟩ [] 0 rfl nofun rfl ?_ (fun m _ => m.zero_le) (.singleton 0)
  have hzero : startMs + (0 : ℕ) * silenceFrameMs = startMs := by simp
  rw [cutAt_eq (by rw [Nat.cast_zero, zero_mul]; decide), hzero, hstart.i64_eq]

/-- A cut that the backward pass leaves has no sliver behind it, and has not wrapped. -/
theorem le_of_not_sliver {startMs endMs minPiece : ℤ} (hpos : 0 ≤ minPiece)
    (hstart : FitsI64 startMs) (hend : FitsI64 endMs) (hlt : startMs < endMs) {m : ℕ}
    (hm : m * silenceFrameMs < 2 ^ 63) (h : minPiece ≤ i64 (endMs - cutAt startMs m)) :
    minPiece ≤ endMs - (startMs + m * silenceFrameMs) := by
  have hf : silenceFrameMs = 20 := rfl
  rw [cutAt_eq hm, i64_sub_i64, i64_eq] at h
  rw [hf] at hm h ⊢
  unfold FitsI64 at hstart hend
  omega

/-- A chain of middles as the chain of the cuts. -/
theorem isChain_cuts (startMs : ℤ) {minPiece : ℤ} {kept : List ℕ}
    (h : (0 :: kept).IsChain (Apart minPiece)) :
    (startMs :: kept.map fun m : ℕ => startMs + m * silenceFrameMs).IsChain
      fun a b => minPiece ≤ b - a := by
  have hmap : ((0 :: kept).map fun m : ℕ => startMs + m * silenceFrameMs).IsChain
      fun a b => minPiece ≤ b - a := by
    rw [List.isChain_map]
    refine h.imp fun a b hab => ?_
    have hfar := hab.2
    omega
  simpa using hmap

theorem le_last_of_isChain {minPiece : ℤ} {init : List ℕ} {m : ℕ}
    (h : (0 :: (init ++ [m])).IsChain (Apart minPiece)) : ∀ v ∈ init ++ [m], v ≤ m := by
  have hle : (init ++ [m]).Pairwise (· ≤ ·) :=
    List.isChain_iff_pairwise.mp (h.tail.imp fun _ _ hab => hab.1)
  intro v hv
  rcases List.mem_append.mp hv with hold | hnew
  · exact (List.pairwise_append.mp hle).2.2 v hold m (List.mem_singleton_self m)
  · exact (List.mem_singleton.mp hnew).le

theorem of_rdropWhile_eq_concat {α : Type*} {p : α → Bool} {l init : List α} {a : α}
    (h : l.rdropWhile p = init ++ [a]) : p a = false := by
  have hne : l.rdropWhile p ≠ [] := by simp [h]
  have hlast := List.rdropWhile_last_not p l hne
  have hget : (l.rdropWhile p).getLast hne = a := by simp [h]
  rw [hget] at hlast
  exact eq_false_of_ne_true hlast

/-- Where the turn ends after it starts, the cuts that are kept are no slivers apart. -/
theorem isChain_keptCuts (turn : ScribeLocal.SpeakerTurn) (hpos : 0 ≤ minPiece)
    (hstart : FitsI64 turn.startMs) (hend : FitsI64 turn.endMs)
    (hlt : turn.startMs < turn.endMs) {mids : List ℕ} (hsorted : mids.Pairwise (· ≤ ·))
    (hmids : ∀ m ∈ mids, m * silenceFrameMs < 2 ^ 63) :
    keptCuts minPiece turn (mids.map (cutAt turn.startMs)) = [] ∨
      (turn.startMs :: keptCuts minPiece turn (mids.map (cutAt turn.startMs)) ++
        [turn.endMs]).IsChain fun a b => minPiece ≤ b - a := by
  have hf : silenceFrameMs = 20 := rfl
  obtain ⟨kept, hkept, hfits, hchain⟩ := exists_kept minPiece hstart hsorted hmids
  unfold keptCuts
  rw [hkept]
  obtain ⟨dropped, happend⟩ :=
    List.rdropWhile_prefix (fun c => decide (i64 (turn.endMs - c) < minPiece))
      (kept.map (cutAt turn.startMs))
  obtain ⟨left, right, rfl, hleft, -⟩ := List.map_eq_append_iff.mp happend.symm
  rw [← List.cons_append, List.isChain_append] at hchain
  rw [← hleft]
  rcases List.eq_nil_or_concat left with rfl | ⟨init, m, rfl⟩
  · exact .inl rfl
  · right
    rw [List.concat_eq_append] at *
    have hm : m * silenceFrameMs < 2 ^ 63 := hfits m (by simp)
    have hstays : minPiece ≤ turn.endMs - (turn.startMs + m * silenceFrameMs) := by
      apply le_of_not_sliver hpos hstart hend hlt hm
      rw [List.map_append, List.map_singleton] at hleft
      have hkeeps := of_rdropWhile_eq_concat
        (p := fun c => decide (i64 (turn.endMs - c) < minPiece)) hleft.symm
      exact not_lt.mp (of_decide_eq_false hkeeps)
    have hexact : (init ++ [m]).map (cutAt turn.startMs) =
        (init ++ [m]).map fun v : ℕ => turn.startMs + v * silenceFrameMs := by
      apply List.map_congr_left
      intro v hv
      have hle := le_last_of_isChain hchain.1 v hv
      unfold FitsI64 at hstart hend
      rw [hf] at hm hstays
      have hoff : v * silenceFrameMs < 2 ^ 63 := by rw [hf]; omega
      rw [cutAt_eq hoff, FitsI64.i64_eq]
      rw [hf]
      unfold FitsI64
      omega
    rw [hexact]
    apply (isChain_cuts turn.startMs hchain.1).append (.singleton _)
    intro a ha b hb
    obtain rfl : turn.endMs = b := by simpa using hb
    rw [List.map_append, ← List.cons_append, List.map_singleton, List.getLast?_concat] at ha
    obtain rfl := Option.some_inj.mp ha
    exact hstays

/-- A turn that starts before the recording has no cut that wraps. -/
theorem isChain_keptCuts_of_neg (turn : ScribeLocal.SpeakerTurn) (hstart : FitsI64 turn.startMs)
    (hneg : turn.startMs < 0) {mids : List ℕ} (hsorted : mids.Pairwise (· ≤ ·))
    (hmids : ∀ m ∈ mids, m * silenceFrameMs < 2 ^ 63) :
    (turn.startMs :: keptCuts minPiece turn (mids.map (cutAt turn.startMs))).IsChain
      fun a b => minPiece ≤ b - a := by
  have hf : silenceFrameMs = 20 := rfl
  obtain ⟨kept, hkept, hfits, hchain⟩ := exists_kept minPiece hstart hsorted hmids
  have hexact : kept.map (cutAt turn.startMs) =
      kept.map fun v : ℕ => turn.startMs + v * silenceFrameMs := by
    apply List.map_congr_left
    intro v hv
    have hoff := hfits v hv
    unfold FitsI64 at hstart
    rw [cutAt_eq hoff, FitsI64.i64_eq]
    rw [hf] at hoff ⊢
    unfold FitsI64
    omega
  have hcuts := isChain_cuts turn.startMs hchain
  unfold keptCuts
  rw [hkept, hexact]
  obtain ⟨dropped, happend⟩ :=
    List.rdropWhile_prefix (fun c => decide (i64 (turn.endMs - c) < minPiece))
      (kept.map fun v : ℕ => turn.startMs + v * silenceFrameMs)
  rw [← happend, ← List.cons_append, List.isChain_append] at hcuts
  exact hcuts.1

/-! ## All turns -/

/-- The pieces of a turn: they follow each other from its start to its end, and where there
are several, none is a sliver. -/
structure Split (minPiece : ℤ) (turn : ScribeLocal.SpeakerTurn) (ps : List (ℤ × ℤ)) : Prop where
  tiles : turn.startMs < turn.endMs → Tiles turn.startMs ps turn.endMs
  long : 1 < ps.length → ∀ p ∈ ps, minPiece ≤ p.2 - p.1
  none : 0 ≤ turn.startMs → turn.endMs ≤ turn.startMs → ps = []

theorem pieces_whole (turn : ScribeLocal.SpeakerTurn) :
    Split minPiece turn (stretches turn.startMs [] turn.endMs) where
  tiles h := tiles_stretches (by simpa using h.le)
  long h := by
    unfold stretches at h
    split at h <;> simp at h
  none _ h := if_neg h.not_gt

theorem pieces_cut (hpos : 0 ≤ minPiece) (turn : ScribeLocal.SpeakerTurn)
    (hstart : FitsI64 turn.startMs) (hend : FitsI64 turn.endMs)
    (hlt : turn.startMs < turn.endMs) {mids : List ℕ} (hsorted : mids.Pairwise (· ≤ ·))
    (hmids : ∀ m ∈ mids, m * silenceFrameMs < 2 ^ 63) :
    Split minPiece turn (stretches turn.startMs
      (keptCuts minPiece turn (mids.map (cutAt turn.startMs))) turn.endMs) := by
  rcases isChain_keptCuts turn hpos hstart hend hlt hsorted hmids with hnil | hchain
  · rw [hnil]
    exact pieces_whole turn
  · have htiles := tiles_stretches (hchain.imp fun a b h => by omega)
    rw [List.isChain_append] at hchain
    refine ⟨fun _ => htiles, fun _ p hp => ?_, fun _ hle => absurd hlt hle.not_gt⟩
    apply le_of_mem_stretches hpos hchain.1 _ hp
    exact fun a ha _ => hchain.2.2 a ha turn.endMs rfl

/-- A turn that starts before the recording and ends no later. -/
theorem pieces_before (hpos : 0 ≤ minPiece) (turn : ScribeLocal.SpeakerTurn)
    (hstart : FitsI64 turn.startMs) (hneg : turn.startMs < 0) (hle : turn.endMs ≤ turn.startMs)
    {mids : List ℕ} (hsorted : mids.Pairwise (· ≤ ·))
    (hmids : ∀ m ∈ mids, m * silenceFrameMs < 2 ^ 63) :
    Split minPiece turn (stretches turn.startMs
      (keptCuts minPiece turn (mids.map (cutAt turn.startMs))) turn.endMs) := by
  have hchain : (turn.startMs :: keptCuts minPiece turn
      (mids.map (cutAt turn.startMs))).IsChain fun a b => minPiece ≤ b - a :=
    isChain_keptCuts_of_neg turn hstart hneg hsorted hmids
  refine ⟨fun hlt => absurd hlt hle.not_gt, fun _ p hp => ?_, fun h => absurd hneg h.not_gt⟩
  apply le_of_mem_stretches hpos hchain _ hp
  intro a ha hlt
  have hsorted : (turn.startMs :: keptCuts minPiece turn
      (mids.map (cutAt turn.startMs))).Pairwise (· ≤ ·) :=
    List.isChain_iff_pairwise.mp (hchain.imp fun _ _ h => by omega)
  have hfirst : turn.startMs ≤ a := by
    rcases List.mem_cons.mp (List.mem_of_getLast? ha) with rfl | hmem
    · exact le_rfl
    · exact (List.pairwise_cons.mp hsorted).1 a hmem
  omega

/-- The times of the turn are `i64`. -/
def Timed (turn : ScribeLocal.SpeakerTurn) : Prop :=
  FitsI64 turn.startMs ∧ FitsI64 turn.endMs

instance (turn : ScribeLocal.SpeakerTurn) : Decidable (Timed turn) :=
  inferInstanceAs (Decidable (_ ∧ _))

/-- A turn of fewer than two frames is not listened to. -/
def Listened (samples : Samples) (sampleRate : UInt32) (turn : ScribeLocal.SpeakerTurn) : Prop :=
  let (start, stop) := turnSamples samples sampleRate turn
  ¬(stop ≤ start ∨ stop - start < silenceFrame sampleRate * 2)

instance : Decidable (Listened samples sampleRate turn) := inferInstanceAs (Decidable (¬_))

/-- The frames of a turn, and whether each is quiet. -/
def turnFrames (env : SplitEnv) (samples : Samples) (sampleRate : UInt32)
    (turn : ScribeLocal.SpeakerTurn) : List Bool :=
  let (start, stop) := turnSamples samples sampleRate turn
  quietFrames env (samples.extract start stop) (silenceFrame sampleRate)

def turnCuts (env : SplitEnv) (samples : Samples) (sampleRate : UInt32)
    (turn : ScribeLocal.SpeakerTurn) : List ℤ :=
  if Listened samples sampleRate turn then
    keptCuts (minPieceMs env) turn
      (findCuts turn.startMs (minRun env) (turnFrames env samples sampleRate turn))
  else []

def turnPieces (env : SplitEnv) (samples : Samples) (sampleRate : UInt32)
    (turn : ScribeLocal.SpeakerTurn) : List (ℤ × ℤ) :=
  stretches turn.startMs (turnCuts env samples sampleRate turn) turn.endMs

theorem length_turnFrames_le (env : SplitEnv) (samples : Samples) (sampleRate : UInt32)
    (turn : ScribeLocal.SpeakerTurn) :
    (turnFrames env samples sampleRate turn).length ≤ samples.length := by
  unfold turnFrames
  dsimp only
  generalize hclip : samples.extract _ _ = clip
  have hclip : clip.length ≤ samples.length := by
    rw [← hclip, List.extract_eq_take_drop]
    simp
  exact (length_quietFrames_le env clip _).trans hclip

/-- The middles of the runs of a turn, each of which is counted in an `i64`. -/
theorem exists_turn_middles (env : SplitEnv) (hlen : samples.length ≤ 2 ^ 58)
    (sampleRate : UInt32) (turn : ScribeLocal.SpeakerTurn) : ∃ mids : List ℕ,
    findCuts turn.startMs (minRun env) (turnFrames env samples sampleRate turn) =
        mids.map (cutAt turn.startMs) ∧
      mids.Pairwise (· ≤ ·) ∧ ∀ m ∈ mids, m * silenceFrameMs < 2 ^ 63 := by
  obtain ⟨mids, hcuts, hsorted, hbound⟩ :=
    exists_middles turn.startMs (minRun env) (turnFrames env samples sampleRate turn)
  refine ⟨mids, hcuts, hsorted, fun m hm => ?_⟩
  have hf : silenceFrameMs = 20 := rfl
  have hm := hbound m hm
  have hframes := length_turnFrames_le env samples sampleRate turn
  rw [hf]
  omega

/-- One turn adds its pieces and numbers them on. -/
theorem turn_eq (env : SplitEnv) (samples : Samples) (sampleRate : UInt32) (s : Emitter)
    (turn : ScribeLocal.SpeakerTurn) : s.turn env samples sampleRate turn =
      ⟨s.out ++ number s.nextIdx (turnPieces env samples sampleRate turn),
        s.nextIdx + (turnPieces env samples sampleRate turn).length⟩ := by
  unfold turnPieces turnCuts
  by_cases h : Listened samples sampleRate turn
  · rw [if_pos h, ← pieces_eq]
    exact if_neg h
  · rw [if_neg h, ← emit_eq]
    exact if_pos (not_not.mp h)

/-- The pieces of one turn. -/
theorem split_turnPieces (hpos : 0 ≤ minPieceMs env) (hlen : samples.length ≤ 2 ^ 58)
    (sampleRate : UInt32) (htimed : Timed turn) :
    Split (minPieceMs env) turn (turnPieces env samples sampleRate turn) := by
  unfold turnPieces turnCuts
  by_cases hheard : Listened samples sampleRate turn
  · rw [if_pos hheard]
    obtain ⟨mids, hcuts, hsorted, hmids⟩ := exists_turn_middles env hlen sampleRate turn
    rw [hcuts]
    by_cases hlt : turn.startMs < turn.endMs
    · exact pieces_cut hpos turn htimed.1 htimed.2 hlt hsorted hmids
    · -- a turn that starts in the recording and ends no later has no samples
      have hneg : turn.startMs < 0 := by
        by_contra hnonneg
        unfold Listened turnSamples at hheard
        dsimp only at hheard
        rw [max_eq_left (not_lt.mp hnonneg), max_eq_right (not_lt.mp hlt), not_or, not_le]
          at hheard
        exact absurd hheard.1 (min_le_left _ _).not_gt
      exact pieces_before hpos turn htimed.1 hneg (not_lt.mp hlt) hsorted hmids
  · rw [if_neg hheard]
    exact pieces_whole turn

theorem number_append (i : ℤ) (ps qs : List (ℤ × ℤ)) :
    number i (ps ++ qs) = number i ps ++ number (i + ps.length) qs := by
  induction ps generalizing i with
  | nil => simp [number]
  | cons p ps ih =>
    rw [List.cons_append, number, ih, number, List.cons_append, List.length_cons]
    congr 3
    push_cast
    ring

theorem foldl_turn (env : SplitEnv) (turns : List ScribeLocal.SpeakerTurn) (samples : Samples)
    (sampleRate : UInt32) (s : Emitter) : turns.foldl (Emitter.turn env samples sampleRate) s =
      ⟨s.out ++ number s.nextIdx (turns.flatMap (turnPieces env samples sampleRate)),
        s.nextIdx + (turns.flatMap (turnPieces env samples sampleRate)).length⟩ := by
  induction turns generalizing s with
  | nil => simp [number]
  | cons turn turns ih =>
    rw [List.foldl_cons, turn_eq, ih, List.flatMap_cons, number_append, List.append_assoc,
      List.length_append, Nat.cast_add, add_assoc]

theorem splitTurnsAtSilence_eq (env : SplitEnv) (turns : List ScribeLocal.SpeakerTurn)
    (samples : Samples) (sampleRate : UInt32) :
    splitTurnsAtSilence env turns samples sampleRate =
      number 0 (turns.flatMap (turnPieces env samples sampleRate)) := by
  rw [splitTurnsAtSilence, foldl_turn]
  rfl

theorem map_number (i : ℤ) (ps : List (ℤ × ℤ)) :
    (number i ps).map (fun t => (t.startMs, t.endMs)) = ps := by
  induction ps generalizing i with
  | nil => rfl
  | cons p ps ih => rw [number, List.map_cons, ih]

theorem localIdx_number (i : ℤ) (ps : List (ℤ × ℤ)) :
    (number i ps).map ScribeLocal.SpeakerTurn.localIdx =
      (List.range ps.length).map fun n => i + ↑n := by
  induction ps generalizing i with
  | nil => rfl
  | cons p ps ih =>
    rw [number, List.map_cons, ih, List.length_cons, List.range_succ_eq_map, List.map_cons,
      List.map_map, Nat.cast_zero, add_zero]
    congr 2
    funext n
    simp only [Function.comp_apply, Nat.cast_succ]
    ring

/-- Two seconds at 1 kHz, quiet in the middle. -/
def paused : Samples :=
  List.replicate 800 0.5 ++ List.replicate 400 0 ++ List.replicate 800 0.5

theorem length_paused : paused.length = 2000 := by
  unfold paused
  rw [List.length_append, List.length_append, List.length_replicate, List.length_replicate]

/-- The quiet frames from `first` to before `stop`, with none before them. -/
structure OpenRun (quiet : ℕ → Bool) (first stop : ℕ) : Prop where
  lt : first < stop
  within : ∀ i, first ≤ i → i < stop → quiet i = true
  before : ∀ i, i + 1 = first → quiet i = false

/-- And with none behind them. -/
structure QuietRun (quiet : ℕ → Bool) (first stop : ℕ) : Prop extends
    OpenRun quiet first stop where
  after : quiet stop = false

theorem OpenRun.eq {quiet : ℕ → Bool} {first first' stop : ℕ} (h : OpenRun quiet first stop)
    (h' : OpenRun quiet first' stop) : first = first' := by
  wlog hlt : first < first' generalizing first first'
  · rcases (not_lt.mp hlt).eq_or_lt with heq | hgt
    · exact heq.symm
    · exact (this h' h hgt).symm
  have hbefore := h'.before (first' - 1) (by omega)
  have hstop := h'.lt
  rw [h.within (first' - 1) (by omega) (by omega)] at hbefore
  cases hbefore

theorem OpenRun.single {quiet : ℕ → Bool} {n : ℕ} (h : quiet n = true)
    (hbefore : ∀ i, i + 1 = n → quiet i = false) : OpenRun quiet n (n + 1) := by
  refine ⟨n.lt_succ_self, fun i hle hlt => ?_, hbefore⟩
  obtain rfl : i = n := by omega
  exact h

theorem OpenRun.succ {quiet : ℕ → Bool} {first n : ℕ} (h : OpenRun quiet first n)
    (hn : quiet n = true) : OpenRun quiet first (n + 1) := by
  refine ⟨h.lt.trans n.lt_succ_self, fun i hle hi => ?_, h.before⟩
  rcases (Nat.lt_succ_iff.mp hi).eq_or_lt with rfl | hi
  · exact hn
  · exact h.within i hle hi

theorem OpenRun.last {quiet : ℕ → Bool} {first stop : ℕ} (h : OpenRun quiet first stop) :
    ∃ i, i + 1 = stop ∧ quiet i = true := by
  have hlt := h.lt
  exact ⟨stop - 1, by omega, h.within (stop - 1) (by omega) (by omega)⟩

/-- The last frame of a run is a frame. -/
theorem OpenRun.le_length {quiet : List Bool} {first stop : ℕ}
    (h : OpenRun (fun i => quiet.getD i false) first stop) : stop ≤ quiet.length := by
  obtain ⟨i, rfl, hlast⟩ := h.last
  by_contra hge
  rw [List.getD_eq_getElem?_getD, List.getElem?_eq_none (by omega)] at hlast
  cases hlast

/-- The middle of a run that is long enough. -/
def IsPause (minRun : ℕ) (quiet : ℕ → Bool) (mid : ℕ) : Prop :=
  ∃ first stop, QuietRun quiet first stop ∧ minRun ≤ stop - first ∧
    mid = first + (stop - first) / 2

/-- What the loop knows after `n` frames. -/
structure Runs.Scanned (startMs : ℤ) (minRun : ℕ) (quiet : ℕ → Bool) (n : ℕ) (s : Runs) :
    Prop where
  cutMs : ∀ cut, cut ∈ s.cutMs ↔ ∃ first stop, QuietRun quiet first stop ∧ stop < n ∧
    minRun ≤ stop - first ∧ cut = cutAt startMs (first + (stop - first) / 2)
  runStart : s.runStart.elim (∀ i, i + 1 = n → quiet i = false) fun first => OpenRun quiet first n

/-- A run that has ended by now ended before this frame or ends at it. -/
theorem exists_ended_succ {quiet : ℕ → Bool} {n : ℕ} {P : ℕ → ℕ → Prop} :
    (∃ first stop, QuietRun quiet first stop ∧ stop < n + 1 ∧ P first stop) ↔
      (∃ first stop, QuietRun quiet first stop ∧ stop < n ∧ P first stop) ∨
        ∃ first, QuietRun quiet first n ∧ P first n := by
  constructor
  · rintro ⟨first, stop, hrun, hlt, hP⟩
    rcases (Nat.lt_succ_iff.mp hlt).eq_or_lt with rfl | hlt
    · exact .inr ⟨first, hrun, hP⟩
    · exact .inl ⟨first, stop, hrun, hlt, hP⟩
  · rintro (⟨first, stop, hrun, hlt, hP⟩ | ⟨first, hrun, hP⟩)
    · exact ⟨first, stop, hrun, by omega, hP⟩
    · exact ⟨first, n, hrun, n.lt_succ_self, hP⟩

/-- Where no run ends at this frame, the ones that have ended are those before. -/
theorem Runs.Scanned.kept {startMs : ℤ} {minRun : ℕ} {quiet : ℕ → Bool} {n : ℕ} {s : Runs}
    (h : s.Scanned startMs minRun quiet n)
    (hends : ∀ first, QuietRun quiet first n → ¬minRun ≤ n - first) (cut : ℤ) :
    cut ∈ s.cutMs ↔ ∃ first stop, QuietRun quiet first stop ∧ stop < n + 1 ∧
      minRun ≤ stop - first ∧ cut = cutAt startMs (first + (stop - first) / 2) := by
  rw [exists_ended_succ, h.cutMs]
  refine (or_iff_left ?_).symm
  rintro ⟨first, hrun, hlong, -⟩
  exact hends first hrun hlong

theorem Runs.Scanned.frame {startMs : ℤ} {minRun : ℕ} {quiet : ℕ → Bool} {n : ℕ} {s : Runs}
    (h : s.Scanned startMs minRun quiet n) :
    (s.frame startMs minRun (quiet n, n)).Scanned startMs minRun quiet (n + 1) := by
  have hkept := h.kept
  obtain ⟨hcut, hrun⟩ := h
  rcases s with ⟨cutMs, runStart⟩
  unfold Runs.frame
  cases hquiet : quiet n with
  | true =>
    have hends (first : ℕ) (h : QuietRun quiet first n) : ¬minRun ≤ n - first := by
      have hafter := h.after
      rw [hquiet] at hafter
      cases hafter
    cases runStart with
    | none => exact ⟨hkept hends, .single hquiet hrun⟩
    | some first => exact ⟨hkept hends, OpenRun.succ hrun hquiet⟩
  | false =>
    have hnone : ∀ i, i + 1 = n + 1 → quiet i = false := by
      intro i hi
      obtain rfl : i = n := by omega
      exact hquiet
    cases runStart with
    | none =>
      refine ⟨hkept fun first h => ?_, hnone⟩
      obtain ⟨i, hi, hlast⟩ := h.last
      rw [hrun i hi] at hlast
      cases hlast
    | some first =>
      have hclosed : QuietRun quiet first n := ⟨hrun, hquiet⟩
      dsimp only
      split
      · rename_i hlong
        refine ⟨fun cut => ?_, hnone⟩
        rw [exists_ended_succ, List.mem_append, List.mem_singleton, hcut]
        apply or_congr_right
        constructor
        · rintro rfl
          exact ⟨first, hclosed, hlong, rfl⟩
        · rintro ⟨first', hrun', -, hat⟩
          obtain rfl := hrun'.toOpenRun.eq hrun
          exact hat
      · rename_i hshort
        refine ⟨hkept fun first' h => ?_, hnone⟩
        rw [h.toOpenRun.eq hrun]
        exact hshort

/-- The cuts are the middles of the long enough runs. -/
theorem mem_findCuts {startMs : ℤ} {minRun : ℕ} {quiet : List Bool} {cut : ℤ} :
    cut ∈ findCuts startMs minRun quiet ↔
      ∃ mid, IsPause minRun (fun i => quiet.getD i false) mid ∧ cut = cutAt startMs mid := by
  have hframes : (quiet ++ [false]).zipIdx =
      (List.range (quiet.length + 1)).map fun i => (quiet.getD i false, i) := by
    apply List.ext_getElem
    · simp
    · intro i hi _
      rw [List.getElem_zipIdx, List.getElem_map, List.getElem_range, zero_add,
        List.getD_eq_getElem?_getD]
      congr 1
      by_cases hlt : i < quiet.length
      · simp [List.getElem_append_left, hlt]
      · rw [List.getElem_append_right (not_lt.mp hlt)]
        simp [not_lt.mp hlt]
  have hscan (n : ℕ) : (((List.range n).map fun i => (quiet.getD i false, i)).foldl
      (Runs.frame startMs minRun) ⟨[], none⟩).Scanned startMs minRun
        (fun i => quiet.getD i false) n := by
    induction n with
    | zero => exact ⟨by simp, nofun⟩
    | succ n ih =>
      rw [List.range_succ, List.map_append, List.foldl_append]
      exact ih.frame
  unfold findCuts
  rw [hframes, (hscan _).cutMs]
  constructor
  · rintro ⟨first, stop, hrun, -, hlong, hat⟩
    exact ⟨_, ⟨first, stop, hrun, hlong, rfl⟩, hat⟩
  · rintro ⟨_, ⟨first, stop, hrun, hlong, rfl⟩, hat⟩
    exact ⟨first, stop, hrun, Nat.lt_succ_of_le hrun.toOpenRun.le_length, hlong, hat⟩

/-- A cut that is kept lies at a cut or less than a piece before it. -/
def Near (minPiece cut b : ℤ) : Prop := b ≤ cut ∧ (b = cut ∨ cut - b < minPiece)

/-- The forward pass keeps a cut or one that lies less than a piece before it. -/
theorem exists_near_forward {start : ℤ} (minPiece : ℤ) {cutMs : List ℤ} (s : Keeping)
    (hsorted : (s.last :: cutMs).Pairwise (· ≤ ·))
    (hcuts : ∀ c ∈ s.last :: cutMs, 0 ≤ c ∧ c < 2 ^ 63) (hlast : s.last ∈ start :: s.kept) :
    s.kept ⊆ (cutMs.foldl (Keeping.cut minPiece) s).kept ∧
      ∀ cut ∈ cutMs, ∃ b ∈ start :: (cutMs.foldl (Keeping.cut minPiece) s).kept,
        Near minPiece cut b := by
  induction cutMs generalizing s with
  | nil => exact ⟨List.Subset.refl _, nofun⟩
  | cons c cutMs ih =>
    rw [List.foldl_cons]
    unfold Keeping.cut
    obtain ⟨hle, htail⟩ := List.pairwise_cons.mp hsorted
    have hc := hcuts c (by simp)
    have hfits : FitsI64 (c - s.last) := by
      have hfirst := hcuts s.last List.mem_cons_self
      unfold FitsI64
      omega
    rw [hfits.i64_eq]
    by_cases hfar : minPiece ≤ c - s.last
    · rw [if_pos hfar]
      obtain ⟨hkept, hnear⟩ := ih ⟨s.kept ++ [c], c⟩ htail
        (fun v hv => hcuts v (List.mem_cons_of_mem _ hv)) (by simp)
      have hmem : c ∈ (cutMs.foldl (Keeping.cut minPiece) ⟨s.kept ++ [c], c⟩).kept :=
        hkept (by simp)
      refine ⟨fun v hv => hkept (List.mem_append_left _ hv), fun cut hcut => ?_⟩
      rcases List.mem_cons.mp hcut with rfl | hrest
      · exact ⟨cut, List.mem_cons_of_mem _ hmem, le_rfl, .inl rfl⟩
      · exact hnear cut hrest
    · rw [if_neg hfar]
      obtain ⟨hkept, hnear⟩ := ih s
        (htail.tail.cons fun v hv => hle v (List.mem_cons_of_mem _ hv))
        (fun v hv => hcuts v (by
          rcases List.mem_cons.mp hv with rfl | hv
          · exact List.mem_cons_self
          · simp [hv])) hlast
      refine ⟨hkept, fun cut hcut => ?_⟩
      rcases List.mem_cons.mp hcut with rfl | hrest
      · refine ⟨s.last, ?_, hle cut List.mem_cons_self, .inr (not_le.mp hfar)⟩
        rcases List.mem_cons.mp hlast with hstart | hold
        · rw [hstart]
          exact List.mem_cons_self
        · exact List.mem_cons_of_mem _ (hkept hold)
      · exact hnear cut hrest

theorem mem_of_mem_forward {minPiece : ℤ} {cutMs : List ℤ} {s : Keeping} {cut : ℤ}
    (h : cut ∈ (cutMs.foldl (Keeping.cut minPiece) s).kept) : cut ∈ s.kept ∨ cut ∈ cutMs := by
  induction cutMs generalizing s with
  | nil => exact .inl h
  | cons c cutMs ih =>
    rw [List.foldl_cons] at h
    rcases ih h with hkept | hrest
    · unfold Keeping.cut at hkept
      split at hkept
      · rcases List.mem_append.mp hkept with hold | hnew
        · exact .inl hold
        · rw [List.mem_singleton.mp hnew]
          exact .inr List.mem_cons_self
      · exact .inl hkept
    · exact .inr (List.mem_cons_of_mem _ hrest)

theorem keptCuts_subset {minPiece : ℤ} {turn : ScribeLocal.SpeakerTurn} {cutMs : List ℤ} :
    keptCuts minPiece turn cutMs ⊆ cutMs := fun _ h =>
  (mem_of_mem_forward ((List.rdropWhile_prefix _ _).subset h)).resolve_left List.not_mem_nil

/-- A cut that is left out would leave a sliver before it or behind it. -/
theorem exists_near_keptCuts {minPiece : ℤ} {turn : ScribeLocal.SpeakerTurn} {cutMs : List ℤ}
    (hend : 0 ≤ turn.endMs ∧ turn.endMs < 2 ^ 63)
    (hsorted : (turn.startMs :: cutMs).Pairwise (· ≤ ·))
    (hcuts : ∀ c ∈ turn.startMs :: cutMs, 0 ≤ c ∧ c < 2 ^ 63) {cut : ℤ} (hcut : cut ∈ cutMs) :
    (∃ b ∈ turn.startMs :: keptCuts minPiece turn cutMs, Near minPiece cut b) ∨
      turn.endMs - cut < minPiece := by
  obtain ⟨-, hnear⟩ := exists_near_forward minPiece ⟨[], turn.startMs⟩ hsorted hcuts
    List.mem_cons_self
  obtain ⟨b, hb, hle, hnear⟩ := hnear cut hcut
  unfold keptCuts
  generalize hforward : (cutMs.foldl (Keeping.cut minPiece) ⟨[], turn.startMs⟩).kept = kept at hb
  rcases List.mem_cons.mp hb with rfl | hkept
  · exact .inl ⟨turn.startMs, List.mem_cons_self, hle, hnear⟩
  · have hmem : b ∈ cutMs := by
      rw [← hforward] at hkept
      exact (mem_of_mem_forward hkept).resolve_left List.not_mem_nil
    rw [← List.rdropWhile_append_rtakeWhile (l := kept)
      (p := fun c => decide (i64 (turn.endMs - c) < minPiece)), List.mem_append] at hkept
    rcases hkept with hstays | hpopped
    · exact .inl ⟨b, List.mem_cons_of_mem _ hstays, hle, hnear⟩
    · -- what follows a cut that is popped is a sliver
      have hsliver : i64 (turn.endMs - b) < minPiece :=
        of_decide_eq_true (List.mem_rtakeWhile_imp hpopped :)
      have hb := hcuts b (List.mem_cons_of_mem _ hmem)
      rw [FitsI64.i64_eq] at hsliver
      · exact .inr (by omega)
      · unfold FitsI64
        omega

/-- Each cut is where a stretch starts. -/
theorem exists_stretch_of_mem {start stop cut : ℤ} {cuts : List ℤ}
    (h : (start :: cuts ++ [stop]).IsChain (· ≤ ·)) (hcut : cut ∈ cuts) :
    cut = start ∨ ∃ p ∈ stretches start cuts stop, p.2 = cut := by
  induction cuts generalizing start with
  | nil => cases hcut
  | cons c cuts ih =>
    rw [List.cons_append, List.cons_append, List.isChain_cons_cons] at h
    unfold stretches
    by_cases hlt : start < c
    · rw [if_pos hlt]
      have hfirst : ∃ p ∈ (start, c) :: stretches c cuts stop, p.2 = c :=
        ⟨_, List.mem_cons_self, rfl⟩
      rcases List.mem_cons.mp hcut with rfl | hrest
      · exact .inr hfirst
      · rcases ih h.2 hrest with rfl | ⟨p, hp, heq⟩
        · exact .inr hfirst
        · exact .inr ⟨p, List.mem_cons_of_mem _ hp, heq⟩
    · obtain rfl : start = c := le_antisymm h.1 (not_lt.mp hlt)
      rw [if_neg hlt]
      rcases List.mem_cons.mp hcut with rfl | hrest
      · exact .inl rfl
      · exact ih h.2 hrest

/-- Each stretch ends at a cut or at the end. -/
theorem mem_or_eq_of_stretch {start stop : ℤ} {cuts : List ℤ} {p : ℤ × ℤ}
    (hp : p ∈ stretches start cuts stop) : p.2 ∈ cuts ∨ p.2 = stop := by
  induction cuts generalizing start with
  | nil =>
    unfold stretches at hp
    split at hp
    · exact .inr (by rw [List.mem_singleton.mp hp])
    · cases hp
  | cons c cuts ih =>
    unfold stretches at hp
    split at hp
    · rcases List.mem_cons.mp hp with rfl | hrest
      · exact .inl List.mem_cons_self
      · exact (ih hrest).imp_left (List.mem_cons_of_mem _)
    · exact (ih hp).imp_left (List.mem_cons_of_mem _)

/-- The middle of a long enough run of the quiet frames of a turn. -/
def Pause (env : SplitEnv) (samples : Samples) (sampleRate : UInt32)
    (turn : ScribeLocal.SpeakerTurn) (cut : ℤ) : Prop :=
  Listened samples sampleRate turn ∧
    ∃ mid, IsPause (minRun env) (fun i => (turnFrames env samples sampleRate turn).getD i false)
      mid ∧ cut = turn.startMs + mid * silenceFrameMs

/-- A turn is cut at pauses only, and at all but those that would leave a sliver. -/
structure CutAtPauses (env : SplitEnv) (samples : Samples) (sampleRate : UInt32)
    (turn : ScribeLocal.SpeakerTurn) (ps : List (ℤ × ℤ)) : Prop where
  only : ∀ p ∈ ps, p.2 = turn.endMs ∨ Pause env samples sampleRate turn p.2
  all : ∀ cut, Pause env samples sampleRate turn cut →
    (∃ b, (b = turn.startMs ∨ ∃ p ∈ ps, p.2 = b) ∧ Near (minPieceMs env) cut b) ∨
      turn.endMs - cut < minPieceMs env

theorem cutAt_zero {m : ℕ} (hm : m * silenceFrameMs < 2 ^ 63) : cutAt 0 m = m * silenceFrameMs := by
  have hf : silenceFrameMs = 20 := rfl
  rw [cutAt_eq hm, zero_add, FitsI64.i64_eq]
  rw [hf] at hm ⊢
  unfold FitsI64
  omega

theorem pause_iff (hlen : samples.length ≤ 2 ^ 58) (sampleRate : UInt32)
    (hstart : turn.startMs = 0) {cut : ℤ} : Pause env samples sampleRate turn cut ↔
      Listened samples sampleRate turn ∧
        cut ∈ findCuts turn.startMs (minRun env) (turnFrames env samples sampleRate turn) := by
  rw [mem_findCuts, Pause]
  refine and_congr_right fun _ => exists_congr fun mid => and_congr_right fun hmid => ?_
  obtain ⟨first, stop, hrun, -, rfl⟩ := hmid
  have hf : silenceFrameMs = 20 := rfl
  have hlt := hrun.lt
  have hle := hrun.toOpenRun.le_length.trans (length_turnFrames_le env samples sampleRate turn)
  rw [hstart, cutAt_zero, zero_add]
  rw [hf]
  omega

theorem cutAtPauses_turnPieces (hpos : 0 ≤ minPieceMs env) (hlen : samples.length ≤ 2 ^ 58)
    (sampleRate : UInt32) (hstart : turn.startMs = 0) (hlt : turn.startMs < turn.endMs)
    (hend : turn.endMs < 2 ^ 63) :
    CutAtPauses env samples sampleRate turn (turnPieces env samples sampleRate turn) := by
  have hf : silenceFrameMs = 20 := rfl
  obtain ⟨mids, hcuts, hsorted, hmids⟩ := exists_turn_middles env hlen sampleRate turn
  unfold turnPieces turnCuts
  by_cases hheard : Listened samples sampleRate turn
  · rw [if_pos hheard]
    constructor
    · intro p hp
      rcases mem_or_eq_of_stretch hp with hcut | hend
      · exact .inr ((pause_iff hlen sampleRate hstart).mpr ⟨hheard, keptCuts_subset hcut⟩)
      · exact .inl hend
    · intro cut hpause
      have hcut := ((pause_iff hlen sampleRate hstart).mp hpause).2
      rw [hcuts] at hcut ⊢
      have hfits : ∀ c ∈ turn.startMs :: mids.map (cutAt turn.startMs), 0 ≤ c ∧ c < 2 ^ 63 := by
        intro c hc
        rcases List.mem_cons.mp hc with rfl | hc
        · omega
        · obtain ⟨m, hm, rfl⟩ := List.mem_map.mp hc
          have hoff := hmids m hm
          rw [hstart, cutAt_zero hoff]
          rw [hf] at hoff ⊢
          omega
      have hascending : (turn.startMs :: mids.map (cutAt turn.startMs)).Pairwise (· ≤ ·) := by
        refine List.pairwise_cons.mpr ⟨fun c hc => ?_, ?_⟩
        · rw [hstart]
          exact (hfits c (List.mem_cons_of_mem _ hc)).1
        · refine List.pairwise_map.mpr (hsorted.imp_of_mem fun {a b} ha hb hab => ?_)
          rw [hstart, cutAt_zero (hmids a ha), cutAt_zero (hmids b hb), hf]
          omega
      refine (exists_near_keptCuts ⟨by omega, hend⟩ hascending hfits hcut).imp_left ?_
      rintro ⟨b, hb, hnear⟩
      refine ⟨b, ?_, hnear⟩
      rcases List.mem_cons.mp hb with hfirst | hkept
      · exact .inl hfirst
      · apply exists_stretch_of_mem _ hkept
        rcases isChain_keptCuts turn hpos (by unfold FitsI64; omega) (by unfold FitsI64; omega) hlt
          hsorted hmids with hnil | hchain
        · rw [hnil] at hkept
          cases hkept
        · exact hchain.imp fun a b h => by omega
  · rw [if_neg hheard]
    refine ⟨fun p hp => ?_, fun cut hpause => absurd hpause.1 hheard⟩
    exact .inl ((mem_or_eq_of_stretch hp).resolve_left List.not_mem_nil)

example : findCuts 100 2 [true, false, true, true, true, false] = [160] := by decide

end ScribeLocal.Asr
