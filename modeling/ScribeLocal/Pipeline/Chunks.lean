import ScribeLocal.Pipeline.Merge

/-!
# Retrieval chunks

The embed stage makes one chunk of a short turn and slides a window over a long one. What
the windows of a turn hold between them, and which turns the merge stage makes long enough
to need them.
-/
namespace ScribeLocal.Pipeline
open Embed MachineInt Server

/-- `embed::run`: the tables it leaves and what it returns. -/
def embed {ε V : Type*} (embedder : List String → Except ε (List V)) (r : Uuid) (c : Content) :
    Content × Except (ε ⊕ PipelineError) Unit :=
  let deleted (c : Content) : Content :=
    { c with chunks := Table.deleteWhere (fun k => k.recordingId == r) c.chunks }
  let pending := buildChunks (c.listUtterances r)
  if pending.isEmpty then (deleted c, .ok ())
  else
    match embedder (pending.map NewChunk.text) with
    | .error e => (c, .error (.inl e))
    | .ok vectors =>
      if vectors.length ≠ pending.length then
        (c, .error (.inr ⟨"embed", "embedder returned " ++ toString vectors.length ++
          " vectors for " ++ toString pending.length ++ " chunks"⟩))
      else
        let new := pending.map fun k => { k with recordingId := r }
        ({ deleted c with chunks := (deleted c).chunks ++ new }, .ok ())

/-! ## The windows of one turn -/

variable {u : Utterance} {winStart : ℤ} {k : NewChunk} {w : Word} {ws : List Word} {n : ℕ}

/-- How far one window starts behind the one before it. -/
def windowStep : ℤ := windowMs - windowOverlapMs

/-- How many windows there are where `len` is left of the turn. -/
def windowCount (len : ℤ) : ℕ :=
  if len ≤ 0 then 0 else (max 1 ((len - windowOverlapMs + (windowStep - 1)) / windowStep)).toNat

/-- The words that a window captures. -/
def captured (u : Utterance) (winStart winEnd : ℤ) : List Word :=
  u.words.filter fun w => decide (winStart < w.endMs ∧ w.startMs < winEnd)

theorem windowsFrom_of_le (h : u.endMs ≤ winStart) : windowsFrom u winStart = [] := by
  rw [windowsFrom, if_neg (not_lt.mpr h)]

/-- The last window. -/
theorem windowsFrom_last (h : winStart < u.endMs) (hend : u.endMs ≤ winStart + windowMs) :
    windowsFrom u winStart = windowChunk u winStart u.endMs := by
  rw [windowsFrom, if_pos h]
  dsimp only
  rw [min_eq_right hend, if_pos le_rfl, List.append_nil]

/-- A window that is not the last. -/
theorem windowsFrom_next (h : winStart + windowMs < u.endMs) :
    windowsFrom u winStart =
      windowChunk u winStart (winStart + windowMs) ++ windowsFrom u (winStart + windowStep) := by
  have hstart : winStart < u.endMs := by
    have : windowMs = 45000 := rfl
    omega
  rw [windowsFrom, if_pos hstart]
  dsimp only
  rw [min_eq_left h.le, if_neg (not_le.mpr h), add_sub_assoc]
  rfl

/-- Window by window: the first that is the last one, or the first and the rest. -/
theorem windows_induction {u : Utterance} {P : ℤ → Prop}
    (hnone : ∀ winStart, u.endMs ≤ winStart → P winStart)
    (hlast : ∀ winStart, winStart < u.endMs → u.endMs ≤ winStart + windowMs → P winStart)
    (hnext : ∀ winStart, winStart + windowMs < u.endMs → P (winStart + windowStep) → P winStart)
    (winStart : ℤ) : P winStart := by
  induction hlen : (u.endMs - winStart).toNat using Nat.strong_induction_on generalizing winStart
    with
  | _ len ih =>
    have hw : windowMs = 45000 := rfl
    have hs : windowStep = 40000 := rfl
    by_cases hnil : u.endMs ≤ winStart
    · exact hnone winStart hnil
    · by_cases hend : u.endMs ≤ winStart + windowMs
      · exact hlast winStart (not_le.mp hnil) hend
      · apply hnext winStart (not_le.mp hend)
        exact ih _ (by omega) _ rfl

theorem windowCount_next {len : ℤ} (h : windowMs < len) :
    windowCount len = windowCount (len - windowStep) + 1 := by
  have hw : windowMs = 45000 := rfl
  have hs : windowStep = 40000 := rfl
  have ho : windowOverlapMs = 5000 := rfl
  unfold windowCount
  rw [if_neg (by omega), if_neg (by omega), hs, ho]
  omega

theorem windowCount_last {len : ℤ} (hpos : 0 < len) (h : len ≤ windowMs) : windowCount len = 1 := by
  have hw : windowMs = 45000 := rfl
  have hs : windowStep = 40000 := rfl
  have ho : windowOverlapMs = 5000 := rfl
  unfold windowCount
  rw [if_neg (by omega), hs, ho]
  omega

/-- The windows start at even distances, and each ends after forty-five seconds or with the
turn. -/
theorem windowsFrom_eq (u : Utterance) (winStart : ℤ) : windowsFrom u winStart =
    (List.range (windowCount (u.endMs - winStart))).flatMap fun i : ℕ =>
      windowChunk u (winStart + windowStep * i)
        (min (winStart + windowStep * i + windowMs) u.endMs) := by
  induction winStart using windows_induction (u := u) with
  | hnone winStart h =>
    have hcount : windowCount (u.endMs - winStart) = 0 := if_pos (by omega)
    rw [windowsFrom_of_le h, hcount]
    rfl
  | hlast winStart h hend =>
    rw [windowsFrom_last h hend, windowCount_last (by omega) (by omega), List.range_one]
    simp [hend]
  | hnext winStart h ih =>
    have hcount := windowCount_next (show windowMs < u.endMs - winStart by omega)
    have hlen : u.endMs - winStart - windowStep = u.endMs - (winStart + windowStep) := by ring
    rw [windowsFrom_next h, ih, hcount, hlen, List.range_succ_eq_map, List.flatMap_cons,
      List.flatMap_map]
    congr 1
    · simp [h.le]
    · congr 1
      funext i
      have hmul : winStart + windowStep + windowStep * (i : ℤ) =
          winStart + windowStep * ((i + 1 : ℕ) : ℤ) := by
        push_cast
        ring
      rw [hmul]

/-! ## What the windows hold -/

/-- A chunk that holds the words `ws` of the turn, all that its window meets. -/
structure Excerpt (u : Utterance) (ws : List Word) (k : NewChunk) : Prop where
  words : ∃ winStart ≥ u.startMs,
    ws = captured u winStart (min (winStart + windowMs) u.endMs)
  speaker : k.localIdx = u.localIdx
  text : k.text = " ".intercalate (ws.map Word.text)
  start : ws.head?.map Word.startMs = some k.startMs
  stop : IsGreatest (Word.endMs '' {w | w ∈ ws}) k.endMs

theorem windowChunk_of_captured_eq_nil {winEnd : ℤ} (h : captured u winStart winEnd = []) :
    windowChunk u winStart winEnd = [] := by
  unfold captured at h
  unfold windowChunk
  simp only [h]

theorem windowChunk_of_captured_eq_cons {winEnd : ℤ} (h : captured u winStart winEnd = w :: ws) :
    windowChunk u winStart winEnd = [⟨u.localIdx, w.startMs,
      (((w :: ws).map Word.endMs).max?).getD winEnd,
      " ".intercalate ((w :: ws).map Word.text)⟩] := by
  unfold captured at h
  unfold windowChunk
  simp only [h]

theorem isGreatest_max? (ws : List Word) (h : ws ≠ []) (e : ℤ) :
    IsGreatest (Word.endMs '' {w | w ∈ ws}) (((ws.map Word.endMs).max?).getD e) := by
  obtain ⟨stop, hstop⟩ : ∃ stop, (ws.map Word.endMs).max? = some stop := by
    rw [← Option.isSome_iff_exists, List.isSome_max?_iff]
    simpa using h
  rw [hstop, Option.getD_some]
  obtain ⟨hmem, hupper⟩ := List.max?_eq_some_iff.mp hstop
  refine ⟨List.mem_map.mp hmem, ?_⟩
  rintro _ ⟨w, hw, rfl⟩
  exact hupper _ (List.mem_map_of_mem hw)

theorem excerpt_of_mem {winEnd : ℤ} (hstart : u.startMs ≤ winStart)
    (hend : winEnd = min (winStart + windowMs) u.endMs) (hk : k ∈ windowChunk u winStart winEnd) :
    Excerpt u (captured u winStart winEnd) k := by
  cases hwords : captured u winStart winEnd with
  | nil =>
    rw [windowChunk_of_captured_eq_nil hwords] at hk
    cases hk
  | cons w ws =>
    rw [windowChunk_of_captured_eq_cons hwords] at hk
    obtain rfl := List.mem_singleton.mp hk
    exact
      { words := ⟨winStart, hstart, by rw [← hend, hwords]⟩
        speaker := rfl
        text := rfl
        start := rfl
        stop := isGreatest_max? _ (List.cons_ne_nil w ws) winEnd }

/-- Every word that overlaps the rest of the turn is in a window. -/
theorem exists_window (h : w ∈ u.words) (hle : w.startMs ≤ w.endMs)
    (hbefore : w.startMs < u.endMs) (winStart : ℤ) (hopen : winStart < u.endMs)
    (hafter : winStart < w.endMs) : ∃ i < windowCount (u.endMs - winStart),
      w ∈ captured u (winStart + windowStep * i)
        (min (winStart + windowStep * i + windowMs) u.endMs) := by
  have hs : windowStep = 40000 := rfl
  have hw : windowMs = 45000 := rfl
  -- the first window has the word unless the word starts behind it
  have hfirst (winStart : ℤ) (hcount : 0 < windowCount (u.endMs - winStart))
      (hafter : winStart < w.endMs) (hstart : w.startMs < min (winStart + windowMs) u.endMs) :
      ∃ i < windowCount (u.endMs - winStart), w ∈ captured u (winStart + windowStep * i)
        (min (winStart + windowStep * i + windowMs) u.endMs) := by
    refine ⟨0, hcount, ?_⟩
    simp only [captured, List.mem_filter, Nat.cast_zero, mul_zero, add_zero]
    exact ⟨h, decide_eq_true ⟨hafter, hstart⟩⟩
  induction winStart using windows_induction (u := u) with
  | hnone winStart hend => omega
  | hlast winStart _ hend =>
    apply hfirst _ _ hafter
    · omega
    · rw [windowCount_last (by omega) (by omega)]
      exact Nat.one_pos
  | hnext winStart hlong ih =>
    have hcount := windowCount_next (show windowMs < u.endMs - winStart by omega)
    by_cases hstart : w.startMs < winStart + windowMs
    · apply hfirst _ _ hafter
      · omega
      · omega
    · obtain ⟨i, hi, hmem⟩ := ih (by omega) (by omega)
      have hlen : u.endMs - winStart - windowStep = u.endMs - (winStart + windowStep) := by ring
      have hmul : winStart + windowStep + windowStep * (i : ℤ) =
          winStart + windowStep * ((i + 1 : ℕ) : ℤ) := by
        push_cast
        ring
      rw [hcount, hlen]
      rw [hmul] at hmem
      exact ⟨i + 1, Nat.succ_lt_succ hi, hmem⟩

theorem chunksOf_of_long (htext : trim u.text ≠ "") (hwords : u.words ≠ [])
    (hlong : windowMs < i64 (u.endMs - u.startMs)) : chunksOf u = windowsFrom u u.startMs := by
  unfold chunksOf
  rw [if_neg htext, if_neg (not_or.mpr ⟨hlong.not_ge, hwords⟩)]

/-- A window starts before the turn ends. -/
theorem lt_of_lt_windowCount {len : ℤ} (h : n < windowCount len) : windowStep * n < len := by
  have hw : windowStep = 40000 := rfl
  have ho : windowOverlapMs = 5000 := rfl
  unfold windowCount at h
  rw [hw, ho] at h
  rw [hw]
  split at h <;> omega

/-- The windows of a long turn start forty seconds apart and last forty-five. Each chunk holds the
words its window meets, and a word is in some chunk exactly if it ends after the turn's start and
starts before its end. -/
theorem windows_of_long (u : Utterance) (htext : trim u.text ≠ "") (hwords : u.words ≠ [])
    (hlong : windowMs < u.endMs - u.startMs) (hspan : FitsI64 (u.endMs - u.startMs))
    (hstart : -2 ^ 63 ≤ u.startMs) (hend : u.endMs + windowMs < 2 ^ 63) :
    (chunksOf u =
      (List.range (windowCount (u.endMs - u.startMs))).flatMap fun i : ℕ =>
        windowChunk u (u.startMs + windowStep * i)
          (min (u.startMs + windowStep * i + windowMs) u.endMs)) ∧
    (∀ i : ℕ, i < windowCount (u.endMs - u.startMs) → FitsI64 (u.startMs + windowStep * i + windowMs)) ∧
    (∀ k ∈ chunksOf u, ∃ ws, Excerpt u ws k) ∧
    ∀ w ∈ u.words, w.startMs ≤ w.endMs →
      ((∃ k ∈ chunksOf u, ∃ ws, Excerpt u ws k ∧ w ∈ ws) ↔
        u.startMs < w.endMs ∧ w.startMs < u.endMs) := by
  have hs : windowStep = 40000 := rfl
  have hw : windowMs = 45000 := rfl
  have hexcerpt {k : NewChunk} {i : ℕ} (hk : k ∈ windowChunk u (u.startMs + windowStep * i)
      (min (u.startMs + windowStep * i + windowMs) u.endMs)) :=
    excerpt_of_mem (u := u) (by rw [hs]; omega) rfl hk
  rw [chunksOf_of_long htext hwords (by rwa [hspan.i64_eq])]
  refine ⟨windowsFrom_eq u u.startMs, ?_, ?_, ?_⟩
  · intro i hi
    have hlt := lt_of_lt_windowCount hi
    rw [hs] at hlt ⊢
    unfold FitsI64
    omega
  · intro k hk
    rw [windowsFrom_eq, List.mem_flatMap] at hk
    obtain ⟨i, -, hk⟩ := hk
    exact ⟨_, hexcerpt hk⟩
  · intro w hmem hle
    constructor
    · rintro ⟨k, -, ws, ⟨⟨winStart, hstart, rfl⟩, -⟩, hws⟩
      have hmeets := of_decide_eq_true (List.mem_filter.mp hws).2
      omega
    · rintro ⟨hafter, hbefore⟩
      obtain ⟨i, hi, hcaptured⟩ := exists_window hmem hle hbefore u.startMs (by omega) hafter
      obtain ⟨k, hk⟩ : ∃ k, k ∈ windowChunk u (u.startMs + windowStep * i)
          (min (u.startMs + windowStep * i + windowMs) u.endMs) := by
        cases hwords : captured u (u.startMs + windowStep * i)
            (min (u.startMs + windowStep * i + windowMs) u.endMs) with
        | nil =>
          rw [hwords] at hcaptured
          cases hcaptured
        | cons v ws =>
          rw [windowChunk_of_captured_eq_cons hwords]
          exact ⟨_, List.mem_singleton_self _⟩
      refine ⟨k, ?_, _, hexcerpt hk, hcaptured⟩
      rw [windowsFrom_eq, List.mem_flatMap]
      exact ⟨i, List.mem_range.mpr hi, hk⟩

/-- A turn of one second short of two windows, and one of its words across their boundary. -/
def monologue : Utterance :=
  { id := 1, recordingId := 7, localIdx := some 0, startMs := 0, endMs := 89000, text := "so it is",
    words := [⟨"so", 0, 300, some 0⟩, ⟨"it", 44900, 45200, some 0⟩, ⟨"is", 88000, 89000, some 0⟩] }

theorem windows_of_long_monologue :
    (∀ k ∈ chunksOf monologue, ∃ ws, Excerpt monologue ws k) ∧
      ∃ k ∈ chunksOf monologue, ∃ ws, Excerpt monologue ws k ∧
        ⟨"it", 44900, 45200, some 0⟩ ∈ ws := by
  obtain ⟨-, -, hexcerpt, hword⟩ := windows_of_long monologue (by decide) (by decide) (by decide)
    (by decide) (by decide) (by decide)
  exact ⟨hexcerpt, (hword ⟨"it", 44900, 45200, some 0⟩ (by decide) (by decide)).mpr (by decide)⟩

/-! ## Merged turns -/

/-- The chunk of a turn that needs no windows. -/
def lineChunk (u : Utterance) : NewChunk := ⟨u.localIdx, u.startMs, u.endMs, trim u.text⟩

theorem chunksOf_of_short (h : i64 (u.endMs - u.startMs) ≤ windowMs) :
    chunksOf u = if trim u.text = "" then [] else [lineChunk u] := by
  unfold chunksOf
  by_cases hblank : trim u.text = ""
  · rw [if_pos hblank, if_pos hblank]
  · rw [if_neg hblank, if_neg hblank, if_pos (.inl h)]
    rfl

theorem buildChunks_of_short {us : List Utterance}
    (h : ∀ u ∈ us, i64 (u.endMs - u.startMs) ≤ windowMs) :
    buildChunks us = (us.filter fun u => trim u.text ≠ "").map lineChunk := by
  induction us with
  | nil => rfl
  | cons u us ih =>
    have htail : buildChunks us = _ := ih fun v hv => h v (List.mem_cons_of_mem _ hv)
    have hcons : buildChunks (u :: us) = chunksOf u ++ buildChunks us := List.flatMap_cons
    rw [hcons, htail, chunksOf_of_short (h u List.mem_cons_self), List.filter_cons]
    by_cases hblank : trim u.text = "" <;> simp [hblank]

/-- A row of words that are none longer than a window is no longer than a window either. -/
theorem Whole.short {u : NewUtterance} (h : Whole u)
    (hwords : ∀ w ∈ u.words, i64 (w.endMs - w.startMs) ≤ windowMs) :
    i64 (u.endMs - u.startMs) ≤ windowMs := by
  obtain ⟨first, hfirst⟩ := List.exists_mem_of_ne_nil _ h.ne_nil
  obtain ⟨w, hw⟩ : ∃ w, u.words.head? = some w := by
    rw [← Option.isSome_iff_exists, List.isSome_head?]
    simpa using h.ne_nil
  have hspan := h.span w hw
  have hword := hwords w (List.mem_of_mem_head? hw)
  have hmax : maxUtteranceMs = 30000 := rfl
  have hw : windowMs = 45000 := rfl
  omega

/-- The embedder answers with a vector for each text. -/
def Answers {ε V : Type*} (embedder : List String → Except ε (List V)) (texts : List String) :
    Prop :=
  ∃ vectors, embedder texts = .ok vectors ∧ vectors.length = texts.length

/-- The tables with the chunks of the recording replaced. -/
def rechunked (r : Uuid) (pending : List NewChunk) (c : Content) : Content :=
  { c with chunks := Table.deleteWhere (fun k => k.recordingId == r) c.chunks ++
      pending.map fun k => { k with recordingId := r } }

theorem embed_of_answers {ε V : Type*} {embedder : List String → Except ε (List V)} {r : Uuid}
    {c : Content} (h : buildChunks (c.listUtterances r) = [] ∨
      Answers embedder ((buildChunks (c.listUtterances r)).map NewChunk.text)) :
    embed embedder r c = (rechunked r (buildChunks (c.listUtterances r)) c, .ok ()) := by
  unfold embed rechunked
  dsimp only
  generalize buildChunks (c.listUtterances r) = pending at h
  cases pending with
  | nil => simp
  | cons k ks =>
    obtain ⟨vectors, hvectors, hlength⟩ := h.resolve_left (List.cons_ne_nil k ks)
    rw [List.length_map] at hlength
    rw [if_neg (by simp), hvectors]
    dsimp only
    rw [if_neg (not_not.mpr hlength)]

/-- Where the embedder fails, or miscounts, the old chunks stay. -/
theorem embed_of_not_answers {ε V : Type*} {embedder : List String → Except ε (List V)} {r : Uuid}
    {c : Content} (hne : buildChunks (c.listUtterances r) ≠ [])
    (h : ¬Answers embedder ((buildChunks (c.listUtterances r)).map NewChunk.text)) :
    ∃ e, embed embedder r c = (c, .error e) := by
  unfold embed
  dsimp only
  rw [if_neg (by simpa using hne)]
  cases hvectors : embedder ((buildChunks (c.listUtterances r)).map NewChunk.text) with
  | error e => exact ⟨_, rfl⟩
  | ok vectors =>
    dsimp only
    rw [if_pos]
    · exact ⟨_, rfl⟩
    · intro hlength
      exact h ⟨vectors, hvectors, by rw [List.length_map, hlength]⟩

/-- The chunks of one recording. -/
def chunkRowsOf (c : Content) (r : Uuid) : List NewChunk :=
  (c.chunks.filter fun k => k.recordingId == r).map Chunk.toNewChunk

theorem chunkRowsOf_rechunked (r : Uuid) (pending : List NewChunk) (c : Content) :
    chunkRowsOf (rechunked r pending c) r = pending := by
  have hold : (Table.deleteWhere (fun k : Chunk => k.recordingId == r) c.chunks).filter
      (fun k => k.recordingId == r) = [] := by
    apply List.filter_eq_nil_iff.mpr
    intro k hk
    simp [(Table.mem_deleteWhere.mp hk).2]
  have hnew : (pending.map fun k => ({ k with recordingId := r } : Chunk)).filter
      (fun k => k.recordingId == r) = pending.map fun k => { k with recordingId := r } := by
    apply List.filter_eq_self.mpr
    intro k hk
    obtain ⟨-, -, rfl⟩ := List.mem_map.mp hk
    exact beq_self_eq_true r
  unfold chunkRowsOf rechunked
  rw [List.filter_append, hold, hnew, List.nil_append, List.map_map]
  exact List.map_id _

theorem chunkRowsOf_rechunked_of_ne {r r' : Uuid} (h : r' ≠ r) (pending : List NewChunk)
    (c : Content) : chunkRowsOf (rechunked r pending c) r' = chunkRowsOf c r' := by
  have hold : (Table.deleteWhere (fun k : Chunk => k.recordingId == r) c.chunks).filter
      (fun k => k.recordingId == r') = c.chunks.filter fun k => k.recordingId == r' := by
    rw [Table.deleteWhere, List.filter_filter]
    apply List.filter_congr
    intro k _
    by_cases hk : k.recordingId = r' <;> simp [hk, h]
  have hnew : (pending.map fun k => ({ k with recordingId := r } : Chunk)).filter
      (fun k => k.recordingId == r') = [] := by
    apply List.filter_eq_nil_iff.mpr
    intro k hk
    obtain ⟨-, -, rfl⟩ := List.mem_map.mp hk
    simpa using h.symm
  unfold chunkRowsOf rechunked
  rw [List.filter_append, hold, hnew, List.append_nil]

/-- The labels leave the words as long as they are. -/
theorem labelled_short {cfg : MergeConfig} {x : Outside} {transcript : List Word}
    {turns : List SpeakerTurn} (h : ∀ w ∈ transcript, i64 (w.endMs - w.startMs) ≤ windowMs) :
    ∀ w ∈ labelled cfg x transcript turns, i64 (w.endMs - w.startMs) ≤ windowMs := by
  intro w hw
  rw [labelled_eq] at hw
  have hmem : unlabelled w ∈ (kept cfg x transcript).map unlabelled := by
    rw [← map_unlabelled_assignSpeakers x.order (turns.map TurnArtifact.ofTurn)]
    exact List.mem_map_of_mem hw
  obtain ⟨v, hv, hsame⟩ := List.mem_map.mp hmem
  have hspan : (unlabelled v).endMs - (unlabelled v).startMs =
      (unlabelled w).endMs - (unlabelled w).startMs := by rw [hsame]
  change v.endMs - v.startMs = w.endMs - w.startMs at hspan
  rw [← hspan]
  exact h v (List.mem_filter.mp hv).1

theorem Tells.short {corrected : Bool} {words : List Word} {rows : List NewUtterance}
    (h : Tells corrected words rows) (hwords : ∀ w ∈ words, i64 (w.endMs - w.startMs) ≤ windowMs) :
    ∀ u ∈ rows, i64 (u.endMs - u.startMs) ≤ windowMs := by
  intro u hu
  apply (h.whole u hu).short
  intro w hw
  apply hwords
  rw [← h.words]
  exact List.mem_flatMap.mpr ⟨u, hu, hw⟩

/-- After a merge of words that are none longer than a window, the embed stage needs no windows:
the recording gets one chunk for each line that is not blank, with its speaker and extent, and
keeps the chunks it had where the embedder fails. -/
theorem embed_merged (cfg : MergeConfig) (x : Outside) {r : Uuid} {c : Content}
    {transcript : List Word} {turns : List SpeakerTurn}
    (htranscript : c.transcript r = some transcript) (hturns : c.diarization r = some turns)
    (hshort : ∀ w ∈ transcript, i64 (w.endMs - w.startMs) ≤ windowMs) :
    ∃ after lines, merge cfg x r c = .ok (after, .ok ()) ∧
      lines = ((after.listUtterances r).filter fun u => trim u.text ≠ "").map lineChunk ∧
      ∀ {ε V : Type} (embedder : List String → Except ε (List V)),
        (lines = [] ∨ Answers embedder (lines.map NewChunk.text) →
          ∃ final, embed embedder r after = (final, .ok ()) ∧ chunkRowsOf final r = lines ∧
            ∀ r' ≠ r, chunkRowsOf final r' = chunkRowsOf c r') ∧
        (lines ≠ [] → ¬Answers embedder (lines.map NewChunk.text) →
          ∃ e, embed embedder r after = (after, .error e) ∧ chunkRowsOf after = chunkRowsOf c) := by
  obtain ⟨new, hrun, htells⟩ := exists_merged cfg x htranscript hturns
  have hreplaced := replaced r new c
  generalize (deleteUtterances r c).insertUtterances r new = after at hrun hreplaced
  have hshort' := htells.short (labelled_short hshort)
  have hlines : buildChunks (after.listUtterances r) =
      ((after.listUtterances r).filter fun u => trim u.text ≠ "").map lineChunk := by
    apply buildChunks_of_short
    intro u hu
    rw [Content.listUtterances, List.mem_insertionSort] at hu
    apply hshort' u.toNewUtterance
    rw [← hreplaced.rows]
    exact List.mem_map_of_mem hu
  refine ⟨after, buildChunks (after.listUtterances r), hrun, hlines, fun embedder => ⟨?_, ?_⟩⟩
  · intro hanswers
    refine ⟨_, embed_of_answers hanswers, chunkRowsOf_rechunked _ _ _, ?_⟩
    intro r' h
    rw [chunkRowsOf_rechunked_of_ne h, hreplaced.frame]
    rfl
  · intro hne hanswers
    obtain ⟨e, he⟩ := embed_of_not_answers hne hanswers
    refine ⟨e, he, ?_⟩
    rw [hreplaced.frame]
    rfl

theorem embed_merged_dictated :
    ∃ after lines final, merge stripping plain 7 dictated = .ok (after, .ok ()) ∧
      embed (fun texts => (.ok (texts.map String.length) : Except Unit (List ℕ))) 7 after =
        (final, .ok ()) ∧ chunkRowsOf final 7 = lines ∧
      lines = ((after.listUtterances 7).filter fun u => trim u.text ≠ "").map lineChunk := by
  obtain ⟨after, lines, hrun, hlines, hembed⟩ :=
    embed_merged stripping plain (r := 7) (c := dictated) rfl rfl (by decide)
  obtain ⟨final, hfinal, hchunks, -⟩ :=
    (hembed fun texts => (.ok (texts.map String.length) : Except Unit (List ℕ))).1
      (.inr ⟨_, rfl, List.length_map ..⟩)
  exact ⟨after, lines, final, hrun, hfinal, hchunks, hlines⟩

end ScribeLocal.Pipeline
