import ScribeLocal.Pipeline.Corrections
import ScribeLocal.Pipeline.Labels
import ScribeLocal.Pipeline.Title
import ScribeLocal.Pipeline.Utterances
import ScribeLocal.Server.Serial
import ScribeLocal.Server.Tables

/-!
# The merge stage

`merge::run` reads the words and the turns back, strips the filler words, labels and groups
what is left, lets the language model correct the lines, and replaces the utterances of the
recording.
-/
namespace ScribeLocal.Pipeline
open MachineInt Server Tally

structure AsrConfig where
  removeFillers : Bool
  fillerWords : List String

/-- What the stage reads of the configuration. -/
structure MergeConfig where
  asr : AsrConfig
  correctTranscript : Bool
  summarizeModel : String

structure PipelineError where
  stage : String
  message : String
  deriving DecidableEq

/-- What the stage takes from the Unicode tables, its maps, the language model and the table of
speakers. -/
structure Outside where
  isAlphanumeric : Char → Bool
  order : ℕ → HashOrder (ℤ × Int64)
  chat : String → List ChatMessage → Option String
  fromStr : String → Option (List Correction)
  /-- The display names, if they could be read. -/
  names : Option (List String)

/-! ## Filler words -/

/-- Lower case, without what is not alphanumeric at both ends. -/
def normalize (isAlphanumeric : Char → Bool) (w : String) : String :=
  String.ofList ((trimMatches (fun c => !isAlphanumeric c) (Embed.trim w).toList).map Char.toLower)

structure FillerFilter where
  enabled : Bool
  set : Finset String

def FillerFilter.fromConfig (isAlphanumeric : Char → Bool) (cfg : AsrConfig) : FillerFilter where
  enabled := cfg.removeFillers
  set := ((cfg.fillerWords.map (normalize isAlphanumeric)).filter fun w => !w.isEmpty).toFinset

def FillerFilter.isFiller (isAlphanumeric : Char → Bool) (f : FillerFilter) (word : String) :
    Bool :=
  if !f.enabled then false
  else
    let n := normalize isAlphanumeric word
    !n.isEmpty && decide (n ∈ f.set)

/-- The words that stay, and how many were removed. -/
def FillerFilter.clean (isAlphanumeric : Char → Bool) (f : FillerFilter) (words : List Word) :
    List Word × ℕ :=
  if !f.enabled || decide (f.set = ∅) then (words, 0)
  else
    let kept := words.filter fun w => !f.isFiller isAlphanumeric w.text
    (kept, words.length - kept.length)

/-! ## The stage -/

def TurnArtifact.ofTurn (t : SpeakerTurn) : TurnArtifact := ⟨t.localIdx, t.startMs, t.endMs⟩

def GroupedUtterance.toNew (u : GroupedUtterance) : NewUtterance :=
  ⟨u.localIdx, u.startMs, u.endMs, u.text, u.words⟩

/-- `delete_utterances_by_recording`. -/
def deleteUtterances (r : Uuid) (c : Content) : Content :=
  { c with utterances := Table.deleteWhere (fun u => u.recordingId == r) c.utterances }

/-- The words without fillers, each with its speaker. -/
def labelled (cfg : MergeConfig) (x : Outside) (transcript : List Word) (turns : List SpeakerTurn) :
    List Word :=
  let filter := FillerFilter.fromConfig x.isAlphanumeric cfg.asr
  assignSpeakers x.order (filter.clean x.isAlphanumeric transcript).1
    (turns.map TurnArtifact.ofTurn)

/-- The utterances that the stage inserts. -/
def assembled (cfg : MergeConfig) (x : Outside) (transcript : List Word)
    (turns : List SpeakerTurn) : Except Panic (List NewUtterance) := do
  let mut utterances := groupIntoUtterances (labelled cfg x transcript turns)
  if cfg.correctTranscript then
    let fixed ← correctNames x.chat x.fromStr cfg.summarizeModel (x.names.getD []) utterances
    utterances := fixed.1
  return utterances.map GroupedUtterance.toNew

/-- `run`: the tables it leaves and what it returns. -/
def merge (cfg : MergeConfig) (x : Outside) (r : Uuid) (c : Content) :
    Except Panic (Content × Except PipelineError Unit) :=
  match c.transcript r with
  | none =>
    .ok (c, .error ⟨"merge", "transcript artifact missing (transcribe not done?)"⟩)
  | some transcript =>
    match c.diarization r with
    | none => .ok (c, .error ⟨"merge", "diarization artifact missing (diarize not done?)"⟩)
    | some turns => do
      let new ← assembled cfg x transcript turns
      let after := (deleteUtterances r c).insertUtterances r new
      -- the rows are in the table before the count is looked at
      if new.isEmpty && !(labelled cfg x transcript turns).isEmpty then
        return (after, .error ⟨"merge", "produced no utterances from a non-empty transcript"⟩)
      else
        return (after, .ok ())

/-! ## The filter -/

variable {isAlphanumeric : Char → Bool} {f : FillerFilter} {cfg : MergeConfig} {x : Outside}
  {words transcript : List Word} {turns : List SpeakerTurn} {r r' : Uuid} {c : Content}
  {w last : Word} {u : GroupedUtterance}

theorem clean_eq :
    (f.clean isAlphanumeric words).1 = words.filter fun w => !f.isFiller isAlphanumeric w.text := by
  unfold FillerFilter.clean
  split
  · rename_i hoff
    symm
    apply List.filter_eq_self.mpr
    intro w _
    rcases Bool.or_eq_true_iff.mp hoff with hdisabled | hempty
    · simp_all [FillerFilter.isFiller]
    · simp_all [FillerFilter.isFiller]
  · rfl

theorem isFiller_iff {word : String} {asr : AsrConfig} :
    (FillerFilter.fromConfig isAlphanumeric asr).isFiller isAlphanumeric word ↔
      asr.removeFillers ∧ normalize isAlphanumeric word ≠ "" ∧
        ∃ filler ∈ asr.fillerWords,
          normalize isAlphanumeric filler = normalize isAlphanumeric word := by
  unfold FillerFilter.isFiller FillerFilter.fromConfig
  cases h : asr.removeFillers with
  | false => simp
  | true =>
    dsimp only
    rw [Bool.not_true, if_neg Bool.false_ne_true, Bool.and_eq_true, decide_eq_true_eq,
      List.mem_toFinset, List.mem_filter, List.mem_map]
    simp only [Bool.not_eq_true', String.isEmpty_eq_false_iff, true_and]
    constructor
    · rintro ⟨hne, ⟨filler, hmem, heq⟩, -⟩
      exact ⟨hne, filler, hmem, heq⟩
    · rintro ⟨hne, filler, hmem, heq⟩
      exact ⟨hne, ⟨filler, hmem, heq⟩, hne⟩

/-! ## Labels -/

/-- A word whoever said it. -/
def unlabelled (w : Word) : Word := { w with localIdx := none }

theorem map_unlabelled_assignSpeakers (order : ℕ → HashOrder (ℤ × Int64))
    (turns : List TurnArtifact) :
    (assignSpeakers order words turns).map unlabelled = words.map unlabelled := by
  unfold assignSpeakers
  split
  · rfl
  · apply List.ext_getElem?
    intro i
    rw [List.getElem?_map, List.getElem?_mapIdx, List.getElem?_map, Option.map_map]
    rfl

/-! ## Groups -/

/-- What holds of an utterance whatever its text is. -/
structure Whole (u : NewUtterance) : Prop where
  ne_nil : u.words ≠ []
  speaker : ∀ w ∈ u.words, w.localIdx = u.localIdx
  start : u.words.head?.map Word.startMs = some u.startMs
  stop : IsGreatest (Word.endMs '' {w | w ∈ u.words}) u.endMs
  /-- Nothing but a first word that is longer on its own exceeds the limit. -/
  span : ∀ first ∈ u.words.head?,
    i64 (u.endMs - u.startMs) ≤ max maxUtteranceMs (i64 (first.endMs - first.startMs))

theorem whole_open (w : Word) : Whole (GroupedUtterance.open w).toNew where
  ne_nil := List.cons_ne_nil _ _
  speaker v hv := by
    rw [List.mem_singleton.mp hv]
    rfl
  start := rfl
  stop := by simp [GroupedUtterance.open, GroupedUtterance.toNew]
  span first hfirst := by
    obtain rfl : w = first := by
      simpa [GroupedUtterance.open, GroupedUtterance.toNew] using hfirst
    exact le_max_right _ _

theorem whole_push (h : Whole u.toNew) (hgoes : ¬Cuts u last w) : Whole (u.push w).toNew := by
  have hhead : (u.push w).toNew.words.head? = u.words.head? :=
    List.head?_append_of_ne_nil _ h.ne_nil
  simp only [Cuts, not_or, not_not, not_lt] at hgoes
  obtain ⟨hspeaker, -, hspan, -⟩ := hgoes
  constructor
  · exact List.append_ne_nil_of_right_ne_nil _ (List.cons_ne_nil _ _)
  · intro v hv
    rcases List.mem_append.mp hv with hold | hnew
    · exact h.speaker v hold
    · rw [List.mem_singleton.mp hnew]
      exact hspeaker.symm
  · rw [hhead]
    exact h.start
  · have himage : Word.endMs '' {v | v ∈ (u.push w).toNew.words} =
        insert w.endMs (Word.endMs '' {v | v ∈ u.words}) := by
      rw [← Set.image_insert_eq]
      congr 1
      ext v
      simp [GroupedUtterance.push, GroupedUtterance.toNew, or_comm]
    rw [himage]
    show IsGreatest _ (max u.endMs w.endMs)
    rw [max_comm]
    exact h.stop.insert w.endMs
  · intro first hfirst
    rw [hhead] at hfirst
    have hold : i64 (u.endMs - u.startMs) ≤ _ := h.span first hfirst
    show i64 (max u.endMs w.endMs - u.startMs) ≤ _
    rcases max_choice u.endMs w.endMs with hmax | hmax
    · rw [hmax]
      exact hold
    · rw [hmax]
      exact hspan.trans (le_max_left _ _)

theorem Whole.settled {u : NewUtterance} (h : Whole u) (text : String) :
    Whole { u with text := text } :=
  ⟨h.ne_nil, h.speaker, h.start, h.stop, h.span⟩

/-- The text of the words of an utterance, none of which is empty. -/
def Spelled (u : GroupedUtterance) : Prop :=
  (∀ w ∈ u.words, w.text ≠ "") →
    u.text ≠ "" ∧ u.text = " ".intercalate (u.words.map Word.text)

theorem spelled_open (w : Word) : Spelled (.open w) := fun h =>
  ⟨h w (List.mem_singleton_self w), String.intercalate_singleton.symm⟩

theorem spelled_push (h : Spelled u) (hne : u.words ≠ []) (w : Word) : Spelled (u.push w) := by
  intro hall
  have hw : w.text ≠ "" := hall w (List.mem_append_right _ (List.mem_singleton_self w))
  obtain ⟨htext, heq⟩ := h fun v hv => hall v (List.mem_append_left _ hv)
  rw [text_push htext]
  refine ⟨by simp [hw], ?_⟩
  rw [heq]
  show _ = " ".intercalate ((u.words ++ [w]).map Word.text)
  rw [List.map_append, String.intercalate_append_of_ne_nil (by simpa using hne) (by simp)]
  simp

/-- What holds of an utterance that the loop has put together. -/
structure Grouped (u : GroupedUtterance) : Prop where
  whole : Whole u.toNew
  uncut : u.words.IsChain fun a b => ¬Cuts u a b
  spelled : Spelled u

theorem running_grouped (words : List Word) :
    (words.foldl Grouping.step .start).Running Grouped Cuts words := by
  apply grouped_induction Cuts words
  · intro w _
    exact ⟨whole_open w, .singleton w, spelled_open w⟩
  · intro pre last w post c _ _ hcuts
    exact hcuts
  · intro pre last w post c _ hopen hcuts h
    exact ⟨whole_push h.whole hcuts, isChain_push h.uncut hopen.words hcuts,
      spelled_push h.spelled h.whole.ne_nil w⟩

/-! ## The rows -/

def GroupedUtterance.ofNew (u : NewUtterance) : GroupedUtterance :=
  ⟨u.localIdx, u.startMs, u.endMs, u.text, u.words⟩

/-- The rows say the labelled words in order, with the speaker and the extent of their words. No
rule cuts within a row, and one does between any two. Without corrections the rows have the texts
of their words. -/
structure Tells (corrected : Bool) (words : List Word) (rows : List NewUtterance) : Prop where
  words : rows.flatMap NewUtterance.words = words
  whole : ∀ u ∈ rows, Whole u
  uncut : ∀ u ∈ rows, u.words.IsChain fun a b => ¬Cuts (.ofNew u) a b
  cut : rows.IsChain fun u v => Between Cuts (.ofNew u) (.ofNew v)
  text : corrected = false → ∀ u ∈ rows, (∀ w ∈ u.words, w.text ≠ "") →
    u.text = " ".intercalate (u.words.map Word.text)

/-- The words that are left of the transcript. -/
def kept (cfg : MergeConfig) (x : Outside) (transcript : List Word) : List Word :=
  transcript.filter fun w =>
    !(FillerFilter.fromConfig x.isAlphanumeric cfg.asr).isFiller x.isAlphanumeric w.text

theorem labelled_eq : labelled cfg x transcript turns =
    assignSpeakers x.order (kept cfg x transcript) (turns.map TurnArtifact.ofTurn) := by
  rw [labelled, clean_eq]
  rfl

/-- Corrections change the texts and nothing else. -/
theorem exists_assembled : ∃ texts : ℕ → String → String,
    (cfg.correctTranscript = false → texts = fun _ text => text) ∧
    assembled cfg x transcript turns =
      .ok ((groupIntoUtterances (labelled cfg x transcript turns)).mapIdx fun n u =>
        { u.toNew with text := texts n u.text }) := by
  unfold assembled
  generalize groupIntoUtterances (labelled cfg x transcript turns) = utts
  cases cfg.correctTranscript with
  | false =>
    refine ⟨fun _ text => text, fun _ => rfl, congrArg Except.ok ?_⟩
    apply List.ext_getElem?
    intro n
    rw [List.getElem?_map, List.getElem?_mapIdx]
    rfl
  | true =>
    let edits := corrections x.chat x.fromStr cfg.summarizeModel (x.names.getD []) utts
    refine ⟨fun n text => (textsAt edits n).foldl settle text, nofun, ?_⟩
    simp only [if_true, correctNames_eq]
    refine congrArg Except.ok ?_
    rw [foldl_applyCorrection_eq]
    apply List.ext_getElem?
    intro n
    rw [List.getElem?_map, List.getElem?_mapIdx, List.getElem?_mapIdx, Option.map_map]
    rfl

/-- A row but for its text. -/
def untold (u : NewUtterance) : NewUtterance := { u with text := "" }

theorem map_untold_mapIdx (texts : ℕ → String → String) (utts : List GroupedUtterance) :
    (utts.mapIdx fun n u => { u.toNew with text := texts n u.text }).map untold =
      utts.map fun u => untold u.toNew := by
  apply List.ext_getElem?
  intro n
  rw [List.getElem?_map, List.getElem?_mapIdx, List.getElem?_map, Option.map_map]
  rfl

theorem tells_assembled : ∃ new, assembled cfg x transcript turns = .ok new ∧
    Tells cfg.correctTranscript (labelled cfg x transcript turns) new := by
  obtain ⟨texts, hplain, hnew⟩ := @exists_assembled cfg x transcript turns
  obtain ⟨hwords, hholds, hapart, -⟩ := running_grouped (labelled cfg x transcript turns)
  have hsame := map_untold_mapIdx texts (groupIntoUtterances (labelled cfg x transcript turns))
  refine ⟨_, hnew, ?_, ?_, ?_, ?_, ?_⟩
  · have hflat (rows : List NewUtterance) :
        rows.flatMap NewUtterance.words = (rows.map untold).flatMap NewUtterance.words :=
      (List.flatMap_map untold NewUtterance.words rows).symm
    rw [hflat, hsame, List.flatMap_map]
    exact hwords
  · intro u hu
    obtain ⟨n, hn, rfl⟩ := List.mem_mapIdx.mp hu
    exact (hholds _ (List.getElem_mem hn)).2.whole.settled _
  · intro u hu
    obtain ⟨n, hn, rfl⟩ := List.mem_mapIdx.mp hu
    exact (hholds _ (List.getElem_mem hn)).2.uncut
  · have hmap (rows : List NewUtterance) :
        rows.IsChain (fun u v => Between Cuts (.ofNew u) (.ofNew v)) ↔
          (rows.map untold).IsChain fun u v => Between Cuts (.ofNew u) (.ofNew v) := by
      rw [List.isChain_map]
      rfl
    rw [hmap, hsame, List.isChain_map]
    exact hapart
  · intro hoff u hu
    obtain ⟨n, hn, rfl⟩ := List.mem_mapIdx.mp hu
    rw [hplain hoff]
    exact fun hall => ((hholds _ (List.getElem_mem hn)).2.spelled hall).2

theorem Tells.ne_nil {corrected : Bool} {rows : List NewUtterance}
    (h : Tells corrected words rows) (hwords : words ≠ []) : rows ≠ [] := by
  rintro rfl
  exact hwords h.words.symm

/-! ## The tables -/

theorem utterancesOf_replaced (r : Uuid) (new : List NewUtterance) (c : Content) :
    ((deleteUtterances r c).insertUtterances r new).utterancesOf r =
      Content.numbered r c.nextId new := by
  rw [utterancesOf_insert_self, Content.utterancesOf, deleteUtterances, utterancesOf_clear]
  rfl

theorem utterancesOf_replaced_of_ne (h : r' ≠ r) (new : List NewUtterance) (c : Content) :
    ((deleteUtterances r c).insertUtterances r new).utterancesOf r' = c.utterancesOf r' := by
  rw [utterancesOf_insert_of_ne h.symm]
  exact utterancesOf_delete_other fun u hu hr => h (hr.symm.trans (eq_of_beq hu))

/-- The rows come back in the order they were inserted in where none starts before the one
ahead of it. -/
theorem listUtterances_of_pairwise {c : Content} {first : ℕ} {new : List NewUtterance}
    (hrows : c.utterancesOf r = Content.numbered r first new)
    (hsorted : new.Pairwise fun a b => a.startMs ≤ b.startMs) :
    c.listUtterances r = c.utterancesOf r := by
  rw [Content.listUtterances, hrows]
  apply List.Pairwise.insertionSort_eq
  rw [List.pairwise_iff_getElem]
  intro i j hi hj hij
  rw [Content.numbered, List.length_map, List.length_zipIdx] at hi hj
  have hstart := List.pairwise_iff_getElem.mp hsorted i j hi hj hij
  simp only [Content.numbered, List.getElem_map, List.getElem_zipIdx]
  omega

theorem pairwise_starts {new : List NewUtterance} (hwhole : ∀ u ∈ new, Whole u)
    (h : (new.flatMap NewUtterance.words).Pairwise fun a b => a.startMs ≤ b.startMs) :
    new.Pairwise fun a b => a.startMs ≤ b.startMs := by
  rw [List.flatMap_def, List.pairwise_flatten, List.pairwise_map] at h
  apply h.2.imp_of_mem
  intro a b ha hb hall
  obtain ⟨first, hfirst, hstart⟩ := Option.map_eq_some_iff.mp (hwhole a ha).start
  obtain ⟨next, hnext, hstart'⟩ := Option.map_eq_some_iff.mp (hwhole b hb).start
  rw [← hstart, ← hstart']
  exact hall first (List.mem_of_mem_head? hfirst) next (List.mem_of_mem_head? hnext)

/-- The rows of the recording are replaced by `new`, and nothing else is written. -/
structure Replaced (r : Uuid) (new : List NewUtterance) (c after : Content) : Prop where
  rows : (after.utterancesOf r).map Utterance.toNewUtterance = new
  others : ∀ r' ≠ r, after.utterancesOf r' = c.utterancesOf r'
  frame : after = { c with utterances := after.utterances, nextId := after.nextId }

theorem replaced (r : Uuid) (new : List NewUtterance) (c : Content) :
    Replaced r new c ((deleteUtterances r c).insertUtterances r new) where
  rows := by rw [utterancesOf_replaced, Content.map_numbered]
  others r' h := utterancesOf_replaced_of_ne h new c
  frame := rfl

/-- The labels leave the times as they are. -/
theorem pairwise_labelled (h : transcript.Pairwise fun a b => a.startMs ≤ b.startMs) :
    (labelled cfg x transcript turns).Pairwise fun a b => a.startMs ≤ b.startMs := by
  have hmap : ((kept cfg x transcript).map unlabelled).Pairwise
      fun a b => a.startMs ≤ b.startMs := List.pairwise_map.mpr (h.filter _)
  rw [labelled_eq]
  rw [← map_unlabelled_assignSpeakers x.order (turns.map TurnArtifact.ofTurn)] at hmap
  exact (List.pairwise_map (f := unlabelled)).mp hmap

/-- With both artifacts in place the stage replaces the rows and returns. -/
theorem exists_merged (cfg : MergeConfig) (x : Outside) (htranscript : c.transcript r = some transcript)
    (hturns : c.diarization r = some turns) :
    ∃ new, merge cfg x r c = .ok ((deleteUtterances r c).insertUtterances r new, .ok ()) ∧
      Tells cfg.correctTranscript (labelled cfg x transcript turns) new := by
  obtain ⟨new, hnew, htells⟩ := @tells_assembled cfg x transcript turns
  refine ⟨new, ?_, htells⟩
  have hcount : (new.isEmpty && !(labelled cfg x transcript turns).isEmpty) = false := by
    by_cases hwords : labelled cfg x transcript turns = []
    · simp [hwords]
    · simp [htells.ne_nil hwords]
  simp only [merge, htranscript, hturns, hnew]
  simp [bind, Except.bind, pure, Except.pure, hcount]

/-- A transcript with a filler, and two turns. -/
def dictated : Content :=
  { Content.empty with
    transcript := fun _ => some [⟨"Well,", 0, 400, none⟩, ⟨"um,", 500, 600, none⟩,
      ⟨"yes.", 700, 900, none⟩]
    diarization := fun _ => some [⟨0, 0, 450⟩, ⟨1, 650, 1000⟩] }

def plain : Outside where
  isAlphanumeric := Char.isAlphanum
  order := fun _ => ⟨id, fun _ => List.Perm.refl _⟩
  chat := fun _ _ => none
  fromStr := fun _ => none
  names := none

def stripping : MergeConfig := ⟨⟨true, ["um"]⟩, true, "qwen3"⟩

example : (merge stripping plain 7 dictated).toOption.map
    (fun p => p.1.utterances.map fun u => u.text) = some ["Well,", "yes."] := by
  decide +kernel

end ScribeLocal.Pipeline
