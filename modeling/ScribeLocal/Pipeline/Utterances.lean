import ScribeLocal.MachineInt
import ScribeLocal.Server.Content

/-!
# Words into utterances

`group_into_utterances` of the merge stage: one pass over the words that carries the open
utterance and the end of the word before. The times are `i64`, and their differences wrap.
-/
namespace ScribeLocal.Pipeline
open MachineInt

def gapBreakMs : ℤ := 1500

def maxUtteranceMs : ℤ := 30000

def sentenceBreakAfterMs : ℤ := 12000

/-- The last character before trailing white space is a full stop, a question mark or an
exclamation mark. -/
def endsSentence (text : String) : Bool :=
  match (text.toList.reverse.dropWhile Embed.isWhitespace).head? with
  | some c => c == '.' || c == '?' || c == '!'
  | none => false

/-- An assembled utterance before it hits the database. -/
structure GroupedUtterance where
  localIdx : Option ℤ
  startMs : ℤ
  endMs : ℤ
  text : String
  words : List Word
  deriving DecidableEq

def GroupedUtterance.open (w : Word) : GroupedUtterance :=
  ⟨w.localIdx, w.startMs, w.endMs, w.text, [w]⟩

def GroupedUtterance.push (c : GroupedUtterance) (w : Word) : GroupedUtterance :=
  { c with
    endMs := max c.endMs w.endMs
    text := (if c.text.isEmpty then c.text else c.text ++ " ") ++ w.text
    words := c.words ++ [w] }

/-- Length ends an utterance too: at a sentence boundary where there is one within reach, and
at the limit where there is not. -/
def GroupedUtterance.longEnough (c : GroupedUtterance) (w : Word) : Bool :=
  let span := i64 (w.endMs - c.startMs)
  maxUtteranceMs < span ||
    sentenceBreakAfterMs < span && c.words.getLast?.any fun last => endsSentence last.text

/-- The variables of the loop. -/
structure Grouping where
  out : List GroupedUtterance
  cur : Option GroupedUtterance
  prevEnd : ℤ

def Grouping.start : Grouping := ⟨[], none, 0⟩

def Grouping.step (s : Grouping) (w : Word) : Grouping :=
  let gapOk := i64 (w.startMs - s.prevEnd) ≤ gapBreakMs
  match s.cur with
  | some c =>
    if c.localIdx = w.localIdx ∧ gapOk ∧ ¬c.longEnough w then
      { s with cur := some (c.push w), prevEnd := w.endMs }
    else ⟨s.out ++ [c], some (.open w), w.endMs⟩
  | none => { s with cur := some (.open w), prevEnd := w.endMs }

def Grouping.utterances (s : Grouping) : List GroupedUtterance := s.out ++ s.cur.toList

def groupIntoUtterances (words : List Word) : List GroupedUtterance :=
  (words.foldl Grouping.step .start).utterances

/-! ## What an utterance holds -/

/-- `w` may not follow `last` in `u`. -/
def Breaks (u : GroupedUtterance) (last w : Word) : Prop :=
  u.localIdx ≠ w.localIdx ∨ gapBreakMs < w.startMs - last.endMs ∨
    maxUtteranceMs < w.endMs - u.startMs ∨
    sentenceBreakAfterMs < w.endMs - u.startMs ∧ endsSentence last.text

/-- The loop cuts between `last`, with which `u` ends, and `w`. -/
def Cuts (u : GroupedUtterance) (last w : Word) : Prop :=
  u.localIdx ≠ w.localIdx ∨ gapBreakMs < i64 (w.startMs - last.endMs) ∨
    maxUtteranceMs < i64 (w.endMs - u.startMs) ∨
    sentenceBreakAfterMs < i64 (w.endMs - u.startMs) ∧ endsSentence last.text

structure Documented (u : GroupedUtterance) : Prop where
  speaker : ∀ w ∈ u.words, w.localIdx = u.localIdx
  text : u.text = " ".intercalate (u.words.map Word.text)
  start : u.words.head?.map Word.startMs = some u.startMs
  stop : IsGreatest (Word.endMs '' {w | w ∈ u.words}) u.endMs
  /-- No word starts long after the end of the one before it. -/
  gap : u.words.IsChain fun a b => b.startMs - a.endMs ≤ gapBreakMs
  span : ∀ first ∈ u.words.head?, first.endMs - first.startMs ≤ maxUtteranceMs →
    u.endMs - u.startMs ≤ maxUtteranceMs
  /-- No break is missing. -/
  unbroken : u.words.IsChain fun a b => ¬Breaks u a b

/-- There is a cause for the break between two utterances. -/
def Between (cause : GroupedUtterance → Word → Word → Prop) (u v : GroupedUtterance) : Prop :=
  ∃ last ∈ u.words.getLast?, ∃ next ∈ v.words.head?, cause u last next

/-- The utterances are the words in order, each is as documented, and each break has a cause. -/
structure AsDocumented (words : List Word) (utterances : List GroupedUtterance) : Prop where
  words : utterances.flatMap GroupedUtterance.words = words
  documented : ∀ u ∈ utterances, Documented u
  apart : utterances.IsChain (Between Breaks)

/-! ## One word -/

variable {c u : GroupedUtterance} {w last : Word} {s : Grouping} {done : List Word}
  {P : GroupedUtterance → Prop} {cause : GroupedUtterance → Word → Word → Prop}

theorem longEnough_iff (h : c.words.getLast? = some last) : c.longEnough w ↔
    maxUtteranceMs < i64 (w.endMs - c.startMs) ∨
      sentenceBreakAfterMs < i64 (w.endMs - c.startMs) ∧ endsSentence last.text := by
  simp [GroupedUtterance.longEnough, h]

/-- The loop goes on exactly where nothing cuts. -/
theorem continues_iff (h : c.words.getLast? = some last) (hend : s.prevEnd = last.endMs) :
    (c.localIdx = w.localIdx ∧ i64 (w.startMs - s.prevEnd) ≤ gapBreakMs ∧ ¬c.longEnough w) ↔
      ¬Cuts c last w := by
  rw [longEnough_iff h, hend, Cuts]
  push Not
  rfl

/-- What is open, where the loop has read a word. -/
structure Grouping.Open (s : Grouping) (c : GroupedUtterance) (last : Word) : Prop where
  cur : s.cur = some c
  words : c.words.getLast? = some last
  prevEnd : s.prevEnd = last.endMs

theorem Grouping.Open.step_of_cuts (h : s.Open c last) (hcuts : Cuts c last w) :
    s.step w = ⟨s.out ++ [c], some (.open w), w.endMs⟩ := by
  have hstops := mt (continues_iff h.words h.prevEnd).mp (not_not.mpr hcuts)
  unfold step
  rw [h.cur]
  exact if_neg hstops

theorem Grouping.Open.step_of_not_cuts (h : s.Open c last) (hcuts : ¬Cuts c last w) :
    s.step w = ⟨s.out, some (c.push w), w.endMs⟩ := by
  have hgoes := (continues_iff h.words h.prevEnd).mpr hcuts
  unfold step
  rw [h.cur]
  exact if_pos hgoes

theorem documented_open (w : Word) : Documented (.open w) where
  speaker v hv := by
    rw [List.mem_singleton.mp hv]
    rfl
  text := String.intercalate_singleton.symm
  start := rfl
  stop := by simp [GroupedUtterance.open]
  gap := .singleton w
  span first hfirst hlong := by
    obtain rfl : w = first := by simpa [GroupedUtterance.open] using hfirst
    exact hlong
  unbroken := .singleton w

theorem Documented.words_ne_nil (h : Documented c) : c.words ≠ [] := by
  intro hnil
  simpa [hnil] using h.start

theorem text_push (h : c.text ≠ "") (w : Word) : (c.push w).text = c.text ++ " " ++ w.text := by
  simp [GroupedUtterance.push, h]

/-- A word more keeps what holds of each two words in a row. -/
theorem isChain_push {R : Word → Word → Prop} (h : c.words.IsChain R)
    (hlast : c.words.getLast? = some last) (hR : R last w) : (c.push w).words.IsChain R := by
  apply h.append (.singleton w)
  intro x hx y hy
  obtain rfl : last = x := by simpa [hlast] using hx
  obtain rfl : w = y := by simpa using hy
  exact hR

theorem documented_push (h : Documented c) (hlast : c.words.getLast? = some last)
    (hgoes : ¬Breaks c last w) (htext : c.text ≠ "") : Documented (c.push w) := by
  have hnil := h.words_ne_nil
  have hhead : (c.push w).words.head? = c.words.head? := List.head?_append_of_ne_nil _ hnil
  have hcauses := hgoes
  simp only [Breaks, not_or, not_not, not_lt] at hcauses
  obtain ⟨hspeaker, hgap, hspan, -⟩ := hcauses
  constructor
  · intro v hv
    rcases List.mem_append.mp hv with hold | hnew
    · exact h.speaker v hold
    · rw [List.mem_singleton.mp hnew]
      exact hspeaker.symm
  · rw [text_push htext, h.text]
    show _ = " ".intercalate ((c.words ++ [w]).map Word.text)
    rw [List.map_append, String.intercalate_append_of_ne_nil (by simpa using hnil) (by simp)]
    simp
  · rw [hhead]
    exact h.start
  · rcases h.stop with ⟨⟨v, hv, hstop⟩, hupper⟩
    constructor
    · rcases max_choice c.endMs w.endMs with hmax | hmax
      · exact ⟨v, List.mem_append_left _ hv, hstop.trans hmax.symm⟩
      · exact ⟨w, List.mem_append_right _ (List.mem_singleton_self w), hmax.symm⟩
    · rintro _ ⟨v, hv, rfl⟩
      rcases List.mem_append.mp hv with hold | hnew
      · exact (hupper ⟨v, hold, rfl⟩).trans (le_max_left _ _)
      · rw [List.mem_singleton.mp hnew]
        exact le_max_right _ _
  · exact isChain_push h.gap hlast hgap
  · intro first hfirst hlong
    rw [hhead] at hfirst
    have hold := h.span first hfirst hlong
    show max c.endMs w.endMs - c.startMs ≤ maxUtteranceMs
    omega
  · exact isChain_push h.unbroken hlast hgoes

/-! ## All words -/

/-- What holds once the loop has read `done`: of each utterance, and between each two. -/
structure Grouping.Running (P : GroupedUtterance → Prop)
    (cause : GroupedUtterance → Word → Word → Prop) (done : List Word) (s : Grouping) : Prop where
  words : s.utterances.flatMap GroupedUtterance.words = done
  holds : ∀ u ∈ s.utterances, u.words ≠ [] ∧ P u
  apart : s.utterances.IsChain (Between cause)
  /-- Once a word is read an utterance is open, and ends with the last word that was read. -/
  opened : ∀ last, done.getLast? = some last → ∃ c, s.Open c last

theorem Grouping.running_start : Grouping.start.Running P cause [] :=
  ⟨rfl, nofun, .nil, nofun⟩

theorem Grouping.Open.mem (h : s.Open c last) : c ∈ s.utterances := by
  rw [utterances, h.cur]
  exact List.mem_append_right _ (List.mem_singleton_self c)

theorem Grouping.running_first (h : P (.open w)) :
    (Grouping.start.step w).Running P cause [w] where
  words := rfl
  holds u hu := by
    rw [List.mem_singleton.mp hu]
    exact ⟨List.cons_ne_nil _ _, h⟩
  apart := .singleton _
  opened last hlast := by
    obtain rfl : w = last := by simpa using hlast
    exact ⟨.open w, rfl, rfl, rfl⟩

/-- Another word joins the open utterance, or closes it and opens the next. -/
theorem Grouping.Running.step (h : s.Running P cause done) (hlast : done.getLast? = some last)
    (hopen : P (.open w))
    (hcut : ∀ c, s.Open c last → Cuts c last w → cause c last w)
    (hpush : ∀ c, s.Open c last → ¬Cuts c last w → P c → P (c.push w)) :
    (s.step w).Running P cause (done ++ [w]) := by
  obtain ⟨c, hc⟩ := h.opened last hlast
  have hall : s.utterances = s.out ++ [c] := by rw [utterances, hc.cur, Option.toList_some]
  obtain ⟨hwords, hholds, hapart, -⟩ := h
  rw [hall] at hwords hholds hapart
  obtain ⟨hne, hPc⟩ := hholds c (by simp)
  by_cases hcuts : Cuts c last w
  · rw [hc.step_of_cuts hcuts]
    constructor
    · rw [utterances, Option.toList_some, List.flatMap_append, hwords]
      rfl
    · intro u hu
      rcases List.mem_append.mp hu with hold | hnew
      · exact hholds u hold
      · rw [List.mem_singleton.mp hnew]
        exact ⟨List.cons_ne_nil _ _, hopen⟩
    · apply hapart.append (.singleton _)
      intro x hx y hy
      obtain rfl : c = x := by simpa using hx
      obtain rfl : GroupedUtterance.open w = y := by simpa using hy
      exact ⟨last, hc.words, w, rfl, hcut c hc hcuts⟩
    · intro v hv
      obtain rfl : w = v := by simpa using hv
      exact ⟨.open w, rfl, rfl, rfl⟩
  · rw [hc.step_of_not_cuts hcuts]
    constructor
    · rw [← hwords]
      simp [utterances, GroupedUtterance.push]
    · intro u hu
      rcases List.mem_append.mp hu with hold | hnew
      · exact hholds u (List.mem_append_left _ hold)
      · rw [List.mem_singleton.mp hnew]
        exact ⟨List.append_ne_nil_of_left_ne_nil hne _, hpush c hc hcuts hPc⟩
    · -- the open utterance keeps its first word, and the ones before it are as they were
      rw [utterances, Option.toList_some, List.isChain_append] at *
      refine ⟨hapart.1, .singleton _, ?_⟩
      intro x hx y hy
      obtain rfl : c.push w = y := by simpa using hy
      obtain ⟨v, hv, next, hnext, hcause⟩ := hapart.2.2 x hx c rfl
      refine ⟨v, hv, next, ?_, hcause⟩
      exact (List.head?_append_of_ne_nil _ hne).trans hnext
    · intro v hv
      obtain rfl : w = v := by simpa using hv
      exact ⟨c.push w, rfl, List.getLast?_concat, rfl⟩

/-- What holds of every utterance that is opened, and is kept by every word that joins, holds of
all utterances; and what causes every cut lies between each two of them. -/
theorem grouped_induction (cause : GroupedUtterance → Word → Word → Prop) (words : List Word)
    (hopen : ∀ w ∈ words, P (.open w))
    (hcut : ∀ pre last w post c, words = pre ++ last :: w :: post →
      ((pre ++ [last]).foldl Grouping.step .start).Open c last → Cuts c last w → cause c last w)
    (hpush : ∀ pre last w post c, words = pre ++ last :: w :: post →
      ((pre ++ [last]).foldl Grouping.step .start).Open c last → ¬Cuts c last w → P c →
        P (c.push w)) :
    (words.foldl Grouping.step .start).Running P cause words := by
  induction words using List.reverseRecOn with
  | nil => exact Grouping.running_start
  | append_singleton words w ih =>
    have hw : w ∈ words ++ [w] := List.mem_append_right _ (List.mem_singleton_self w)
    have hstep (pre : List Word) (v v' : Word) (post : List Word)
        (h : words = pre ++ v :: v' :: post) : words ++ [w] = pre ++ v :: v' :: (post ++ [w]) := by
      rw [h]
      simp
    have hrun := ih (fun v hv => hopen v (List.mem_append_left _ hv))
      (fun pre last v post c h => hcut pre last v (post ++ [w]) c (hstep _ _ _ _ h))
      (fun pre last v post c h => hpush pre last v (post ++ [w]) c (hstep _ _ _ _ h))
    rw [List.foldl_concat]
    cases words using List.reverseRecOn with
    | nil => exact Grouping.running_first (hopen w hw)
    | append_singleton pre last =>
      have happend : pre ++ [last] ++ [w] = pre ++ last :: w :: [] := by simp
      exact hrun.step List.getLast?_concat (hopen w hw)
        (fun c hc => hcut pre last w [] c happend hc)
        fun c hc => hpush pre last w [] c happend hc

/-! ## Where the differences wrap -/

/-- `c'` is what became of `c`. -/
structure Grows (c c' : GroupedUtterance) : Prop where
  words : c.words <+: c'.words
  localIdx : c'.localIdx = c.localIdx
  startMs : c'.startMs = c.startMs

theorem grows_push (c : GroupedUtterance) (w : Word) : Grows c (c.push w) :=
  ⟨List.prefix_append _ _, rfl, rfl⟩

theorem Grows.trans {c c' c'' : GroupedUtterance} (h : Grows c c') (h' : Grows c' c'') :
    Grows c c'' :=
  ⟨h.words.trans h'.words, h'.localIdx.trans h.localIdx, h'.startMs.trans h.startMs⟩

theorem Grows.breaks_iff {c' : GroupedUtterance} (h : Grows c c') :
    Breaks c' last w ↔ Breaks c last w := by
  unfold Breaks
  rw [h.localIdx, h.startMs]

/-- The utterances that are closed stay, and the open one grows. -/
theorem Grouping.exists_grown (h : s.Open c last) (words : List Word) :
    ∃ c' rest, Grows c c' ∧ (words.foldl step s).utterances = s.out ++ c' :: rest := by
  induction words generalizing s c last with
  | nil =>
    refine ⟨c, [], ⟨List.prefix_rfl, rfl, rfl⟩, ?_⟩
    rw [List.foldl_nil, utterances, h.cur, Option.toList_some]
  | cons w words ih =>
    rw [List.foldl_cons]
    by_cases hcuts : Cuts c last w
    · rw [h.step_of_cuts hcuts]
      obtain ⟨c', rest, -, hrest⟩ :=
        ih (s := ⟨s.out ++ [c], some (.open w), w.endMs⟩) (c := .open w) ⟨rfl, rfl, rfl⟩
      refine ⟨c, c' :: rest, ⟨List.prefix_rfl, rfl, rfl⟩, ?_⟩
      rw [hrest, List.append_assoc, List.singleton_append]
    · rw [h.step_of_not_cuts hcuts]
      obtain ⟨c', rest, hgrows, hrest⟩ :=
        ih (s := ⟨s.out, some (c.push w), w.endMs⟩) (c := c.push w)
          ⟨rfl, List.getLast?_concat, rfl⟩
      exact ⟨c', rest, (grows_push c w).trans hgrows, hrest⟩

/-- Before each word, the rules give the same answer of the wrapped differences as of the true
ones. -/
def CutsAsBreaks (words : List Word) : Prop :=
  ∀ pre last w post c, words = pre ++ last :: w :: post →
    ((pre ++ [last]).foldl Grouping.step .start).Open c last →
      (Cuts c last w ↔ Breaks c last w)

theorem asDocumented_of_cutsAsBreaks {words : List Word} (htext : ∀ w ∈ words, w.text ≠ "")
    (h : CutsAsBreaks words) : AsDocumented words (groupIntoUtterances words) := by
  have hrun := grouped_induction (P := fun u => Documented u ∧ u.text ≠ "") Breaks words
    (fun w hw => ⟨documented_open w, htext w hw⟩)
    (fun pre last w post c hwords hopen => (h pre last w post c hwords hopen).mp)
    (by
      rintro pre last w post c hwords hopen hcuts ⟨hdocumented, hne⟩
      have hgoes := mt (h pre last w post c hwords hopen).mpr hcuts
      refine ⟨documented_push hdocumented hopen.words hgoes hne, ?_⟩
      have hw : w ∈ words := by simp [hwords]
      rw [text_push hne]
      simp [htext w hw])
  exact ⟨hrun.words, fun u hu => (hrun.holds u hu).2.1, hrun.apart⟩

/-- A cut in the middle of what the rules would keep, or a word that they would not let join,
is seen in the utterances. -/
theorem cutsAsBreaks_of_asDocumented {words : List Word}
    (h : AsDocumented words (groupIntoUtterances words)) : CutsAsBreaks words := by
  intro pre last w post c hwords hopen
  have hsplit : pre ++ last :: w :: post = (pre ++ [last]) ++ w :: post := by simp
  obtain ⟨-, hdocumented, hapart⟩ := h
  rw [groupIntoUtterances, hwords, hsplit, List.foldl_append, List.foldl_cons] at hdocumented hapart
  by_cases hcuts : Cuts c last w
  · refine iff_of_true hcuts ?_
    rw [hopen.step_of_cuts hcuts] at hapart
    obtain ⟨c', rest, hgrows, hrest⟩ := Grouping.exists_grown
      (s := ⟨_ ++ [c], some (.open w), w.endMs⟩) (c := .open w) ⟨rfl, rfl, rfl⟩ post
    rw [hrest, List.append_assoc, List.isChain_append] at hapart
    obtain ⟨last', hlast', next, hnext, hbreaks⟩ :=
      (List.isChain_cons_cons.mp hapart.2.1).1
    obtain rfl : last = last' := by simpa [hopen.words] using hlast'
    obtain ⟨more, hmore⟩ := hgrows.words
    obtain rfl : w = next := by simpa [← hmore, GroupedUtterance.open] using hnext
    exact hbreaks
  · refine iff_of_false hcuts ?_
    rw [hopen.step_of_not_cuts hcuts] at hdocumented
    obtain ⟨c', rest, hgrows, hrest⟩ := Grouping.exists_grown
      (s := ⟨_, some (c.push w), w.endMs⟩) (c := c.push w)
      ⟨rfl, List.getLast?_concat, rfl⟩ post
    have hchain := (hdocumented c' (by rw [hrest]; simp)).unbroken
    obtain ⟨more, hmore⟩ := hgrows.words
    obtain ⟨before, hbefore⟩ := List.getLast?_eq_some_iff.mp hopen.words
    have hpushed : c'.words = before ++ last :: w :: more := by
      rw [← hmore]
      simp [GroupedUtterance.push, hbefore]
    rw [hpushed, List.isChain_append] at hchain
    have hgoes := (List.isChain_cons_cons.mp hchain.2.1).1
    rwa [((grows_push c w).trans hgrows).breaks_iff] at hgoes

/-- The words come out as documented exactly if no wrapped difference misleads a rule. -/
theorem grouped_as_documented_iff {words : List Word} (h : ∀ w ∈ words, w.text ≠ "") :
    AsDocumented words (groupIntoUtterances words) ↔ CutsAsBreaks words :=
  ⟨cutsAsBreaks_of_asDocumented, asDocumented_of_cutsAsBreaks h⟩

/-- No word starts or ends further than an `i64` reaches from the end or the start of another. -/
def Close (words : List Word) : Prop :=
  ∀ a ∈ words, ∀ b ∈ words, FitsI64 (b.startMs - a.endMs) ∧ FitsI64 (b.endMs - a.startMs)

/-- No difference wraps there. -/
theorem Close.cutsAsBreaks {words : List Word} (h : Close words) : CutsAsBreaks words := by
  intro pre last w post c hwords hopen
  have hsplit : words = (pre ++ [last]) ++ w :: post := by simp [hwords]
  have hlast : last ∈ words := by simp [hwords]
  have hw : w ∈ words := by simp [hwords]
  -- the open utterance starts with a word
  have hrun := grouped_induction (P := fun u => ∃ first ∈ words, u.startMs = first.startMs)
    (fun _ _ _ => True) (pre ++ [last])
    (fun v hv => ⟨v, by rw [hsplit]; exact List.mem_append_left _ hv, rfl⟩)
    (fun _ _ _ _ _ _ _ _ => trivial) (fun _ _ _ _ _ _ _ _ hfirst => hfirst)
  obtain ⟨first, hfirst, hstart⟩ := (hrun.holds c hopen.mem).2
  unfold Cuts Breaks
  rw [(h last hlast w hw).1.i64_eq, hstart, (h first hfirst w hw).2.i64_eq]

/-- A word of the first millisecond there is, and one of the last. -/
def farApart : List Word :=
  [⟨"first", -2 ^ 63, -2 ^ 63 + 1, none⟩, ⟨"last", 2 ^ 63 - 2, 2 ^ 63 - 1, none⟩]

theorem not_grouped_as_documented : ¬ ∀ words : List Word, (∀ w ∈ words, w.text ≠ "") →
    AsDocumented words (groupIntoUtterances words) := by
  intro h
  have hgap := (h farApart (by decide)).documented _ List.mem_cons_self
  exact absurd hgap.gap (by decide)

/-- A sentence that ends past twelve seconds, words out of order, and a change of speaker. -/
def spoken : List Word :=
  [⟨"so", 0, 400, some 0⟩, ⟨"there.", 11000, 13000, some 0⟩, ⟨"Next", 9000, 12500, some 0⟩,
    ⟨"yes", 12600, 12900, some 1⟩]

theorem close_spoken : Close spoken := by
  unfold Close
  decide

theorem grouped_as_documented_iff_spoken : AsDocumented spoken (groupIntoUtterances spoken) :=
  (grouped_as_documented_iff (by decide)).mpr close_spoken.cutsAsBreaks

end ScribeLocal.Pipeline
