import Mathlib.Data.List.AList
import ScribeLocal.Api.NameSpeaker
import ScribeLocal.Pipeline.Condense

/-!
# The summarize stage

The model is handed the transcript under the speakers' names, or the notes that stand for it,
with the names of those who were there. Whatever it answers, there is a summary.
-/
namespace ScribeLocal.Pipeline
open Asr (isWhitespace trim)

/-! ## Templates -/

structure SummaryTemplate where
  id : String
  instructions : String

def templates : List SummaryTemplate := [
  { id := "general"
    instructions := "Summarize this meeting. Capture the overall discussion, concrete action " ++
      "items, explicit decisions made, and the main topics covered." },
  { id := "standup"
    instructions := "This is a team standup. For the summary, capture per-person what was " ++
      "done, what's next, and any blockers. action_items = unblock/follow-up tasks. " ++
      "decisions = any scope or priority calls. topics = workstreams mentioned." },
  { id := "interview"
    instructions := "This is an interview. summary = the candidate's background and the " ++
      "strongest signals (positive and negative). action_items = recommended next steps " ++
      "(e.g. follow-up interview, references). decisions = the hiring lean if expressed. " ++
      "topics = competencies/areas probed." },
  { id := "one_on_one"
    instructions := "This is a 1:1 meeting. summary = key discussion points and sentiment. " ++
      "action_items = commitments made by either side. decisions = anything agreed. " ++
      "topics = themes (growth, feedback, workload, etc.)." },
  { id := "lecture"
    instructions := "This is a lecture or talk. summary = the thesis and main arguments. " ++
      "action_items = suggested study/follow-up. decisions = N/A unless stated. " ++
      "topics = key concepts introduced." },
  { id := "sales"
    instructions := "This is a sales call. summary = the prospect's needs, pain points, and " ++
      "buying signals. action_items = seller next steps. decisions = " ++
      "commitments/next-meeting. topics = objections and products discussed." }]

def general : SummaryTemplate := templates.head (List.cons_ne_nil _ _)

def resolve (id : String) : SummaryTemplate :=
  (templates.find? fun t => NameSpeaker.eqIgnoreAsciiCase t.id (Embed.trim id)).getD general

/-! ## Names -/

/-- The display names by local index: the `HashMap`, in an order of its own. -/
abbrev Names := AList fun _ : ℤ => String

def speakerName (localIdx : ℤ) (displayName : Option String) : String :=
  displayName.getD ("Speaker " ++ toString localIdx)

/-- From the recording's speakers, each by local index and display name. -/
def speakerNames (rows : List (ℤ × Option String)) : Names :=
  rows.foldl (fun names r => names.insert r.1 (speakerName r.1 r.2)) ∅

def label (names : Names) : Option ℤ → String
  | some idx => (names.lookup idx).getD ("Speaker " ++ toString idx)
  | none => "Speaker"

def renderLine (names : Names) (u : Utterance) : List Char :=
  (label names u.localIdx ++ ": ").toList ++ trim u.text.toList ++ ['\n']

def renderTranscript (utterances : List Utterance) (names : Names) : List Char :=
  utterances.flatMap (renderLine names)

def participantLine (names : Names) : List Char :=
  if names.entries.isEmpty then []
  else
    let who := names.entries.insertionSort fun a b => a.1 ≤ b.1
    ("The people speaking are: " ++ ", ".intercalate (who.map Sigma.snd) ++ ". Attribute " ++
      "decisions and action items to them by name where the transcript supports it.\n\n").toList

/-! ## The reply -/

/-- What a JSON value is to the fields of a summary; other values as they are written. -/
inductive Item
  | text (s : String)
  | other (written : String)

inductive Field
  | text (s : String)
  | items (values : List Item)
  | other

/-- `Value::get` of a JSON value. -/
abbrev Fields := String → Option Field

structure ParsedSummary where
  title : Option String := none
  summary : Option String := none
  actionItems : List String := []
  decisions : List String := []
  topics : List String := []

/-- Empty is absent. -/
def stringField (v : Fields) (key : String) : Option String :=
  match v key with
  | some (.text s) => if (Embed.trim s).isEmpty then none else some (Embed.trim s)
  | _ => none

def Item.string? : Item → Option String
  | text s => if (Embed.trim s).isEmpty then none else some (Embed.trim s)
  | other written => some written

def stringArray (v : Fields) (key : String) : List String :=
  match v key with
  | some (.items values) => values.filterMap Item.string?
  | some (.text s) => if (Embed.trim s).isEmpty then [] else [Embed.trim s]
  | _ => []

/-- `fromStr` is the JSON reader. -/
def parseSummary (fromStr : String → Option Fields) (raw : String) :
    Except Panic ParsedSummary :=
  (firstJsonObject raw).map fun block =>
    match block.bind fromStr with
    | some v =>
      { title := stringField v "title"
        summary := stringField v "summary"
        actionItems := stringArray v "action_items"
        decisions := stringArray v "decisions"
        topics := stringArray v "topics" }
    | none => { summary := some (Embed.trim raw) }

/-! ## The stage -/

/-- What the stage asks the model, and what it writes. -/
structure Summarized where
  asked : List Request
  parsed : ParsedSummary
  template : String

/-- The body of the last request, and what is asked before it. -/
def bodyOf (chat : Chat) (budget : ℕ) (transcript : List Char) : List Char × List Request :=
  if budget < transcript.length then
    match condense chat transcript budget with
    | (some notes, asked) => (notes, asked)
    | (none, asked) => (takeChars transcript budget, asked)
  else (transcript, [])

def promptBudget (maxPromptChars : ℕ) : ℕ := max maxPromptChars 2000

/-- The last call: a summary of what it answers, or an empty one. -/
def conclude (chat : Chat) (fromStr : String → Option Fields) (asked : List Request)
    (template : String) : Except Panic Summarized :=
  match chat (asked.map Request.messages) with
  | some raw => (parseSummary fromStr raw).map fun parsed => { asked, parsed, template }
  | none => .ok { asked, parsed := {}, template }

def summarize (chat : Chat) (fromStr : String → Option Fields) (maxPromptChars : ℕ)
    (utterances : List Utterance) (speakers : List (ℤ × Option String)) (template : String) :
    Except Panic Summarized :=
  let names := speakerNames speakers
  let tmpl := resolve template
  let body := bodyOf chat (promptBudget maxPromptChars) (renderTranscript utterances names)
  conclude chat fromStr
    (body.2 ++ [.summary tmpl.instructions (participantLine names) body.1]) tmpl.id

/-! ## What the model is shown -/

variable {chat : Chat} {fromStr : String → Option Fields} {budget : ℕ} {names : Names}
  {utterances : List Utterance} {u : Utterance} {line body : List Char} {put : List Request}

/-- The line is cut off: after the last round the notes that say it were still too long. -/
def CutOff (budget : ℕ) (put : List Request) (body line : List Char) : Prop :=
  put.countP Request.opens = maxRounds ∧
    ∃ notes, Said notes line ∧ budget < notes.length ∧ body = notes.take budget

/-- How `put`, and `body` in the last request, make the transcript known to the model. -/
structure Briefed (chat : Chat) (budget : ℕ) (utterances : List Utterance) (names : Names)
    (put : List Request) (last : Request) (body : List Char) : Prop where
  length_le : body.length ≤ budget
  whole : (renderTranscript utterances names).length ≤ budget →
    put = [] ∧ body = renderTranscript utterances names
  fits : ∀ q ∈ put, ∃ n total part, q = .notes n total part ∧ 1 ≤ n ∧ n ≤ total ∧
    FitsOrLine (partBudget budget) part
  rounds_le : put.countP Request.opens ≤ maxRounds
  /-- Where a call for notes fails, the opening stands for the transcript. -/
  failed : ∀ a q b, put = a ++ q :: b → answer chat (a ++ [q]) = none →
    b = [] ∧ body = takeChars (renderTranscript utterances names) budget
  /-- Otherwise each line of each utterance is shown whole, -/
  shown : (∀ a q b, put = a ++ q :: b → answer chat (a ++ [q]) ≠ none) → ∀ u ∈ utterances,
    ∀ line, Said (renderLine names u) line → Shows (put ++ [last]) line
  /-- and what is noted on a part is shown later on. -/
  handed_on : (∀ a q b, put = a ++ q :: b → answer chat (a ++ [q]) ≠ none) → ∀ a q b,
    put = a ++ q :: b → ∀ reply, answer chat (a ++ [q]) = some reply → ∀ line,
    Said (trim reply) line → Shows (b ++ [last]) line ∨ CutOff budget put body line

theorem lines_append_renderLine (rest : List Char) :
    lines (renderLine names u ++ rest) = lines (renderLine names u) ++ lines rest := by
  rw [renderLine, List.append_assoc, List.singleton_append, lines_append_newline]

/-- An utterance keeps its lines in the transcript. -/
theorem said_renderTranscript (hu : u ∈ utterances) (h : Said (renderLine names u) line) :
    Said (renderTranscript utterances names) line := by
  refine ⟨?_, h.2⟩
  induction utterances with
  | nil => cases hu
  | cons v utterances ih =>
    rw [renderTranscript, List.flatMap_cons, lines_append_renderLine, List.mem_append]
    rcases List.mem_cons.mp hu with rfl | hu
    · exact .inl h.1
    · exact .inr (ih hu)

/-- Behind the label of an utterance is a colon. -/
theorem exists_said_renderLine (names : Names) (u : Utterance) :
    ∃ line, Said (renderLine names u) line := by
  have hmem : ':' ∈ renderLine names u := by simp [renderLine, String.toList_append]
  exact exists_said hmem rfl

theorem exists_said_transcript (h : budget < (renderTranscript utterances names).length) :
    ∃ line, Said (renderTranscript utterances names) line := by
  cases utterances with
  | nil => simp [renderTranscript] at h
  | cons u utterances =>
    obtain ⟨line, hline⟩ := exists_said_renderLine names u
    exact ⟨line, said_renderTranscript List.mem_cons_self hline⟩

theorem shows_summary {instructions : String} {roster : List Char} (h : line <:+: body) :
    Shows [.summary instructions roster body] line :=
  ⟨_, List.mem_singleton_self _, h.trans (List.suffix_append _ _).isInfix⟩

/-- The transcript itself is handed over. -/
theorem briefed_whole {instructions : String} {roster : List Char}
    (h : (renderTranscript utterances names).length ≤ budget) :
    Briefed chat budget utterances names []
      (.summary instructions roster (renderTranscript utterances names))
      (renderTranscript utterances names) where
  length_le := h
  whole _ := ⟨rfl, rfl⟩
  fits _ hq := absurd hq List.not_mem_nil
  rounds_le := Nat.zero_le _
  failed _ _ _ hput := absurd hput.symm (by simp)
  shown _ u hu line hline :=
    shows_summary (infix_of_mem_lines (said_renderTranscript hu hline).1)
  handed_on _ _ _ _ hput := absurd hput.symm (by simp)

/-- A call for notes fails, and the opening is handed over. -/
theorem briefed_failed {last : Request} (h : budget < (renderTranscript utterances names).length)
    (hc : Condensed chat budget maxRounds (renderTranscript utterances names) [] put none) :
    Briefed chat budget utterances names put last
      (takeChars (renderTranscript utterances names) budget) where
  length_le := List.length_take_le _ _
  whole hle := absurd h hle.not_gt
  fits := hc.fits
  rounds_le := hc.opens_le
  failed a q b hput hnone := ⟨(hc.unanswered a q b hput hnone).1, rfl⟩
  shown hall := by
    obtain ⟨a, q, hput, hnone⟩ := hc.last rfl
    exact absurd (hput ▸ hnone) (hall a q [] hput)
  handed_on hall := by
    obtain ⟨a, q, hput, hnone⟩ := hc.last rfl
    exact absurd (hput ▸ hnone) (hall a q [] hput)

/-- The notes are handed over. -/
theorem briefed_condensed {instructions : String} {roster notes : List Char}
    (h : budget < (renderTranscript utterances names).length)
    (hc : Condensed chat budget maxRounds (renderTranscript utterances names) [] put (some notes)) :
    Briefed chat budget utterances names put (.summary instructions roster notes) notes where
  length_le := hc.length_le notes rfl
  whole hle := absurd h hle.not_gt
  fits := hc.fits
  rounds_le := hc.opens_le
  failed a q b hput hnone := by cases (hc.unanswered a q b hput hnone).2
  shown _ u hu line hline :=
    (hc.shows_text (by decide) notes rfl line (said_renderTranscript hu hline)).append_left
  handed_on _ a q b hput reply hreply line hline := by
    rcases hc.hands_on notes rfl a q b hput reply hreply line hline with hshows | ⟨final, hsaid, heq, hend⟩
    · exact .inl hshows.append_left
    · by_cases hfit : final.length ≤ budget
      · rw [heq, List.take_of_length_le hfit]
        exact .inl (shows_summary (infix_of_mem_lines hsaid.1)).append_right
      · exact .inr ⟨hend.resolve_left hfit, final, hsaid, not_le.mp hfit, heq⟩

theorem bodyOf_briefed (chat : Chat) (budget : ℕ) (utterances : List Utterance) (names : Names)
    (instructions : String) (roster : List Char) :
    Briefed chat budget utterances names
      (bodyOf chat budget (renderTranscript utterances names)).2
      (.summary instructions roster (bodyOf chat budget (renderTranscript utterances names)).1)
      (bodyOf chat budget (renderTranscript utterances names)).1 := by
  rw [bodyOf]
  by_cases hover : budget < (renderTranscript utterances names).length
  · rw [if_pos hover]
    obtain ⟨put, result, heq, hc⟩ :=
      @condenseRounds_eq chat [] budget _ maxRounds (exists_said_transcript hover)
    rw [condense, heq, List.nil_append]
    cases result with
    | none => exact briefed_failed hover hc
    | some notes => exact briefed_condensed hover hc
  · rw [if_neg hover]
    exact briefed_whole (not_lt.mp hover)

theorem exists_parseSummary (fromStr : String → Option Fields) (raw : String) :
    ∃ parsed, parseSummary fromStr raw = .ok parsed := by
  obtain ⟨block, hblock⟩ := curly.exists_firstBlock raw
  rw [parseSummary, firstJsonObject, hblock]
  exact ⟨_, rfl⟩

theorem conclude_eq (chat : Chat) (fromStr : String → Option Fields) (asked : List Request)
    (template : String) : ∃ parsed,
      conclude chat fromStr asked template = .ok { asked, parsed, template } ∧
      match chat (asked.map Request.messages) with
      | none => parsed = {}
      | some raw => parseSummary fromStr raw = .ok parsed := by
  unfold conclude
  cases chat (asked.map Request.messages) with
  | none => exact ⟨_, rfl, rfl⟩
  | some raw =>
    obtain ⟨parsed, hparsed⟩ := exists_parseSummary fromStr raw
    exact ⟨parsed, by simp only [hparsed]; rfl, hparsed⟩

end ScribeLocal.Pipeline
