import ScribeLocal.Server.Serial
import ScribeLocal.Server.Tables

/-! # What the stages make of a recording

The engines are given once and for all: what they answer depends on the recording's audio and
on what the stage has read. The tables that hold the artifacts then have one content, whatever
an earlier attempt at a stage has left in them.
-/
namespace ScribeLocal.Server
open Table

/-- What the engines make of the audio of one recording. -/
structure Engines where
  durationMs : ℕ
  turns : Option ℤ → List SpeakerTurn
  words : List Word
  merged : List Word → List SpeakerTurn → List NewUtterance
  summary : String → List NewUtterance → Option String

/-- The artifacts of one recording, as a client reads them. -/
structure Outcome where
  durationMs : Option ℤ
  turns : Option (List SpeakerTurn)
  speakers : Finset ℤ
  words : Option (List Word)
  utterances : List NewUtterance
  chunks : List NewChunk
  summaries : List (String × Option String)
  deriving DecidableEq

def speakersOf (c : Content) (r : Uuid) : Finset ℤ :=
  ((c.speakers.filter fun p => p.recordingId == r).map RecordingSpeaker.localIdx).toFinset

def outcomeOf (c : Content) (r : Uuid) : Outcome where
  durationMs := c.durationMs r
  turns := c.diarization r
  speakers := speakersOf c r
  words := c.transcript r
  utterances := (c.listUtterances r).map Utterance.toNewUtterance
  chunks := (c.chunks.filter fun k => k.recordingId == r).map Chunk.toNewChunk
  summaries := (c.summaries.filter fun y => y.recordingId == r).map fun y =>
    (y.template, y.summary)

namespace Engines

variable (e : Engines)

/-- The merged turns in the order they are listed in. -/
def spoken (expected : Option ℤ) : List NewUtterance :=
  (e.merged e.words (e.turns expected)).insertionSort fun a b => a.startMs ≤ b.startMs

def chunks (expected : Option ℤ) : List NewChunk :=
  Embed.buildChunks ((e.spoken expected).map fun u => { u with id := 0, recordingId := 0 })

/-- The speakers `diarize` upserts. -/
def found (expected : Option ℤ) : List ℤ :=
  ((e.turns expected).map SpeakerTurn.localIdx).dedup.insertionSort (· ≤ ·)

/-- What the stages make of the recording, by the number of people the client stated. -/
def outcome (template : String) (expected : Option ℤ) : Outcome where
  durationMs := some e.durationMs
  turns := some (e.turns expected)
  speakers := (e.found expected).toFinset
  words := some e.words
  utterances := e.spoken expected
  chunks := e.chunks expected
  summaries := [(template, e.summary template (e.spoken expected))]

/-- What a statement is told is what the engines make of what has been read. -/
def Answers (c : Content) (x : Heard) : Stmt → Prop
  | .measureDuration _ => x.durationMs = e.durationMs
  | .diarized _ expected => x.turns = e.turns expected
  | .putTranscript _ => x.words = e.words
  | .insertMerged r => ∀ words turns, c.transcript r = some words → c.diarization r = some turns →
      x.utterances = e.merged words turns
  | .upsertSummary r template =>
    x.summary = e.summary template ((c.listUtterances r).map Utterance.toNewUtterance)
  | _ => True

end Engines

variable {e : Engines} {template : String} {r r' : Uuid} {c c' : Content} {k : JobKind}
  {st : Stmt} {body sts : List Stmt} {now : Time} {status : Uuid → Option RecordingStatus}
  {x : Heard}

/-! ## The tables a stage fills -/

/-- The tables the stage fills say of `r` what the engines make of it. -/
def Made (e : Engines) (template : String) (r : Uuid) (c : Content) : JobKind → Prop
  | .transcode => c.durationMs r = some (e.durationMs : ℤ)
  | .diarize => c.diarization r = some (e.turns (c.participantsExpected r)) ∧
      ∀ idx, ⟨r, idx⟩ ∈ c.speakers ↔ idx ∈ e.found (c.participantsExpected r)
  | .transcribe => c.transcript r = some e.words
  | .merge => ∃ n, c.utterancesOf r =
      Content.numbered r n (e.merged e.words (e.turns (c.participantsExpected r)))
  | .embed => (c.chunks.filter fun k => k.recordingId == r).map Chunk.toNewChunk =
      e.chunks (c.participantsExpected r)
  | .summarize => (c.summaries.filter fun y => y.recordingId == r) =
      [⟨r, template, e.summary template (e.spoken (c.participantsExpected r))⟩]
  | .transcribeSegment => True

/-- Two contents agree on the tables the stage fills, as far as `r` goes. -/
def Same (r : Uuid) (c c' : Content) : JobKind → Prop
  | .transcode => c'.durationMs r = c.durationMs r
  | .diarize => c'.diarization r = c.diarization r ∧
      ∀ idx, (⟨r, idx⟩ : RecordingSpeaker) ∈ c'.speakers ↔ ⟨r, idx⟩ ∈ c.speakers
  | .transcribe => c'.transcript r = c.transcript r
  | .merge => c'.utterancesOf r = c.utterancesOf r
  | .embed => (c'.chunks.filter fun k => k.recordingId == r) =
      c.chunks.filter fun k => k.recordingId == r
  | .summarize => (c'.summaries.filter fun y => y.recordingId == r) =
      c.summaries.filter fun y => y.recordingId == r
  | .transcribeSegment => True

theorem Same.refl (r : Uuid) (c : Content) (k : JobKind) : Same r c c k := by
  cases k
  case diarize => exact ⟨rfl, fun _ => Iff.rfl⟩
  case transcribeSegment => trivial
  all_goals exact rfl

theorem Made.congr (h : Made e template r c k) (hsame : Same r c c' k)
    (hexpected : c'.participantsExpected r = c.participantsExpected r) :
    Made e template r c' k := by
  cases k with
  | diarize =>
    refine ⟨?_, fun idx => ?_⟩
    · rw [hsame.1, hexpected]
      exact h.1
    · rw [hsame.2, hexpected]
      exact h.2 idx
  | transcode | transcribe => exact hsame.trans h
  | merge =>
    obtain ⟨n, hn⟩ := h
    refine ⟨n, ?_⟩
    rw [hexpected]
    exact hsame.trans hn
  | embed =>
    unfold Made
    rw [hexpected]
    exact (congrArg (List.map Chunk.toNewChunk) hsame).trans h
  | summarize =>
    unfold Made
    rw [hexpected]
    exact hsame.trans h
  | transcribeSegment => trivial

theorem same_trans {c'' : Content} (h : Same r c c' k) (h' : Same r c' c'' k) :
    Same r c c'' k := by
  cases k with
  | diarize => exact ⟨h'.1.trans h.1, fun idx => (h'.2 idx).trans (h.2 idx)⟩
  | transcribeSegment => trivial
  | _ => exact Eq.trans h' h

/-! ## Reading the tables back -/

/-- Sorting commutes with a projection under which each element keeps its place among the later
ones. -/
theorem map_insertionSort_of_pairwise {α β : Type*} {R : α → α → Prop} {S : β → β → Prop}
    [DecidableRel R] [DecidableRel S] {f : α → β} {l : List α}
    (h : l.Pairwise fun a b => R a b ↔ S (f a) (f b)) :
    (l.insertionSort R).map f = (l.map f).insertionSort S := by
  have hinsert {a : α} {l : List α} (ha : ∀ b ∈ l, R a b ↔ S (f a) (f b)) :
      (l.orderedInsert R a).map f = (l.map f).orderedInsert S (f a) := by
    induction l with
    | nil => rfl
    | cons b l ih =>
      rw [List.orderedInsert_cons, List.map_cons, List.orderedInsert_cons]
      by_cases hab : R a b
      · rw [if_pos hab, if_pos ((ha b List.mem_cons_self).mp hab)]
        rfl
      · rw [if_neg hab, if_neg fun hs => hab ((ha b List.mem_cons_self).mpr hs), List.map_cons,
          ih fun b hb => ha b (List.mem_cons_of_mem _ hb)]
  induction l with
  | nil => rfl
  | cons a l ih =>
    rw [List.pairwise_cons] at h
    rw [List.insertionSort_cons, List.map_cons, List.insertionSort_cons, ← ih h.2]
    exact hinsert fun b hb => h.1 b ((List.mem_insertionSort R).mp hb)

theorem pairwise_numbered (r : Uuid) (first : ℕ) (new : List NewUtterance) :
    (Content.numbered r first new).Pairwise fun a b => a.id < b.id := by
  rw [List.pairwise_iff_getElem]
  intro i j hi hj hij
  simp only [Content.numbered, List.getElem_map, List.getElem_zipIdx]
  omega

/-- The rows of one bulk insert are listed by their start, and among equals as inserted. -/
theorem listUtterances_numbered {first : ℕ} {new : List NewUtterance}
    (h : c.utterancesOf r = Content.numbered r first new) :
    (c.listUtterances r).map Utterance.toNewUtterance =
      new.insertionSort fun a b => a.startMs ≤ b.startMs := by
  rw [Content.listUtterances, h]
  conv_rhs => rw [← Content.map_numbered r first new]
  apply map_insertionSort_of_pairwise
  apply (pairwise_numbered r first new).imp
  intro a b hab
  omega

/-- A chunk does not depend on the row its turn is kept in. -/
theorem windowsFrom_congr {u v : Utterance} (h : u.toNewUtterance = v.toNewUtterance)
    (winStart : ℤ) : Embed.windowsFrom u winStart = Embed.windowsFrom v winStart := by
  obtain ⟨new, id, rec⟩ := u
  obtain ⟨new', id', rec'⟩ := v
  obtain rfl : new = new' := h
  induction winStart using Embed.windowsFrom.induct ⟨new, id, rec⟩ with
  | case1 winStart hlt winEnd ih =>
    rw [Embed.windowsFrom, if_pos hlt, Embed.windowsFrom, if_pos hlt]
    have hchunk : Embed.windowChunk ⟨new, id, rec⟩ winStart winEnd =
        Embed.windowChunk ⟨new, id', rec'⟩ winStart winEnd := rfl
    dsimp only
    split
    · exact congrArg (· ++ []) hchunk
    · rename_i hend
      exact congrArg₂ (· ++ ·) hchunk (ih hend)
  | case2 winStart hlt =>
    rw [Embed.windowsFrom, if_neg hlt, Embed.windowsFrom, if_neg hlt]

theorem chunksOf_congr {u v : Utterance} (h : u.toNewUtterance = v.toNewUtterance) :
    Embed.chunksOf u = Embed.chunksOf v := by
  have hstart : u.startMs = v.startMs := congrArg NewUtterance.startMs h
  have hwindows := windowsFrom_congr h u.startMs
  obtain ⟨new, id, rec⟩ := u
  obtain ⟨new', id', rec'⟩ := v
  obtain rfl : new = new' := h
  unfold Embed.chunksOf
  rw [hwindows]

theorem buildChunks_congr {us vs : List Utterance}
    (h : us.map Utterance.toNewUtterance = vs.map Utterance.toNewUtterance) :
    Embed.buildChunks us = Embed.buildChunks vs := by
  induction us generalizing vs with
  | nil =>
    obtain rfl : vs = [] := List.map_eq_nil_iff.mp h.symm
    rfl
  | cons u us ih =>
    cases vs with
    | nil => cases h
    | cons v vs =>
      rw [List.map_cons, List.map_cons, List.cons.injEq] at h
      exact congrArg₂ (· ++ ·) (chunksOf_congr h.1) (ih h.2)

theorem spoken_of_made (h : Made e template r c .merge) :
    (c.listUtterances r).map Utterance.toNewUtterance = e.spoken (c.participantsExpected r) := by
  obtain ⟨n, hn⟩ := h
  exact listUtterances_numbered hn

theorem chunks_of_made (h : Made e template r c .merge) :
    Embed.buildChunks (c.listUtterances r) = e.chunks (c.participantsExpected r) := by
  apply buildChunks_congr
  rw [spoken_of_made h, List.map_map]
  exact (List.map_id _).symm

theorem mem_speakersOf {idx : ℤ} : idx ∈ speakersOf c r ↔ ⟨r, idx⟩ ∈ c.speakers := by
  unfold speakersOf
  rw [List.mem_toFinset, List.mem_map]
  constructor
  · rintro ⟨⟨r', idx'⟩, hp, rfl⟩
    rw [List.mem_filter] at hp
    obtain rfl : r' = r := eq_of_beq hp.2
    exact hp.1
  · intro hidx
    exact ⟨⟨r, idx⟩, List.mem_filter.mpr ⟨hidx, beq_self_eq_true r⟩, rfl⟩

theorem outcomeOf_congr (h : ∀ k, Same r c c' k) : outcomeOf c' r = outcomeOf c r := by
  have hspeakers : speakersOf c' r = speakersOf c r := by
    ext idx
    rw [mem_speakersOf, mem_speakersOf]
    exact (h .diarize).2 idx
  have hlist : c'.listUtterances r = c.listUtterances r := by
    unfold Content.listUtterances
    rw [show c'.utterancesOf r = _ from h .merge]
  unfold outcomeOf
  rw [hspeakers, hlist, show c'.durationMs r = _ from h .transcode, (h .diarize).1,
    show c'.transcript r = _ from h .transcribe,
    show (c'.chunks.filter fun k => k.recordingId == r) = _ from h .embed,
    show (c'.summaries.filter fun y => y.recordingId == r) = _ from h .summarize]

/-- Once all stages have filled their tables, a client reads the outcome. -/
theorem outcome_of_made (h : ∀ k, k.isPipeline = true → Made e template r c k) :
    outcomeOf c r = e.outcome template (c.participantsExpected r) := by
  have hspoken := spoken_of_made (h .merge rfl)
  have hturns := h .diarize rfl
  have hsummary : (c.summaries.filter fun y => y.recordingId == r) =
    [⟨r, template, e.summary template (e.spoken (c.participantsExpected r))⟩] := h .summarize rfl
  have hspeakers : speakersOf c r = (e.found (c.participantsExpected r)).toFinset := by
    ext idx
    rw [mem_speakersOf, List.mem_toFinset]
    exact hturns.2 idx
  unfold outcomeOf Engines.outcome
  rw [hspoken, hspeakers, hsummary, hturns.1, show c.durationMs r = _ from h .transcode rfl,
    show c.transcript r = _ from h .transcribe rfl,
    show (c.chunks.filter fun k => k.recordingId == r).map Chunk.toNewChunk = _ from h .embed rfl]
  rfl

end ScribeLocal.Server
