import Mathlib.Data.List.MinMax
import ScribeLocal.Asr.Trim
import ScribeLocal.Core.Types
import ScribeLocal.Table

/-!
# Naming a voice of a recording

`name_speaker` gives a voice of a recording to a speaker of the library, and with `enroll` makes
it that speaker's voiceprint. Similarities are exact numbers.
-/
namespace ScribeLocal.NameSpeaker
open Asr (trim)
open Table

variable {E K : Type*} [Field K] [LinearOrder K] {sim : E → E → K}

structure Speaker (E : Type*) where
  id : Uuid
  displayName : String
  embedding : Option E
  deriving DecidableEq

def Speaker.withEmbedding (s : Speaker E) (embedding : E) : Speaker E :=
  { s with embedding := some embedding }

theorem Speaker.withEmbedding_id (s : Speaker E) (embedding : E) :
    (s.withEmbedding embedding).id = s.id := rfl

/-- The `speakers` table. -/
structure Speakers (E : Type*) where
  rows : List (Speaker E)
  nextId : Uuid
  id_lt : ∀ s ∈ rows, s.id < nextId
  id_nodup : (rows.map Speaker.id).Nodup

/-- A row of `recording_speakers`. -/
structure RecordingSpeaker (E : Type*) where
  recordingId : Uuid
  localIdx : ℤ
  speakerId : Option Uuid
  embedding : Option E

/-- The tables that naming a voice reads and writes. -/
structure Library (E : Type*) where
  speakers : Speakers E
  recordingSpeakers : List (RecordingSpeaker E)

inductive Error
  | badRequest (message : String)
  | notFound (message : String)

/-! ## The queries -/

namespace Speakers

def createSpeaker (t : Speakers E) (displayName : String) (embedding : Option E) :
    Speaker E × Speakers E :=
  (⟨t.nextId, displayName, embedding⟩,
    { rows := t.rows ++ [⟨t.nextId, displayName, embedding⟩]
      nextId := t.nextId + 1
      id_lt := by
        intro s hs
        rw [List.mem_append, List.mem_singleton] at hs
        rcases hs with hs | rfl
        · exact (t.id_lt s hs).trans (Nat.lt_succ_self _)
        · exact Nat.lt_succ_self _
      id_nodup := by
        rw [List.map_append, List.nodup_append]
        refine ⟨t.id_nodup, List.nodup_singleton _, ?_⟩
        intro i hi j hj
        obtain ⟨s, hs, rfl⟩ := List.mem_map.mp hi
        obtain rfl := List.mem_singleton.mp hj
        exact (t.id_lt s hs).ne })

/-- `collate` is the order that the database sorts names by. -/
def listSpeakers (collate : String → String → Bool) (t : Speakers E) : List (Speaker E) :=
  t.rows.mergeSort fun a b => collate a.displayName b.displayName

def getSpeaker (t : Speakers E) (id : Uuid) : Except Error (Speaker E) :=
  match t.rows.find? fun s => s.id == id with
  | some s => .ok s
  | none => .error (.notFound ("speaker " ++ toString id))

/-- The table with the voiceprint in the row of this id. -/
def setEmbedding (t : Speakers E) (id : Uuid) (embedding : E) : Speakers E where
  rows := updateWhere (fun s => s.id == id) (fun s => s.withEmbedding embedding) t.rows
  nextId := t.nextId
  id_lt := by
    intro r hr
    obtain ⟨s, hs, rfl⟩ := mem_updateWhere.mp hr
    rw [@column_updateRow _ _ _ _ Speaker.id fun s => s.withEmbedding_id embedding]
    exact t.id_lt s hs
  id_nodup := by
    rw [@column_updateWhere _ _ _ _ _ Speaker.id fun s => s.withEmbedding_id embedding]
    exact t.id_nodup

def setSpeakerEmbedding (t : Speakers E) (id : Uuid) (embedding : E) :
    Except Error (Speakers E) :=
  if t.rows.any fun s => s.id == id then .ok (t.setEmbedding id embedding)
  else .error (.notFound ("speaker " ++ toString id))

end Speakers

/-- The rows with a voiceprint, each with its similarity to `e`. -/
def scored (sim : E → E → K) (rows : List (Speaker E)) (e : E) : List (Speaker E × K) :=
  rows.filterMap fun s => s.embedding.map fun v => (s, sim v e)

/-- The query `ORDER BY embedding <=> $1 LIMIT 1`. Of several nearest rows it gives any one. -/
structure NearestQuery (sim : E → E → K) where
  row : List (Speaker E) → E → Option (Speaker E × K)
  mem : ∀ {rows e c}, row rows e = some c → c ∈ scored sim rows e
  le : ∀ {rows e c}, row rows e = some c → ∀ d ∈ scored sim rows e, d.2 ≤ c.2
  none : ∀ {rows e}, row rows e = none → scored sim rows e = []

def duplicateVoiceSimilarity : K := 0.75

def matchSpeakerByEmbedding (q : NearestQuery sim) (rows : List (Speaker E)) (embedding : E)
    (threshold : K) : Option (Speaker E × K) :=
  match q.row rows embedding with
  | none => none
  | some (speaker, similarity) =>
    if similarity < threshold then none else some (speaker, similarity)

def nearestEnrolled (q : NearestQuery sim) (rows : List (Speaker E)) (embedding : E)
    (threshold : K) : Option (Speaker E × K) :=
  matchSpeakerByEmbedding q rows embedding threshold

def listRecordingSpeakers (t : List (RecordingSpeaker E)) (recordingId : Uuid) :
    List (RecordingSpeaker E) :=
  t.filter fun r => r.recordingId == recordingId

def isVoice (recordingId : Uuid) (localIdx : ℤ) (r : RecordingSpeaker E) : Bool :=
  r.recordingId == recordingId && r.localIdx == localIdx

def setRecordingSpeaker (t : List (RecordingSpeaker E)) (recordingId : Uuid) (localIdx : ℤ)
    (speakerId : Option Uuid) : Except Error (List (RecordingSpeaker E)) :=
  if t.any (isVoice recordingId localIdx) then
    .ok (updateWhere (isVoice recordingId localIdx) (fun r => { r with speakerId }) t)
  else
    .error (.notFound
      ("recording_speaker (" ++ toString recordingId ++ ", " ++ toString localIdx ++ ")"))

/-! ## The handler -/

structure NameBody where
  name : Option String
  speakerId : Option Uuid
  enroll : Bool
  replaceVoiceprint : Bool

structure Answer where
  localIdx : ℤ
  alreadyEnrolledAs : Option String
  speakerId : Uuid
  displayName : String
  enrolled : Bool

def NameBody.trimmed (body : NameBody) : String :=
  String.ofList (trim (body.name.getD "").toList)

def eqIgnoreAsciiCase (a b : String) : Bool :=
  a.toList.map Char.toLower == b.toList.map Char.toLower

/-- The speaker that the request means, made if there is none of the name. -/
def resolve (collate : String → String → Bool) (t : Speakers E) (voice : Option E)
    (body : NameBody) : Except Error (Speaker E × Speakers E) :=
  match body.speakerId with
  | some speakerId => (t.getSpeaker speakerId).map fun s => (s, t)
  | none =>
    match (t.listSpeakers collate).find? fun s => eqIgnoreAsciiCase s.displayName body.trimmed with
    | some s => .ok (s, t)
    | none => .ok (t.createSpeaker body.trimmed (if body.enroll then voice else none))

/-- The name of the nearest speaker, if that is another one and near enough. -/
def duplicateOf (q : NearestQuery sim) (rows : List (Speaker E)) (embedding : E) (id : Uuid) :
    Option String :=
  match nearestEnrolled q rows embedding duplicateVoiceSimilarity with
  | some (other, _) => if other.id ≠ id then some other.displayName else none
  | none => none

/-- What becomes of the voiceprint: `already_enrolled_as`, `enrolled` and the table. -/
def learn (q : NearestQuery sim) (t : Speakers E) (speaker : Speaker E) (voice : Option E)
    (body : NameBody) : Except Error (Option String × Bool × Speakers E) :=
  let enrolled := speaker.embedding.isSome
  match voice with
  | some embedding =>
    if body.enroll && (!enrolled || body.replaceVoiceprint) then do
      let already := duplicateOf q t.rows embedding speaker.id
      let t ← t.setSpeakerEmbedding speaker.id embedding
      return (already, true, t)
    else .ok (none, enrolled, t)
  | none => .ok (none, enrolled, t)

def nameSpeaker (q : NearestQuery sim) (collate : String → String → Bool) (lib : Library E)
    (id : Uuid) (localIdx : ℤ) (body : NameBody) : Except Error (Answer × Library E) := do
  if body.trimmed.isEmpty && body.speakerId.isNone then
    throw (.badRequest "one of name or speaker_id is required")
  match (listRecordingSpeakers lib.recordingSpeakers id).find? fun s => s.localIdx == localIdx with
  | none =>
    throw (.notFound
      ("speaker " ++ toString localIdx ++ " not found in recording " ++ toString id))
  | some recSpeaker =>
    let (speaker, t) ← resolve collate lib.speakers recSpeaker.embedding body
    let (already, enrolled, t) ← learn q t speaker recSpeaker.embedding body
    let voices ← setRecordingSpeaker lib.recordingSpeakers id localIdx (some speaker.id)
    return (⟨localIdx, already, speaker.id, speaker.displayName, enrolled⟩, ⟨t, voices⟩)

/-! ## What is claimed of the answer -/

/-- Whether the voiceprint of `s` is as similar to `e` as those of one person are. -/
def Similar (sim : E → E → K) (s : Speaker E) (e : E) : Prop :=
  ∃ v, s.embedding = some v ∧ duplicateVoiceSimilarity ≤ sim v e

/-- A speaker of the library other than `id` with a similar voiceprint. -/
def Duplicate (sim : E → E → K) (rows : List (Speaker E)) (id : Uuid) (e : E) (s : Speaker E) :
    Prop :=
  s ∈ rows ∧ s.id ≠ id ∧ Similar sim s e

/-- A duplicate is named if there is one, and nobody otherwise. -/
def Reports (sim : E → E → K) (rows : List (Speaker E)) (id : Uuid) (e : E)
    (already : Option String) : Prop :=
  ((∃ s, Duplicate sim rows id e s) →
      ∃ s, Duplicate sim rows id e s ∧ already = some s.displayName) ∧
    ((∀ s, ¬Duplicate sim rows id e s) → already = none)

/-- The request stores the voice `e` as the voiceprint of `speaker`, with `t` the table once that
speaker is in it. -/
structure Stores (collate : String → String → Bool) (lib : Library E) (id : Uuid) (localIdx : ℤ)
    (body : NameBody) (e : E) (speaker : Speaker E) (t : Speakers E) : Prop where
  named : body.trimmed.isEmpty = false ∨ body.speakerId.isSome
  voice : ∃ r, (listRecordingSpeakers lib.recordingSpeakers id).find?
    (fun s => s.localIdx == localIdx) = some r ∧ r.embedding = some e
  enrolls : body.enroll = true
  resolves : resolve collate lib.speakers (some e) body = .ok (speaker, t)
  stored : speaker ∉ lib.speakers.rows ∨ speaker.embedding = none ∨ body.replaceVoiceprint = true

/-! ## The speaker that is meant -/

variable {collate : String → String → Bool} {q : NearestQuery sim} {t t' : Speakers E}
  {rows : List (Speaker E)} {e : E} {s speaker : Speaker E} {body : NameBody}

omit [Field K] [LinearOrder K] in
theorem Speakers.eq_of_id {s' : Speaker E} (t : Speakers E) (hs : s ∈ t.rows) (hs' : s' ∈ t.rows)
    (hid : s.id = s'.id) : s = s' :=
  List.inj_on_of_nodup_map t.id_nodup hs hs' hid

/-- The speaker meant is one of the library, or a new one that already has the voice. -/
theorem resolve_cases (hres : resolve collate t (some e) body = .ok (speaker, t'))
    (henroll : body.enroll = true) :
    speaker ∈ t.rows ∧ t' = t ∨
      speaker ∉ t.rows ∧ speaker.embedding = some e ∧ t'.rows = t.rows ++ [speaker] := by
  unfold resolve at hres
  cases hspeaker : body.speakerId with
  | some speakerId =>
    rw [hspeaker] at hres
    simp only [Speakers.getSpeaker] at hres
    split at hres
    case h_1 s hfind =>
      cases hres
      exact .inl ⟨List.mem_of_find?_eq_some hfind, rfl⟩
    case h_2 => cases hres
  | none =>
    rw [hspeaker] at hres
    dsimp only at hres
    split at hres
    case h_1 s hfind =>
      cases hres
      exact .inl ⟨List.mem_mergeSort.mp (List.mem_of_find?_eq_some hfind), rfl⟩
    case h_2 =>
      rw [if_pos henroll] at hres
      cases hres
      refine .inr ⟨fun hmem => ?_, rfl, rfl⟩
      exact absurd (t.id_lt _ hmem) (lt_irrefl _)

/-- The others are the same in both tables. -/
theorem duplicate_iff (hres : resolve collate t (some e) body = .ok (speaker, t'))
    (henroll : body.enroll = true) :
    Duplicate sim t'.rows speaker.id e s ↔ Duplicate sim t.rows speaker.id e s := by
  rcases resolve_cases hres henroll with ⟨-, rfl⟩ | ⟨-, -, hrows⟩
  · rfl
  · unfold Duplicate
    rw [hrows, List.mem_append, List.mem_singleton]
    constructor
    · rintro ⟨hmem | rfl, hne, hsim⟩
      · exact ⟨hmem, hne, hsim⟩
      · exact absurd rfl hne
    · rintro ⟨hmem, hne, hsim⟩
      exact ⟨.inl hmem, hne, hsim⟩

theorem mem_of_resolve (hres : resolve collate t (some e) body = .ok (speaker, t'))
    (henroll : body.enroll = true) : speaker ∈ t'.rows := by
  rcases resolve_cases hres henroll with ⟨hmem, rfl⟩ | ⟨-, -, hrows⟩
  · exact hmem
  · rw [hrows]
    exact List.mem_append_right _ (List.mem_singleton_self _)

/-! ## The nearest voiceprint -/

omit [Field K] [LinearOrder K] in
theorem mem_scored {c : Speaker E × K} :
    c ∈ scored sim rows e ↔ c.1 ∈ rows ∧ ∃ v, c.1.embedding = some v ∧ sim v e = c.2 := by
  obtain ⟨s, x⟩ := c
  simp only [scored, List.mem_filterMap, Option.map_eq_some_iff, Prod.mk.injEq]
  constructor
  · rintro ⟨s', hs', v, hv, rfl, rfl⟩
    exact ⟨hs', v, hv, rfl⟩
  · rintro ⟨hs, v, hv, rfl⟩
    exact ⟨s, hs, v, hv, rfl, rfl⟩

/-- Nothing is nearer than the nearest row. -/
theorem not_similar_of_lt {c : Speaker E × K} (hrow : q.row rows e = some c)
    (hlt : c.2 < duplicateVoiceSimilarity) (hs : s ∈ rows) : ¬Similar sim s e := by
  rintro ⟨v, hv, hsim⟩
  have hle := q.le hrow (s, sim v e) (mem_scored.mpr ⟨hs, v, hv, rfl⟩)
  exact absurd (hsim.trans hle) (not_le.mpr hlt)

theorem not_similar_of_none (hrow : q.row rows e = none) (hs : s ∈ rows) : ¬Similar sim s e := by
  rintro ⟨v, hv, -⟩
  have hmem : (s, sim v e) ∈ scored sim rows e := mem_scored.mpr ⟨hs, v, hv, rfl⟩
  rw [q.none hrow] at hmem
  cases hmem

/-- Naming nobody is right exactly if there is no duplicate. -/
theorem reports_none_iff {id : Uuid} :
    Reports sim rows id e none ↔ ∀ s, ¬Duplicate sim rows id e s := by
  constructor
  · rintro ⟨hnames, -⟩ s hs
    obtain ⟨s', -, hsome⟩ := hnames ⟨s, hs⟩
    cases hsome
  · intro hno
    exact ⟨fun ⟨s, hs⟩ => absurd hs (hno s), fun _ => rfl⟩

/-- The check is right if the nearest voiceprint is another speaker's, or nobody has one. -/
theorem reports_duplicateOf {id : Uuid}
    (hother : ∀ c, q.row rows e = some c → c.1.id ≠ id) :
    Reports sim rows id e (duplicateOf q rows e id) := by
  unfold duplicateOf nearestEnrolled matchSpeakerByEmbedding
  cases hrow : q.row rows e with
  | none => exact reports_none_iff.mpr fun s hs => not_similar_of_none hrow hs.1 hs.2.2
  | some c =>
    obtain ⟨other, x⟩ := c
    by_cases hlt : x < duplicateVoiceSimilarity
    · simp only [if_pos hlt]
      exact reports_none_iff.mpr fun s hs => not_similar_of_lt hrow hlt hs.1 hs.2.2
    · obtain ⟨hmem, v, hv, hx⟩ := mem_scored.mp (q.mem hrow)
      have hsim : Similar sim other e := ⟨v, hv, by rw [hx]; exact not_lt.mp hlt⟩
      have hdup : Duplicate sim rows id e other := ⟨hmem, hother _ hrow, hsim⟩
      simp only [if_neg hlt, if_pos (hother _ hrow)]
      exact ⟨fun _ => ⟨other, hdup, rfl⟩, fun hno => absurd hdup (hno other)⟩

/-- The check finds nobody where the nearest voiceprint is the speaker's own. -/
theorem duplicateOf_self {c : Speaker E × K} (hrow : q.row rows e = some c) :
    duplicateOf q rows e c.1.id = none := by
  unfold duplicateOf nearestEnrolled matchSpeakerByEmbedding
  obtain ⟨own, x⟩ := c
  rw [hrow]
  dsimp only
  split
  case h_1 other y heq =>
    split at heq
    · cases heq
    · cases heq
      exact if_neg fun hne => hne rfl
  case h_2 => rfl

/-- The check is right exactly if there is no duplicate, or the nearest voiceprint is not the
speaker's own. -/
theorem reports_duplicateOf_iff {id : Uuid} :
    Reports sim rows id e (duplicateOf q rows e id) ↔
      (∀ s, ¬Duplicate sim rows id e s) ∨ ∃ c, q.row rows e = some c ∧ c.1.id ≠ id := by
  cases hrow : q.row rows e with
  | none =>
    have hother : ∀ c, q.row rows e = some c → c.1.id ≠ id := by
      intro c hc
      rw [hrow] at hc
      cases hc
    refine iff_of_true (reports_duplicateOf hother) (.inl fun s hs => ?_)
    exact not_similar_of_none hrow hs.1 hs.2.2
  | some c =>
    by_cases hid : c.1.id = id
    · rw [← hid, duplicateOf_self hrow, reports_none_iff]
      simp
    · have hother : ∀ d, q.row rows e = some d → d.1.id ≠ id := by
        intro d hd
        rw [hrow] at hd
        cases hd
        exact hid
      exact iff_of_true (reports_duplicateOf hother) (.inr ⟨c, rfl, hid⟩)

/-- A speaker without a voiceprint is not the nearest one. -/
theorem reports_of_embedding_none (hspeaker : speaker ∈ t.rows) (hnone : speaker.embedding = none) :
    Reports sim t.rows speaker.id e (duplicateOf q t.rows e speaker.id) := by
  refine reports_duplicateOf fun c hrow hid => ?_
  obtain ⟨hmem, v, hv, -⟩ := mem_scored.mp (q.mem hrow)
  rw [t.eq_of_id hmem hspeaker hid, hnone] at hv
  cases hv

/-! ## The answer -/

variable {lib : Library E} {id : Uuid} {localIdx : ℤ}

/-- The request stores the voice, and answers with what the check finds if it is made. -/
theorem nameSpeaker_of_stores (q : NearestQuery sim)
    (h : Stores collate lib id localIdx body e speaker t) :
    ∃ lib', nameSpeaker q collate lib id localIdx body =
        .ok (⟨localIdx, if !speaker.embedding.isSome || body.replaceVoiceprint then
          duplicateOf q t.rows e speaker.id else none, speaker.id, speaker.displayName, true⟩,
          lib') ∧
      ∃ s ∈ lib'.speakers.rows, s.id = speaker.id ∧ s.embedding = some e := by
  obtain ⟨r, hfind, hvoice⟩ := h.voice
  have hnamed : (body.trimmed.isEmpty && body.speakerId.isNone) = false := by
    rw [Bool.and_eq_false_iff]
    exact h.named.imp_right fun hsome => by simpa using hsome
  have hmem := mem_of_resolve h.resolves h.enrolls
  have hset : t.setSpeakerEmbedding speaker.id e = .ok (t.setEmbedding speaker.id e) :=
    if_pos (List.any_eq_true.mpr ⟨speaker, hmem, beq_self_eq_true speaker.id⟩)
  have hvoices : setRecordingSpeaker lib.recordingSpeakers id localIdx (some speaker.id) =
      .ok (updateWhere (isVoice id localIdx) (fun r => { r with speakerId := some speaker.id })
        lib.recordingSpeakers) := by
    have hr := List.mem_filter.mp (List.mem_of_find?_eq_some hfind)
    have hidx := List.find?_some hfind
    exact if_pos (List.any_eq_true.mpr ⟨r, hr.1, by simp only [isVoice, hr.2, hidx, Bool.and_self]⟩)
  unfold nameSpeaker
  rw [hnamed, hfind]
  simp only [hvoice, h.resolves, bind, Except.bind, learn, h.enrolls, Bool.true_and]
  cases hchecked : !speaker.embedding.isSome || body.replaceVoiceprint with
  | true =>
    simp only [if_true, hset, hvoices]
    refine ⟨_, rfl, speaker.withEmbedding e, ?_, rfl, rfl⟩
    exact mem_updateWhere.mpr ⟨speaker, hmem, updateRow_of_pos (beq_self_eq_true speaker.id)⟩
  | false =>
    -- without the check the speaker is a new one, and has the voice already
    rw [Bool.or_eq_false_iff, Bool.not_eq_false', Option.isSome_iff_ne_none] at hchecked
    have hnew : speaker ∉ lib.speakers.rows := by
      rcases h.stored with hnew | hnone | hreplace
      · exact hnew
      · exact absurd hnone hchecked.1
      · rw [hchecked.2] at hreplace
        cases hreplace
    have hsome : speaker.embedding = some e := by
      rcases resolve_cases h.resolves h.enrolls with ⟨hold, -⟩ | ⟨-, hsome, -⟩
      · exact absurd hold hnew
      · exact hsome
    simp only [Bool.false_eq_true, if_false, hvoices, hsome, Option.isSome_some]
    exact ⟨_, rfl, speaker, hmem, rfl, hsome⟩

/-- The answer is right exactly if there is no duplicate, or the speaker was in the library
without a voiceprint, or the voiceprint is to be replaced and the nearest one is another's. -/
theorem reports_iff (q : NearestQuery sim) (h : Stores collate lib id localIdx body e speaker t) :
    ∃ answer lib', nameSpeaker q collate lib id localIdx body = .ok (answer, lib') ∧
      (∃ s ∈ lib'.speakers.rows, s.id = speaker.id ∧ s.embedding = some e) ∧
      (Reports sim lib.speakers.rows speaker.id e answer.alreadyEnrolledAs ↔
        (∀ s, ¬Duplicate sim lib.speakers.rows speaker.id e s) ∨
          speaker ∈ lib.speakers.rows ∧ speaker.embedding = none ∨
          body.replaceVoiceprint = true ∧
            ∃ c, q.row t.rows e = some c ∧ c.1.id ≠ speaker.id) := by
  obtain ⟨lib', hok, hstored⟩ := nameSpeaker_of_stores q h
  refine ⟨_, lib', hok, hstored, ?_⟩
  have hreports : ∀ already, Reports sim lib.speakers.rows speaker.id e already ↔
      Reports sim t.rows speaker.id e already := by
    intro already
    simp only [Reports, duplicate_iff h.resolves h.enrolls]
  have hnone : (∀ s, ¬Duplicate sim t.rows speaker.id e s) ↔
      ∀ s, ¬Duplicate sim lib.speakers.rows speaker.id e s :=
    forall_congr' fun s => not_congr (duplicate_iff h.resolves h.enrolls)
  dsimp only
  rw [hreports, ← hnone]
  by_cases hembedding : speaker.embedding = none
  · have hold : speaker ∈ lib.speakers.rows := by
      rcases resolve_cases h.resolves h.enrolls with ⟨hold, -⟩ | ⟨-, hsome, -⟩
      · exact hold
      · rw [hembedding] at hsome
        cases hsome
    have hcheck : Reports sim t.rows speaker.id e (duplicateOf q t.rows e speaker.id) :=
      reports_of_embedding_none (mem_of_resolve h.resolves h.enrolls) hembedding
    rw [if_pos (by rw [hembedding]; rfl)]
    exact iff_of_true hcheck (.inr (.inl ⟨hold, hembedding⟩))
  · have hsome : speaker.embedding.isSome = true := Option.isSome_iff_ne_none.mpr hembedding
    simp only [hsome, hembedding, Bool.not_true, Bool.false_or, and_false, false_or]
    cases hreplace : body.replaceVoiceprint with
    | false =>
      -- no check is made
      rw [if_neg Bool.false_ne_true, reports_none_iff]
      simp
    | true =>
      rw [if_pos rfl, reports_duplicateOf_iff]
      simp

/-! ## One voice enrolled twice -/

/-- The cosine of two axes. -/
def axisSim (v w : Fin 192) : ℚ := if v = w then 1 else 0

/-- The query that gives the first of the nearest rows. -/
def NearestQuery.first (sim : E → E → K) : NearestQuery sim where
  row rows e := (scored sim rows e).argmax Prod.snd
  mem h := List.argmax_mem h
  le h _ hd := List.le_of_mem_argmax hd h
  none h := List.argmax_eq_none.mp h

def ada : Speaker (Fin 192) := ⟨1, "Ada", some 0⟩

/-- Ada is enrolled, and her voice is heard in recording 7. -/
def heardAgain : Library (Fin 192) where
  speakers := ⟨[ada], 2, by decide, by decide⟩
  recordingSpeakers := [⟨7, 0, none, some 0⟩]

def enrollBob (replaceVoiceprint : Bool) : NameBody := ⟨some "Bob", none, true, replaceVoiceprint⟩

theorem resolve_bob (replaceVoiceprint : Bool) :
    resolve (fun _ _ => true) heardAgain.speakers (some 0) (enrollBob replaceVoiceprint) =
      .ok (heardAgain.speakers.createSpeaker "Bob" (some 0)) := by
  have hname : (enrollBob replaceVoiceprint).trimmed = "Bob" := by
    cases replaceVoiceprint <;> decide
  have hother : eqIgnoreAsciiCase "Ada" "Bob" = false := by decide
  have hlist : heardAgain.speakers.listSpeakers (fun _ _ => true) = [ada] :=
    List.mergeSort_singleton ada
  unfold resolve
  simp only [hname, hlist, List.find?_singleton, ada, hother]
  rfl

theorem stores_bob (replaceVoiceprint : Bool) :
    Stores (fun _ _ => true) heardAgain 7 0 (enrollBob replaceVoiceprint) (0 : Fin 192)
      ⟨2, "Bob", some 0⟩ (heardAgain.speakers.createSpeaker "Bob" (some 0)).2 where
  named := .inl (by cases replaceVoiceprint <;> decide)
  voice := ⟨⟨7, 0, none, some 0⟩, rfl, rfl⟩
  enrolls := rfl
  resolves := resolve_bob replaceVoiceprint
  stored := .inl (by decide)

/-- With `replace_voiceprint` the check is made, and finds Ada, who comes first. -/
theorem reports_bob : ∃ answer lib',
    nameSpeaker (.first axisSim) (fun _ _ => true) heardAgain 7 0 (enrollBob true) =
        .ok (answer, lib') ∧
      Reports axisSim heardAgain.speakers.rows 2 0 answer.alreadyEnrolledAs := by
  obtain ⟨answer, lib', hok, -, hiff⟩ := reports_iff (.first axisSim) (stores_bob true)
  exact ⟨answer, lib', hok, hiff.mpr (.inr (.inr ⟨rfl, (ada, 1), rfl, by decide⟩))⟩

/-- Bob is made with the voice, which is then not checked, and Ada is not named. -/
theorem not_reports :
    ¬∀ (collate : String → String → Bool) (lib : Library (Fin 192)) (id : Uuid) (localIdx : ℤ)
      (body : NameBody) (e : Fin 192) (speaker : Speaker (Fin 192)) (t : Speakers (Fin 192)),
      Stores collate lib id localIdx body e speaker t →
      ∃ answer lib', nameSpeaker (.first axisSim) collate lib id localIdx body =
          .ok (answer, lib') ∧
        Reports axisSim lib.speakers.rows speaker.id e answer.alreadyEnrolledAs := by
  intro h
  obtain ⟨answer, lib', hok, hreports⟩ := h _ _ _ _ _ _ _ _ (stores_bob false)
  obtain ⟨lib'', hok', -⟩ := nameSpeaker_of_stores (.first axisSim) (stores_bob false)
  rw [hok] at hok'
  cases hok'
  have hada : Duplicate axisSim heardAgain.speakers.rows 2 0 ada :=
    ⟨List.mem_singleton_self _, by decide, 0, rfl, by decide +kernel⟩
  exact reports_none_iff.mp hreports ada hada

end ScribeLocal.NameSpeaker
