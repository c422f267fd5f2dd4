import ScribeLocal.Api.Library

/-!
# Requests on the speaker library

Handlers of the server name a voice, clear its name or drop it, rename a speaker and forget one;
commands enroll a sample, rename, forget and merge. Each is served as a whole here, as the
statements that it executes. Two entries of one name stop a voice being recognised, and only a
rename can leave them behind.
-/
namespace ScribeLocal.NameSpeaker
open Asr (trim)
open Table Transition

variable {E K : Type*} [Field K] [LinearOrder K] {sim : E → E → K}

/-! ## The requests -/

structure SpeakerView where
  id : Uuid
  displayName : String
  hasVoiceprint : Bool
  recordingCount : ℕ

def SpeakerView.new (s : Speaker E) (recordingCount : ℕ) : SpeakerView :=
  ⟨s.id, s.displayName, s.embedding.isSome, recordingCount⟩

/-- `count(DISTINCT recording_id)` of the voices of a speaker. -/
def Library.recordingCount (lib : Library E) (id : Uuid) : ℕ :=
  ((lib.recordingSpeakers.filter (RecordingSpeaker.isOf id)).map
    RecordingSpeaker.recordingId).dedup.length

def listSpeakersWithUsage (collate : String → String → Bool) (lib : Library E) :
    List (Speaker E × ℕ) :=
  (lib.speakers.listSpeakers collate).map fun s => (s, lib.recordingCount s.id)

def unnameSpeaker (lib : Library E) (id : Uuid) (localIdx : ℤ) : Except Error (Library E) := do
  let voices ← setRecordingSpeaker lib.recordingSpeakers id localIdx none
  return lib.withVoices voices

def renameSpeaker (collate : String → String → Bool) (lib : Library E) (id : Uuid)
    (name : String) : Except Error (SpeakerView × Library E) := do
  let name := String.ofList (trim name.toList)
  if name.isEmpty then
    throw (.badRequest "name must not be empty")
  let t ← lib.speakers.renameSpeaker id name
  let lib := { lib with speakers := t }
  let speaker ← lib.speakers.getSpeaker id
  let count := ((listSpeakersWithUsage collate lib).find? fun x => x.1.id == id).elim 0 Prod.snd
  return (.new speaker count, lib)

def deleteSpeaker (lib : Library E) (id : Uuid) : Except Error (Library E) :=
  if lib.speakers.has id then .ok (lib.erase id)
  else .error (.notFound ("speaker " ++ toString id))

/-- The lines of the voice, which go with it, are in another table. -/
def deleteRecordingSpeaker (lib : Library E) (id : Uuid) (localIdx : ℤ) :
    Except Error (Library E) :=
  if lib.recordingSpeakers.any (isVoice id localIdx) then
    .ok (lib.withVoices (deleteWhere (isVoice id localIdx) lib.recordingSpeakers))
  else
    .error (.notFound
      ("recording_speaker (" ++ toString id ++ ", " ++ toString localIdx ++ ")"))

inductive CommandError
  | bail (message : String)
  | pipeline (message : String)
  | error (e : Error)

/-- `scribe speaker rename`, which takes the name as it is given. -/
def speakerRename (lib : Library E) (id : Uuid) (newName : String) :
    Except CommandError (Library E) := do
  let t ← (lib.speakers.renameSpeaker id newName).mapError .error
  return { lib with speakers := t }

/-- The answer is the number of voices that are reassigned. -/
def mergeSpeakers (lib : Library E) (fromId intoId : Uuid) :
    Except CommandError (ℕ × Library E) := do
  if fromId = intoId then
    throw (.bail ("cannot merge a speaker into itself (" ++ toString fromId ++ ")"))
  let _ ← (lib.speakers.getSpeaker fromId).mapError .error
  let _ ← (lib.speakers.getSpeaker intoId).mapError .error
  return (lib.recordingSpeakers.countP (RecordingSpeaker.isOf fromId), lib.merge fromId intoId)

/-- `sample` is what finding, transcoding and embedding the audio comes to. -/
def enroll (collate : String → String → Bool) (lib : Library E) (name : String)
    (sample : Except CommandError E) (replace : Bool) :
    Except CommandError (Uuid × Library E) := do
  let embedding ← sample
  match (lib.speakers.listSpeakers collate).find? fun s => eqIgnoreAsciiCase s.displayName name with
  | some s =>
    if !replace then
      throw (.error (.badRequest ("`" ++ name ++ "` is already enrolled (" ++ toString s.id ++
        "). Pass --replace to give them this voice sample instead, which is what you want if the " ++
        "first one was poor; a second entry for one voice stops them being recognised at all.")))
    let t ← (lib.speakers.setSpeakerEmbedding s.id embedding).mapError .error
    return (s.id, { lib with speakers := t })
  | none =>
    let (speaker, t) := lib.speakers.createSpeaker name (some embedding)
    return (speaker.id, { lib with speakers := t })

inductive Request (E : Type*)
  | name (id : Uuid) (localIdx : ℤ) (body : NameBody)
  | unname (id : Uuid) (localIdx : ℤ)
  | drop (id : Uuid) (localIdx : ℤ)
  | rename (id : Uuid) (name : String)
  | delete (id : Uuid)
  | speakerRename (id : Uuid) (newName : String)
  | merge (fromId intoId : Uuid)
  | enroll (name : String) (sample : Except CommandError E) (replace : Bool)

/-- What a request leaves behind, which is what it found if it fails. -/
def Library.serve (q : NearestQuery sim) (collate : String → String → Bool) (lib : Library E) :
    Request E → Library E
  | .name id localIdx body =>
    (nameSpeaker q collate lib id localIdx body).toOption.elim lib Prod.snd
  | .unname id localIdx => (unnameSpeaker lib id localIdx).toOption.getD lib
  | .drop id localIdx => (deleteRecordingSpeaker lib id localIdx).toOption.getD lib
  | .rename id name => (renameSpeaker collate lib id name).toOption.elim lib Prod.snd
  | .delete id => (deleteSpeaker lib id).toOption.getD lib
  | .speakerRename id newName => (speakerRename lib id newName).toOption.getD lib
  | .merge fromId intoId => (mergeSpeakers lib fromId intoId).toOption.elim lib Prod.snd
  | .enroll name sample replace =>
    (NameSpeaker.enroll collate lib name sample replace).toOption.elim lib Prod.snd

/-! ## Two entries of one name -/

/-- No two speakers have the same name, but for case. -/
def Speakers.Distinct (t : Speakers E) : Prop :=
  ∀ s ∈ t.rows, ∀ s' ∈ t.rows, eqIgnoreAsciiCase s.displayName s'.displayName = true → s = s'

/-- The statement leaves no two entries of one name if there were none. -/
def Statement.Free (lib : Library E) : Statement E → Prop
  | .createSpeaker displayName _ =>
    ∀ s ∈ lib.speakers.rows, eqIgnoreAsciiCase s.displayName displayName = false
  | .renameSpeaker id displayName =>
    ∀ s ∈ lib.speakers.rows, s.id ≠ id → eqIgnoreAsciiCase s.displayName displayName = false
  | _ => True

/-- The name that a request means to give to a speaker of the library. -/
def Request.newName : Request E → Option (Uuid × String)
  | .rename id displayName =>
    if (String.ofList (trim displayName.toList)).isEmpty then none
    else some (id, String.ofList (trim displayName.toList))
  | .speakerRename id displayName => some (id, displayName)
  | _ => none

/-- A rename gives no speaker another's name. -/
def Library.Free (lib : Library E) (r : Request E) : Prop :=
  ∀ id name, r.newName = some (id, name) → lib.speakers.has id = true →
    (Statement.renameSpeaker id name).Free lib

variable {q : NearestQuery sim} {collate : String → String → Bool} {lib lib' : Library E}
  {t t' : Speakers E} {s : Speaker E} {id : Uuid} {name : String} {r : Request E}
  {a : Statement E}

theorem eqIgnoreAsciiCase_iff {a b : String} :
    eqIgnoreAsciiCase a b = true ↔ a.toList.map Char.toLower = b.toList.map Char.toLower :=
  beq_iff_eq

theorem eqIgnoreAsciiCase_comm (a b : String) :
    eqIgnoreAsciiCase a b = eqIgnoreAsciiCase b a := by
  rw [Bool.eq_iff_iff, eqIgnoreAsciiCase_iff, eqIgnoreAsciiCase_iff]
  exact eq_comm

theorem Speakers.Distinct.erase (h : t.Distinct) : (t.erase id).Distinct :=
  fun s hs s' hs' => h s (mem_deleteWhere.mp hs).1 s' (mem_deleteWhere.mp hs').1

theorem Speakers.Distinct.setEmbedding (h : t.Distinct) {e : E} :
    (t.setEmbedding id e).Distinct := by
  intro s hs s' hs' hname
  rcases mem_updateWhere.mp hs with ⟨r, hr, rfl⟩
  rcases mem_updateWhere.mp hs' with ⟨r', hr', rfl⟩
  have hkeep : ∀ r : Speaker E,
      (updateRow (fun s => s.id == id) (fun s => s.withEmbedding e) r).displayName =
        r.displayName := column_updateRow fun _ => rfl
  rw [hkeep, hkeep] at hname
  rw [h r hr r' hr' hname]

/-- A new entry leaves two of one name exactly if the name is another's. -/
theorem Speakers.Distinct.createSpeaker_iff (h : t.Distinct) {embedding : Option E} :
    (t.createSpeaker name embedding).2.Distinct ↔
      ∀ s ∈ t.rows, eqIgnoreAsciiCase s.displayName name = false := by
  constructor
  · intro hdistinct s hs
    rw [Bool.eq_false_iff]
    intro hname
    have hnew : (⟨t.nextId, name, embedding⟩ : Speaker E) ∈ (t.createSpeaker name embedding).2.rows :=
      List.mem_append_right _ List.mem_cons_self
    have hsame := hdistinct s (List.mem_append_left _ hs) _ hnew hname
    exact (t.id_lt s hs).ne (congrArg Speaker.id hsame)
  · intro hfree s hs s' hs' hname
    rcases List.mem_append.mp hs with hs | hs
    · rcases List.mem_append.mp hs' with hs' | hs'
      · exact h s hs s' hs' hname
      · rw [List.mem_singleton.mp hs'] at hname
        exact absurd hname (Bool.eq_false_iff.mp (hfree s hs))
    · rcases List.mem_append.mp hs' with hs' | hs'
      · rw [List.mem_singleton.mp hs, eqIgnoreAsciiCase_comm] at hname
        exact absurd hname (Bool.eq_false_iff.mp (hfree s' hs'))
      · rw [List.mem_singleton.mp hs, List.mem_singleton.mp hs']

theorem mem_setName : s ∈ (t.setName id name).rows ↔
    s ∈ t.rows ∧ s.id ≠ id ∨ ∃ r ∈ t.rows, r.id = id ∧ s = r.withName name := by
  rw [Speakers.setName, mem_updateWhere]
  constructor
  · rintro ⟨r, hr, rfl⟩
    unfold updateRow
    split
    · rename_i hid
      exact .inr ⟨r, hr, beq_iff_eq.mp hid, rfl⟩
    · rename_i hid
      exact .inl ⟨hr, fun h => hid (beq_iff_eq.mpr h)⟩
  · rintro (⟨hs, hid⟩ | ⟨r, hr, hid, rfl⟩)
    · exact ⟨s, hs, updateRow_of_neg (p := fun s : Speaker E => s.id == id)
        (beq_eq_false_iff_ne.mpr hid)⟩
    · exact ⟨r, hr, updateRow_of_pos (p := fun s : Speaker E => s.id == id)
        (beq_iff_eq.mpr hid)⟩

/-- A rename leaves two entries of one name exactly if the name is another's. -/
theorem Speakers.Distinct.setName_iff (h : t.Distinct) (hid : t.has id = true) :
    (t.setName id name).Distinct ↔
      ∀ s ∈ t.rows, s.id ≠ id → eqIgnoreAsciiCase s.displayName name = false := by
  constructor
  · intro hdistinct s hs hne
    rcases List.any_eq_true.mp hid with ⟨r, hr, hrid⟩
    have hold : s ∈ (t.setName id name).rows := mem_setName.mpr (.inl ⟨hs, hne⟩)
    have hrenamed : r.withName name ∈ (t.setName id name).rows :=
      mem_setName.mpr (.inr ⟨r, hr, beq_iff_eq.mp hrid, rfl⟩)
    rw [Bool.eq_false_iff]
    intro hname
    have hsame := hdistinct s hold _ hrenamed hname
    exact hne ((congrArg Speaker.id hsame).trans (beq_iff_eq.mp hrid))
  · intro hfree s hs s' hs' hname
    rcases mem_setName.mp hs with ⟨hold, hne⟩ | ⟨r, hr, hrid, rfl⟩
    · rcases mem_setName.mp hs' with ⟨hold', -⟩ | ⟨r', -, -, rfl⟩
      · exact h s hold s' hold' hname
      · exact absurd hname (Bool.eq_false_iff.mp (hfree s hold hne))
    · rcases mem_setName.mp hs' with ⟨hold', hne'⟩ | ⟨r', hr', hrid', rfl⟩
      · rw [eqIgnoreAsciiCase_comm] at hname
        exact absurd hname (Bool.eq_false_iff.mp (hfree s' hold' hne'))
      · rw [t.eq_of_id hr hr' (hrid.trans hrid'.symm)]

/-- One statement keeps the names apart exactly if it is free to. -/
theorem distinct_execute_iff (h : lib.speakers.Distinct) (hstep : lib.execute a = some lib') :
    lib'.speakers.Distinct ↔ a.Free lib := by
  cases a with
  | createSpeaker displayName embedding =>
    cases hstep
    exact h.createSpeaker_iff
  | setSpeakerEmbedding id e =>
    rcases Option.ite_none_right_eq_some.mp hstep with ⟨-, hlib⟩
    cases hlib
    exact iff_of_true h.setEmbedding trivial
  | renameSpeaker id displayName =>
    rcases Option.ite_none_right_eq_some.mp hstep with ⟨hid, hlib⟩
    cases hlib
    exact h.setName_iff hid
  | deleteSpeaker id =>
    rcases Option.ite_none_right_eq_some.mp hstep with ⟨-, hlib⟩
    cases hlib
    exact iff_of_true h.erase trivial
  | mergeDelete fromId =>
    cases hstep
    exact iff_of_true h.erase trivial
  | pruneRecordingSpeakers recordingId keep =>
    cases hstep
    exact iff_of_true h trivial
  | deleteRecordingSpeakers recordingId =>
    cases hstep
    exact iff_of_true h trivial
  | _ =>
    rcases Option.ite_none_right_eq_some.mp hstep with ⟨-, hlib⟩
    cases hlib
    exact iff_of_true h trivial

/-- The library is written by statements that keep the names apart. -/
def Library.Writes (lib lib' : Library E) : Prop :=
  ∃ tr, Run Library.execute Statement.Free lib tr lib'

theorem Library.Writes.refl : lib.Writes lib := ⟨[], .nil⟩

theorem Library.Writes.one (a : Statement E) (hfree : a.Free lib)
    (hstep : lib.execute a = some lib') : lib.Writes lib' :=
  ⟨[a], .snoc a .nil hfree hstep⟩

theorem Library.Writes.trans {lib₁ : Library E} (h : lib.Writes lib₁) (h' : lib₁.Writes lib') :
    lib.Writes lib' := by
  rcases h with ⟨tr, hrun⟩
  rcases h' with ⟨tr', hrun'⟩
  exact ⟨tr ++ tr', hrun.trans hrun'⟩

theorem Library.Writes.distinct (h : lib.Writes lib') (hd : lib.speakers.Distinct) :
    lib'.speakers.Distinct := by
  rcases h with ⟨tr, hrun⟩
  exact @Run.invariant _ _ Library.execute _ (fun lib => lib.speakers.Distinct) _ _ _ hrun hd
    fun _ _ _ hd hfree hstep => (distinct_execute_iff hd hstep).mpr hfree

/-! ## One request -/

theorem ok_of_bind {ε α β : Type*} {x : Except ε α} {f : α → Except ε β} {b : β}
    (h : x.bind f = .ok b) : ∃ a, x = .ok a ∧ f a = .ok b := by
  cases x with
  | error e => cases h
  | ok a => exact ⟨a, rfl, h⟩

theorem ok_of_mapError {ε ε' α : Type*} {x : Except ε α} {f : ε → ε'} {a : α}
    (h : x.mapError f = .ok a) : x = .ok a := by
  cases x with
  | error e => cases h
  | ok b =>
    cases h
    rfl

theorem has_of_getSpeaker (h : t.getSpeaker id = .ok s) : t.has id = true ∧ s.id = id := by
  unfold Speakers.getSpeaker at h
  split at h
  · rename_i s' hs'
    cases h
    have hrow : t.row id = some s := hs'
    exact ⟨has_iff.mpr (hrow ▸ rfl), id_of_row hrow⟩
  · cases h

theorem setEmbedding_of_ok {e : E} (h : t.setSpeakerEmbedding id e = .ok t') :
    t.has id = true ∧ t' = t.setEmbedding id e := by
  unfold Speakers.setSpeakerEmbedding at h
  split at h
  · rename_i hid
    cases h
    exact ⟨hid, rfl⟩
  · cases h

theorem free_of_find?
    (h : (t.listSpeakers collate).find? (fun s => eqIgnoreAsciiCase s.displayName name) = none) :
    ∀ s ∈ t.rows, eqIgnoreAsciiCase s.displayName name = false := by
  intro s hs
  exact Bool.eq_false_iff.mpr (List.find?_eq_none.mp h s (List.mem_mergeSort.mpr hs))

/-- The speaker that a naming means is in the table, where it may be new. -/
theorem resolve_writes {voice : Option E} {body : NameBody}
    (h : resolve collate lib.speakers voice body = .ok (s, t)) :
    t.has s.id = true ∧ lib.Writes { lib with speakers := t } := by
  unfold resolve at h
  cases hspeaker : body.speakerId with
  | some speakerId =>
    rw [hspeaker] at h
    dsimp only at h
    cases hget : lib.speakers.getSpeaker speakerId with
    | error e =>
      rw [hget] at h
      cases h
    | ok s₀ =>
      rw [hget] at h
      cases h
      have hhas := has_of_getSpeaker hget
      exact ⟨hhas.2.symm ▸ hhas.1, .refl⟩
  | none =>
    rw [hspeaker] at h
    dsimp only at h
    split at h
    case h_1 s₀ hfind =>
      cases h
      have hmem : s ∈ lib.speakers.rows := List.mem_mergeSort.mp (List.mem_of_find?_eq_some hfind)
      exact ⟨List.any_eq_true.mpr ⟨s, hmem, beq_self_eq_true _⟩, .refl⟩
    case h_2 hnone =>
      have hnew : (lib.speakers.createSpeaker body.trimmed
          (if body.enroll then voice else none)).2.has lib.speakers.nextId = true := by
        rw [has_iff, row_createSpeaker, if_pos rfl]
        rfl
      cases h
      exact ⟨hnew, .one
        (.createSpeaker body.trimmed (if body.enroll then voice else none))
        (free_of_find? hnone) rfl⟩

theorem learn_writes {voice : Option E} {body : NameBody} {already : Option String}
    {enrolled : Bool}
    (h : learn q lib.speakers s voice body = .ok (already, enrolled, t)) :
    (∀ k, t.has k = lib.speakers.has k) ∧ lib.Writes { lib with speakers := t } := by
  unfold learn at h
  cases voice with
  | none =>
    cases h
    exact ⟨fun _ => rfl, .refl⟩
  | some e =>
    dsimp only at h
    split at h
    · rcases ok_of_bind h with ⟨t', ht', h⟩
      cases h
      rcases setEmbedding_of_ok ht' with ⟨hid, rfl⟩
      exact ⟨fun _ => has_setEmbedding,
        .one (.setSpeakerEmbedding s.id e) trivial (if_pos hid)⟩
    · cases h
      exact ⟨fun _ => rfl, .refl⟩

/-- What clearing or giving a name does to the voices is one statement. -/
theorem setRecordingSpeaker_writes {localIdx : ℤ} {speakerId : Option Uuid}
    {voices : List (RecordingSpeaker E)} (hknown : lib.references speakerId = true)
    (h : setRecordingSpeaker lib.recordingSpeakers id localIdx speakerId = .ok voices) :
    lib.execute (.setRecordingSpeaker id localIdx speakerId) = some (lib.withVoices voices) := by
  unfold setRecordingSpeaker at h
  split at h
  · rename_i hany
    cases h
    exact if_pos ⟨hany, hknown⟩
  · cases h

theorem nameSpeaker_writes {localIdx : ℤ} {body : NameBody} {answer : Answer}
    (h : nameSpeaker q collate lib id localIdx body = .ok (answer, lib')) :
    lib.Writes lib' := by
  unfold nameSpeaker at h
  split at h
  · split at h <;> cases h
  · rename_i recSpeaker hfind
    split at h
    · cases h
    · rcases ok_of_bind h with ⟨⟨speaker, t⟩, hresolve, h⟩
      rcases ok_of_bind h with ⟨⟨already, enrolled, t'⟩, hlearn, h⟩
      rcases ok_of_bind h with ⟨voices, hvoices, h⟩
      cases h
      rcases resolve_writes hresolve with ⟨hspeaker, hresolved⟩
      rcases @learn_writes _ _ _ _ _ q { lib with speakers := t } _ _ _ _ _ _ hlearn with
        ⟨hhas, hlearned⟩
      have hset := @setRecordingSpeaker_writes _ { lib with speakers := t' } id localIdx
        (some speaker.id) voices ((hhas _).trans hspeaker) hvoices
      exact (hresolved.trans hlearned).trans
        (.one (.setRecordingSpeaker id localIdx (some speaker.id)) trivial hset)

theorem getSpeaker_of_has (h : t.has id = true) : ∃ s, t.getSpeaker id = .ok s ∧ s.id = id := by
  rcases Option.isSome_iff_exists.mp (has_iff.mp h) with ⟨s, hs⟩
  have hfind : t.rows.find? (fun s => s.id == id) = some s := hs
  refine ⟨s, ?_, id_of_row hs⟩
  rw [Speakers.getSpeaker, hfind]

theorem find?_listSpeakersWithUsage (h : lib.speakers.has id = true) :
    ((listSpeakersWithUsage collate lib).find? fun x => x.1.id == id).elim 0 Prod.snd =
      lib.recordingCount id := by
  rcases List.any_eq_true.mp h with ⟨s, hs, hid⟩
  cases hfind : (listSpeakersWithUsage collate lib).find? fun x => x.1.id == id with
  | none =>
    have hmem : (s, lib.recordingCount s.id) ∈ listSpeakersWithUsage collate lib :=
      List.mem_map_of_mem (List.mem_mergeSort.mpr hs)
    exact absurd hid (List.find?_eq_none.mp hfind _ hmem)
  | some x =>
    rcases List.mem_map.mp (List.mem_of_find?_eq_some hfind) with ⟨s', -, rfl⟩
    have hs' := List.find?_some hfind
    rw [Option.elim_some, ← beq_iff_eq.mp hs']

/-- The answer to a rename has the count of the list. -/
theorem renameSpeaker_of_has (hempty : (String.ofList (trim name.toList)).isEmpty = false)
    (hid : lib.speakers.has id = true) : ∃ view,
    renameSpeaker collate lib id name = .ok (view,
      { lib with speakers := lib.speakers.setName id (String.ofList (trim name.toList)) }) ∧
      view.id = id ∧ view.recordingCount = lib.recordingCount id := by
  have ht : lib.speakers.renameSpeaker id (String.ofList (trim name.toList)) =
      .ok (lib.speakers.setName id (String.ofList (trim name.toList))) := if_pos hid
  have hrenamed := @has_setName _ lib.speakers id id (String.ofList (trim name.toList))
  rcases getSpeaker_of_has (hrenamed.trans hid) with ⟨s, hs, hsid⟩
  refine ⟨.new s (lib.recordingCount id), ?_, hsid, rfl⟩
  unfold renameSpeaker
  dsimp only
  rw [if_neg (Bool.eq_false_iff.mp hempty), ht]
  show (Except.bind (Speakers.getSpeaker _ id) _) = _
  rw [hs]
  show Except.ok (SpeakerView.new s _, _) = _
  rw [find?_listSpeakersWithUsage (hrenamed.trans hid)]
  rfl

theorem mergeSpeakers_of_has {fromId intoId : Uuid} (hne : fromId ≠ intoId)
    (hfrom : lib.speakers.has fromId = true) (hinto : lib.speakers.has intoId = true) :
    mergeSpeakers lib fromId intoId =
      .ok (lib.recordingSpeakers.countP (RecordingSpeaker.isOf fromId),
        lib.merge fromId intoId) := by
  rcases getSpeaker_of_has hfrom with ⟨s, hs, -⟩
  rcases getSpeaker_of_has hinto with ⟨s', hs', -⟩
  unfold mergeSpeakers
  rw [if_neg hne, hs, hs']
  rfl

/-- A merge is its two statements, one after the other. -/
theorem mergeSpeakers_writes {fromId intoId : Uuid} {n : ℕ}
    (h : mergeSpeakers lib fromId intoId = .ok (n, lib')) : lib.Writes lib' := by
  unfold mergeSpeakers at h
  split at h
  · cases h
  · rcases ok_of_bind h with ⟨s, -, h⟩
    rcases ok_of_bind h with ⟨s', hs', h⟩
    cases h
    have hinto := (has_of_getSpeaker (ok_of_mapError hs')).1
    exact (Library.Writes.one (.mergeReassign fromId intoId) trivial (if_pos (.inl hinto))).trans
      (.one (.mergeDelete fromId) trivial rfl)

/-- An enrolment writes the voiceprint of the speaker of that name, or enters a new one. -/
theorem enroll_writes {sample : Except CommandError E} {replace : Bool} {answer : Uuid}
    (h : enroll collate lib name sample replace = .ok (answer, lib')) :
    lib.Writes lib' := by
  unfold enroll at h
  rcases ok_of_bind h with ⟨e, -, h⟩
  split at h
  case h_1 s hfind =>
    split at h
    · cases h
    · rcases ok_of_bind h with ⟨t, ht, h⟩
      cases h
      rcases setEmbedding_of_ok (ok_of_mapError ht) with ⟨hid, rfl⟩
      exact .one (.setSpeakerEmbedding s.id e) trivial (if_pos hid)
  case h_2 hnone =>
    cases h
    exact .one (.createSpeaker name (some e)) (free_of_find? hnone) rfl

/-! ## What a request leaves behind -/

theorem writes_elim {ε β : Type*} {x : Except ε (β × Library E)}
    (h : ∀ b lib', x = .ok (b, lib') → lib.Writes lib') :
    lib.Writes (x.toOption.elim lib Prod.snd) := by
  cases x with
  | error e => exact .refl
  | ok a => exact h a.1 a.2 rfl

theorem writes_getD {ε : Type*} {x : Except ε (Library E)}
    (h : ∀ lib', x = .ok lib' → lib.Writes lib') : lib.Writes (x.toOption.getD lib) := by
  cases x with
  | error e => exact .refl
  | ok a => exact h a rfl

/-- A request that is no rename does statements that keep the names apart. -/
theorem serve_writes (hr : r.newName = none) :
    lib.Writes (lib.serve q collate r) := by
  cases r with
  | name id localIdx body => exact writes_elim fun _ _ => nameSpeaker_writes
  | unname id localIdx =>
    refine writes_getD fun lib' hok => ?_
    rcases ok_of_bind hok with ⟨voices, hvoices, hlib⟩
    cases hlib
    exact .one (.setRecordingSpeaker id localIdx none) trivial
      (setRecordingSpeaker_writes rfl hvoices)
  | drop id localIdx =>
    refine writes_getD fun lib' hok => ?_
    unfold deleteRecordingSpeaker at hok
    split at hok
    · rename_i hany
      cases hok
      exact .one (.deleteRecordingSpeaker id localIdx) trivial (if_pos hany)
    · cases hok
  | rename id name =>
    refine writes_elim fun view lib' hok => ?_
    by_cases hempty : (String.ofList (trim name.toList)).isEmpty = true
    · unfold renameSpeaker at hok
      dsimp only at hok
      rw [if_pos hempty] at hok
      cases hok
    · cases (if_neg hempty).symm.trans hr
  | delete id =>
    refine writes_getD fun lib' hok => ?_
    unfold deleteSpeaker at hok
    split at hok
    · rename_i hid
      cases hok
      exact .one (.deleteSpeaker id) trivial (if_pos hid)
    · cases hok
  | speakerRename id newName => cases hr
  | merge fromId intoId => exact writes_elim fun _ _ => mergeSpeakers_writes
  | enroll name sample replace => exact writes_elim fun _ _ => enroll_writes

/-- A rename of a speaker that is there is one statement, and any other does nothing. -/
theorem serve_newName (hr : r.newName = some (id, name)) :
    lib.serve q collate r =
      if lib.speakers.has id then { lib with speakers := lib.speakers.setName id name }
      else lib := by
  cases r with
  | rename id' name' =>
    have hnew : (if (String.ofList (trim name'.toList)).isEmpty then none
        else some (id', String.ofList (trim name'.toList))) = some (id, name) := hr
    rcases Option.ite_none_left_eq_some.mp hnew with ⟨hempty, heq⟩
    cases heq
    show (renameSpeaker collate lib id name').toOption.elim lib Prod.snd = _
    by_cases hid : lib.speakers.has id = true
    · rcases @renameSpeaker_of_has _ collate lib id name' (Bool.eq_false_iff.mpr hempty) hid with
        ⟨view, hok, -⟩
      rw [hok, if_pos hid]
      rfl
    · have hfails : lib.speakers.renameSpeaker id (String.ofList (trim name'.toList)) =
          .error (.notFound ("speaker " ++ toString id)) := if_neg hid
      have hserve : renameSpeaker collate lib id name' =
          .error (.notFound ("speaker " ++ toString id)) := by
        unfold renameSpeaker
        dsimp only
        rw [if_neg hempty, hfails]
        rfl
      rw [hserve, if_neg hid]
      rfl
  | speakerRename id' newName =>
    cases hr
    show (speakerRename lib id name).toOption.getD lib = _
    unfold speakerRename Speakers.renameSpeaker
    split <;> rfl
  | _ => cases hr

/-- A request keeps the names apart exactly if it gives no speaker another's name. -/
theorem distinct_serve_iff (h : lib.speakers.Distinct) :
    (lib.serve q collate r).speakers.Distinct ↔ lib.Free r := by
  cases hr : r.newName with
  | none =>
    have hwrites := @serve_writes _ _ _ _ _ q collate lib r hr
    refine iff_of_true (hwrites.distinct h) fun id name hname => ?_
    rw [hr] at hname
    cases hname
  | some x =>
    rcases x with ⟨id, name⟩
    have hfree : lib.Free r ↔
        (lib.speakers.has id = true → (Statement.renameSpeaker id name).Free lib) := by
      constructor
      · exact fun hall => hall id name hr
      · intro hone id' name' hr' hid
        rw [hr] at hr'
        cases hr'
        exact hone hid
    rw [serve_newName hr, hfree]
    split
    · rename_i hid
      rw [h.setName_iff hid]
      exact ⟨fun hfree _ => hfree, fun hfree => hfree hid⟩
    · rename_i hid
      exact iff_of_true h fun hid' => absurd hid' hid

theorem serve_statements : ∃ tr, Run Library.execute anyStep lib tr (lib.serve q collate r) := by
  cases hr : r.newName with
  | none =>
    rcases @serve_writes _ _ _ _ _ q collate lib r hr with ⟨tr, hrun⟩
    exact ⟨tr, hrun.mono fun _ _ _ => trivial⟩
  | some x =>
    rw [serve_newName hr]
    split
    · rename_i hid
      exact ⟨[.renameSpeaker x.1 x.2], .snoc _ .nil trivial (if_pos hid)⟩
    · exact ⟨[], .nil⟩

theorem Library.Sound.serve (h : lib.Sound) : (lib.serve q collate r).Sound := by
  rcases @serve_statements _ _ _ _ _ q collate lib r with ⟨tr, hrun⟩
  exact hrun.invariant h fun _ _ _ hs _ hstep => hs.execute hstep

/-! ## Any run of requests -/

/-- If no two speakers have the same name, this stays so all along a run of requests exactly if no
rename of the run gives a speaker another's name. The keys hold whatever is renamed. -/
theorem distinct_of_run {rs : List (Request E)} (h : lib.Sound) (hd : lib.speakers.Distinct)
    (hrun : Run (fun lib r => some (lib.serve q collate r)) anyStep lib rs lib') :
    ((∀ rs₁ lib₁, rs₁ <+: rs →
        Run (fun lib r => some (lib.serve q collate r)) anyStep lib rs₁ lib₁ →
          lib₁.speakers.Distinct) ↔
      Run (fun lib r => some (lib.serve q collate r)) Library.Free lib rs lib') ∧
      lib'.Sound := by
  have hsound : ∀ (s : Library E) (a : Request E) (s' : Library E), s.Sound →
      some (s.serve q collate a) = some s' → s'.Sound := by
    intro s a s' hs hstep
    cases hstep
    exact hs.serve
  constructor
  · refine @Run.always_iff _ _ _ _ (fun lib => lib.speakers.Distinct) Library.Sound _ _ _ hrun h hd
      hsound ?_
    intro s a s' _ hs hstep
    cases hstep
    exact distinct_serve_iff hs
  · exact hrun.invariant h fun s a s' hs _ hstep => hsound s a s' hs hstep

/-- One person under two names. -/
def annTwice : Library Unit where
  speakers := ⟨[⟨1, "Ann", none⟩, ⟨2, "Anna", none⟩], 3, by decide, by decide⟩
  recordingSpeakers := [⟨7, 0, some 1, none⟩, ⟨7, 1, some 2, none⟩, ⟨8, 0, some 1, none⟩]

def annOnce : Library Unit where
  speakers := (annTwice.merge 1 2).speakers.setName 2 "Ann"
  recordingSpeakers := (annTwice.merge 1 2).recordingSpeakers

theorem annTwice_sound : annTwice.Sound := ⟨by decide, by decide⟩

/-- Once the entries are one, the name that went with the other is free. -/
theorem distinct_of_run_annOnce :
    annOnce.Sound ∧ ∀ rs₁ lib₁, rs₁ <+: [Request.merge 1 2, .speakerRename 2 "Ann"] →
      Run (fun lib r => some (lib.serve (.first fun _ _ : Unit => (1 : ℚ)) (fun _ _ => true) r))
        anyStep annTwice rs₁ lib₁ → lib₁.speakers.Distinct := by
  have hdistinct : annTwice.speakers.Distinct := by
    intro s hs s' hs' hname
    rcases List.mem_pair.mp hs with rfl | rfl <;> rcases List.mem_pair.mp hs' with rfl | rfl
    · rfl
    · exact absurd hname (by decide)
    · exact absurd hname (by decide)
    · rfl
  have hmerge : annTwice.serve (.first fun _ _ : Unit => (1 : ℚ)) (fun _ _ => true)
      (.merge 1 2) = annTwice.merge 1 2 := rfl
  have hrename : (annTwice.merge 1 2).serve (.first fun _ _ : Unit => (1 : ℚ)) (fun _ _ => true)
      (.speakerRename 2 "Ann") = annOnce := rfl
  have hfree : (annTwice.merge 1 2).Free (.speakerRename 2 "Ann") := by
    intro id name hname _ s hs hne
    cases hname
    exact absurd (congrArg Speaker.id (List.mem_singleton.mp hs)) hne
  have hrun := distinct_of_run annTwice_sound hdistinct
    (.snoc _ (.snoc _ .nil trivial (congrArg some hmerge)) trivial (congrArg some hrename))
  refine ⟨hrun.2, hrun.1.mpr (.snoc _ (.snoc _ .nil ?_ (congrArg some hmerge)) hfree
    (congrArg some hrename))⟩
  intro id name hname
  cases hname

/-! ## What a merge does to the counts -/

/-- The recordings that a speaker is in. -/
def Library.recordings (lib : Library E) (id : Uuid) : Finset Uuid :=
  ((lib.recordingSpeakers.filter (RecordingSpeaker.isOf id)).map
    RecordingSpeaker.recordingId).toFinset

theorem recordingCount_eq : lib.recordingCount id = (lib.recordings id).card :=
  (List.card_toFinset _).symm

theorem mem_recordings {i : Uuid} : i ∈ lib.recordings id ↔
    ∃ r ∈ lib.recordingSpeakers, r.speakerId = some id ∧ r.recordingId = i := by
  rw [Library.recordings, List.mem_toFinset, List.mem_map]
  refine exists_congr fun r => ?_
  rw [List.mem_filter, RecordingSpeaker.isOf, beq_iff_eq, and_assoc]

theorem mem_recordings_reassign {target : Option Uuid} {i k : Uuid} :
    i ∈ (lib.reassign id target).recordings k ↔
      k ≠ id ∧ i ∈ lib.recordings k ∨ target = some k ∧ i ∈ lib.recordings id := by
  rw [mem_recordings, mem_recordings, mem_recordings]
  constructor
  · rintro ⟨r, hr, hk, hi⟩
    rcases mem_updateWhere.mp hr with ⟨r₀, hr₀, rfl⟩
    cases hid : r₀.isOf id with
    | true =>
      rw [updateRow_of_pos hid] at hk hi
      exact .inr ⟨hk, r₀, hr₀, beq_iff_eq.mp hid, hi⟩
    | false =>
      rw [updateRow_of_neg hid] at hk hi
      refine .inl ⟨?_, r₀, hr₀, hk, hi⟩
      rintro rfl
      exact beq_eq_false_iff_ne.mp hid hk
  · rintro (⟨hne, r, hr, hk, hi⟩ | ⟨htarget, r, hr, hid, hi⟩)
    · have hother : r.isOf id = false := by
        rw [RecordingSpeaker.isOf, hk, beq_eq_false_iff_ne]
        exact fun h => hne (Option.some.inj h)
      exact ⟨r, mem_updateWhere.mpr ⟨r, hr, updateRow_of_neg hother⟩, hk, hi⟩
    · have hof : r.isOf id = true := beq_iff_eq.mpr hid
      exact ⟨r.give target, mem_updateWhere.mpr ⟨r, hr, updateRow_of_pos hof⟩, htarget, hi⟩

/-- A merge joins the recordings of the two, and takes none from anybody else. -/
theorem recordings_merge {fromId intoId : Uuid} (hne : fromId ≠ intoId) (k : Uuid) :
    (lib.merge fromId intoId).recordings k =
      if k = fromId then ∅
      else if k = intoId then lib.recordings fromId ∪ lib.recordings intoId
      else lib.recordings k := by
  have herase : (lib.merge fromId intoId).recordings k =
      ((lib.reassign fromId (some intoId)).reassign fromId none).recordings k := rfl
  ext i
  rw [herase, mem_recordings_reassign, mem_recordings_reassign]
  by_cases hfrom : k = fromId
  · simp [hfrom]
  · by_cases hinto : k = intoId
    · simp [hinto, hne.symm, or_comm]
    · simp [hfrom, hinto, Ne.symm hinto]

/-- Merging two different speakers of the library joins their recordings in the list, where one
that had both is counted once, gives every voice of the one to the other, and touches no other
speaker. -/
theorem mergeSpeakers_joins {fromId intoId : Uuid} (h : lib.Sound) (hne : fromId ≠ intoId)
    (hfrom : lib.speakers.has fromId = true) (hinto : lib.speakers.has intoId = true) :
    ∃ n lib', mergeSpeakers lib fromId intoId = .ok (n, lib') ∧ lib'.Sound ∧
      (∀ v, lib'.holder v = (lib.holder v).map fun k => if k = fromId then intoId else k) ∧
      (∀ k, lib'.speakers.row k = if k = fromId then none else lib.speakers.row k) ∧
      ∀ s m, (s, m) ∈ listSpeakersWithUsage collate lib' ↔
        s ∈ lib.speakers.rows ∧ s.id ≠ fromId ∧
          m = if s.id = intoId then (lib.recordings fromId ∪ lib.recordings intoId).card
            else lib.recordingCount s.id := by
  refine ⟨_, _, mergeSpeakers_of_has hne hfrom hinto, ?_, fun v => ?_, fun k => row_erase, ?_⟩
  · exact (@Library.Sound.reassign _ lib fromId h (some intoId) (.inl hinto)).erase
  · have herase : (lib.merge fromId intoId).holder v =
        ((lib.reassign fromId (some intoId)).reassign fromId none).holder v := rfl
    rw [herase, holder_reassign, holder_reassign]
    cases lib.holder v with
    | none => rfl
    | some k => by_cases hk : k = fromId <;> simp [hk, hne.symm]
  · intro s m
    have hrow : s ∈ (lib.merge fromId intoId).speakers.rows ↔
        s ∈ lib.speakers.rows ∧ s.id ≠ fromId := by
      refine mem_deleteWhere.trans (and_congr_right fun _ => ?_)
      exact beq_eq_false_iff_ne
    have hlist : (s, m) ∈ listSpeakersWithUsage collate (lib.merge fromId intoId) ↔
        s ∈ (lib.merge fromId intoId).speakers.rows ∧
          (lib.merge fromId intoId).recordingCount s.id = m := by
      rw [listSpeakersWithUsage, List.mem_map]
      constructor
      · rintro ⟨s', hs', heq⟩
        cases heq
        exact ⟨List.mem_mergeSort.mp hs', rfl⟩
      · rintro ⟨hs, rfl⟩
        exact ⟨s, List.mem_mergeSort.mpr hs, rfl⟩
    rw [hlist, hrow, and_assoc]
    refine and_congr_right fun _ => and_congr_right fun hid => ?_
    rw [recordingCount_eq, recordings_merge hne, if_neg hid, eq_comm, recordingCount_eq]
    split <;> rfl

/-- Ann is in recording 7 under both names and in recording 8 under one, which makes two. -/
theorem mergeSpeakers_joins_annTwice : ∃ n lib', mergeSpeakers annTwice 1 2 = .ok (n, lib') ∧
    lib'.holder (8, 0) = some 2 ∧
      (⟨2, "Anna", none⟩, 2) ∈ listSpeakersWithUsage (fun _ _ => true) lib' := by
  obtain ⟨n, lib', hok, -, hholder, -, hlist⟩ := @mergeSpeakers_joins _ (fun _ _ => true) annTwice
    1 2 annTwice_sound (by decide) (by decide) (by decide)
  refine ⟨n, lib', hok, (hholder (8, 0)).trans rfl, (hlist _ _).mpr ⟨?_, by decide, by decide⟩⟩
  exact List.mem_cons_of_mem _ List.mem_cons_self

end ScribeLocal.NameSpeaker
