import ScribeLocal.Api.NameSpeaker
import ScribeLocal.Transition

/-!
# The speaker library

The tables `speakers` and `recording_speakers`, with each statement that the server, the worker
and the command line write them by. A statement that fails changes nothing. The foreign key of
`recording_speakers.speaker_id` is `ON DELETE SET NULL`, its primary key is the recording with the
local index.
-/
namespace ScribeLocal.NameSpeaker
open Table Transition

variable {E : Type*}

/-! ## The tables -/

def Speaker.withName (s : Speaker E) (displayName : String) : Speaker E := { s with displayName }

theorem Speaker.withName_id (s : Speaker E) (displayName : String) :
    (s.withName displayName).id = s.id := rfl

/-- The primary key of `recording_speakers`. -/
def RecordingSpeaker.voice (r : RecordingSpeaker E) : Uuid × ℤ := (r.recordingId, r.localIdx)

def RecordingSpeaker.isOf (id : Uuid) (r : RecordingSpeaker E) : Bool := r.speakerId == some id

def RecordingSpeaker.give (speakerId : Option Uuid) (r : RecordingSpeaker E) :
    RecordingSpeaker E := { r with speakerId }

namespace Speakers

def row (t : Speakers E) (id : Uuid) : Option (Speaker E) := t.rows.find? fun s => s.id == id

def has (t : Speakers E) (id : Uuid) : Bool := t.rows.any fun s => s.id == id

/-- The table with another name in the row of this id. -/
def setName (t : Speakers E) (id : Uuid) (displayName : String) : Speakers E where
  rows := updateWhere (fun s => s.id == id) (fun s => s.withName displayName) t.rows
  nextId := t.nextId
  id_lt := by
    intro r hr
    rcases mem_updateWhere.mp hr with ⟨s, hs, rfl⟩
    rw [@column_updateRow _ _ _ _ Speaker.id fun s => s.withName_id displayName]
    exact t.id_lt s hs
  id_nodup := by
    rw [@column_updateWhere _ _ _ _ _ Speaker.id fun s => s.withName_id displayName]
    exact t.id_nodup

/-- The table without the row of this id. -/
def erase (t : Speakers E) (id : Uuid) : Speakers E where
  rows := deleteWhere (fun s => s.id == id) t.rows
  nextId := t.nextId
  id_lt s hs := t.id_lt s (mem_deleteWhere.mp hs).1
  id_nodup := nodup_column_deleteWhere t.id_nodup

def renameSpeaker (t : Speakers E) (id : Uuid) (displayName : String) :
    Except Error (Speakers E) :=
  if t.has id then .ok (t.setName id displayName)
  else .error (.notFound ("speaker " ++ toString id))

end Speakers

namespace Library

/-- The name of a row of `speakers`. -/
def nameOf (lib : Library E) (id : Uuid) : Option String :=
  (lib.speakers.row id).map Speaker.displayName

/-- The speaker that a voice of a recording is given. -/
def holder (lib : Library E) (v : Uuid × ℤ) : Option Uuid :=
  (lib.recordingSpeakers.find? (isVoice v.1 v.2)).bind RecordingSpeaker.speakerId

/-- The library with these voices. -/
def withVoices (lib : Library E) (recordingSpeakers : List (RecordingSpeaker E)) : Library E :=
  { lib with recordingSpeakers }

/-- `UPDATE recording_speakers SET speaker_id = $2 WHERE speaker_id = $1`. -/
def reassign (lib : Library E) (id : Uuid) (target : Option Uuid) : Library E :=
  lib.withVoices (updateWhere (RecordingSpeaker.isOf id) (RecordingSpeaker.give target)
    lib.recordingSpeakers)

/-- `DELETE FROM speakers`, with what the foreign key does to the voices. -/
def erase (lib : Library E) (id : Uuid) : Library E :=
  { lib.reassign id none with speakers := lib.speakers.erase id }

/-- The name a voice is listed under, as `recording_speaker_from_row` reads the join. -/
def displayName (lib : Library E) (r : RecordingSpeaker E) : String :=
  ((r.speakerId.bind lib.nameOf).getD ("Speaker " ++ toString r.localIdx))

/-- The name a line is shown under, as `utterance_from_row` reads the join. -/
def speakerName (lib : Library E) (recordingId : Uuid) (localIdx : Option ℤ) : Option String :=
  ((localIdx.bind fun i => (lib.holder (recordingId, i)).bind lib.nameOf).or
    (localIdx.map fun i => "Speaker " ++ toString i))

end Library

/-! ## The statements -/

inductive Statement (E : Type*)
  | createSpeaker (displayName : String) (embedding : Option E)
  | setSpeakerEmbedding (id : Uuid) (embedding : E)
  | renameSpeaker (id : Uuid) (displayName : String)
  | deleteSpeaker (id : Uuid)
  /-- The two statements of the transaction of `merge_speakers`. -/
  | mergeReassign (fromId intoId : Uuid)
  | mergeDelete (fromId : Uuid)
  | setRecordingSpeaker (recordingId : Uuid) (localIdx : ℤ) (speakerId : Option Uuid)
  | upsertRecordingSpeaker (recordingId : Uuid) (localIdx : ℤ) (speakerId : Option Uuid)
      (embedding : Option E)
  | pruneRecordingSpeakers (recordingId : Uuid) (keep : List ℤ)
  | deleteRecordingSpeaker (recordingId : Uuid) (localIdx : ℤ)
  | deleteRecordingSpeakers (recordingId : Uuid)

/-- The foreign key lets the value in. -/
def Library.references (lib : Library E) (speakerId : Option Uuid) : Bool :=
  speakerId.all lib.speakers.has

def upsert (t : List (RecordingSpeaker E)) (row : RecordingSpeaker E) :
    List (RecordingSpeaker E) :=
  if t.any (isVoice row.recordingId row.localIdx) then
    updateWhere (isVoice row.recordingId row.localIdx)
      (fun r => { r with speakerId := row.speakerId, embedding := row.embedding }) t
  else t ++ [row]

/-- The transaction of `merge_speakers`, when nothing comes between its statements. -/
def Library.merge (lib : Library E) (fromId intoId : Uuid) : Library E :=
  (lib.reassign fromId (some intoId)).erase fromId

/-- At READ COMMITTED a statement sees what others have committed since the one before it. -/
def Library.execute (lib : Library E) : Statement E → Option (Library E)
  | .createSpeaker displayName embedding =>
    some { lib with speakers := (lib.speakers.createSpeaker displayName embedding).2 }
  | .setSpeakerEmbedding id embedding =>
    if lib.speakers.has id then
      some { lib with speakers := lib.speakers.setEmbedding id embedding }
    else none
  | .renameSpeaker id displayName =>
    if lib.speakers.has id then some { lib with speakers := lib.speakers.setName id displayName }
    else none
  | .deleteSpeaker id => if lib.speakers.has id then some (lib.erase id) else none
  | .mergeReassign fromId intoId =>
    if lib.speakers.has intoId ∨ ∀ r ∈ lib.recordingSpeakers, r.speakerId ≠ some fromId then
      some (lib.reassign fromId (some intoId))
    else none
  | .mergeDelete fromId => some (lib.erase fromId)
  | .setRecordingSpeaker recordingId localIdx speakerId =>
    if lib.recordingSpeakers.any (isVoice recordingId localIdx) ∧ lib.references speakerId then
      some (lib.withVoices (updateWhere (isVoice recordingId localIdx)
        (RecordingSpeaker.give speakerId) lib.recordingSpeakers))
    else none
  | .upsertRecordingSpeaker recordingId localIdx speakerId embedding =>
    if lib.references speakerId then
      some (lib.withVoices
        (upsert lib.recordingSpeakers ⟨recordingId, localIdx, speakerId, embedding⟩))
    else none
  | .pruneRecordingSpeakers recordingId keep =>
    some (lib.withVoices (deleteWhere
      (fun r => r.recordingId == recordingId && !keep.contains r.localIdx)
      lib.recordingSpeakers))
  | .deleteRecordingSpeaker recordingId localIdx =>
    if lib.recordingSpeakers.any (isVoice recordingId localIdx) then
      some (lib.withVoices (deleteWhere (isVoice recordingId localIdx) lib.recordingSpeakers))
    else none
  | .deleteRecordingSpeakers recordingId =>
    some (lib.withVoices
      (deleteWhere (fun r => r.recordingId == recordingId) lib.recordingSpeakers))

/-! ## Rows and names -/

section Lookups

variable {lib : Library E} {t : Speakers E} {voices : List (RecordingSpeaker E)} {id k : Uuid}
  {v : Uuid × ℤ} {displayName : String} {embedding : Option E}

theorem has_iff : t.has id = true ↔ (t.row id).isSome = true := by
  rw [Speakers.has, Speakers.row, List.find?_isSome, List.any_eq_true]

theorem id_of_row {s : Speaker E} (h : t.row k = some s) : s.id = k := by
  unfold Speakers.row at h
  have hid := List.find?_some h
  exact beq_iff_eq.mp hid

theorem isSome_nameOf : (lib.nameOf id).isSome = lib.speakers.has id := by
  rw [Library.nameOf, Option.isSome_map, Bool.eq_iff_iff, has_iff]

theorem row_setName :
    (t.setName id displayName).row k =
      (t.row k).map (updateRow (fun s => s.id == id) fun s => s.withName displayName) := by
  unfold Speakers.row Speakers.setName
  exact @find?_updateWhere _ _ _ _ _ _ Speaker.id (fun s => s.withName_id displayName) k

theorem row_setEmbedding {e : E} :
    (t.setEmbedding id e).row k =
      (t.row k).map (updateRow (fun s => s.id == id) fun s => s.withEmbedding e) := by
  unfold Speakers.row Speakers.setEmbedding
  exact @find?_updateWhere _ _ _ _ _ _ Speaker.id (fun s => s.withEmbedding_id e) k

theorem row_erase : (t.erase id).row k = if k = id then none else t.row k := by
  unfold Speakers.row Speakers.erase
  split
  · rename_i hk
    refine find?_deleteWhere_of_pos fun s _ hs => ?_
    rw [← hk]
    exact hs
  · rename_i hk
    refine find?_deleteWhere_of_neg fun s _ hs => ?_
    rw [beq_eq_false_iff_ne, beq_iff_eq.mp hs]
    exact hk

theorem row_nextId : t.row t.nextId = none := by
  rw [Speakers.row, List.find?_eq_none]
  intro s hs hid
  exact absurd (t.id_lt s hs) (by rw [beq_iff_eq.mp hid]; exact lt_irrefl _)

theorem row_createSpeaker :
    (t.createSpeaker displayName embedding).2.row k =
      if k = t.nextId then some ⟨t.nextId, displayName, embedding⟩ else t.row k := by
  rw [Speakers.row, Speakers.createSpeaker, List.find?_append]
  split
  · rename_i hk
    have hnone : t.rows.find? (fun s => s.id == k) = none := hk ▸ row_nextId
    rw [hnone, hk, List.find?_singleton]
    simp
  · rename_i hk
    rw [List.find?_singleton, if_neg, Option.or_none]
    · rfl
    · rw [beq_iff_eq]
      exact fun h => hk h.symm

/-! ## The voices -/

theorem isVoice_iff {r : RecordingSpeaker E} : isVoice v.1 v.2 r = true ↔ r.voice = v := by
  rw [isVoice, Bool.and_eq_true, beq_iff_eq, beq_iff_eq]
  exact (@Prod.ext_iff _ _ r.voice v).symm

theorem holder_reassign {target : Option Uuid} :
    (lib.reassign id target).holder v =
      (lib.holder v).bind fun j => if j = id then target else some j := by
  have hfind : (lib.reassign id target).recordingSpeakers.find? (isVoice v.1 v.2) =
      (lib.recordingSpeakers.find? (isVoice v.1 v.2)).map
        (updateRow (RecordingSpeaker.isOf id) (RecordingSpeaker.give target)) :=
    find?_updateWhere_of_query fun _ => rfl
  unfold Library.holder
  rw [hfind]
  cases lib.recordingSpeakers.find? (isVoice v.1 v.2) with
  | none => rfl
  | some r =>
    rw [Option.map_some, Option.bind_some, Option.bind_some, updateRow, RecordingSpeaker.isOf]
    cases hr : r.speakerId with
    | none => simp [hr]
    | some j => by_cases hj : j = id <;> simp [hr, hj, RecordingSpeaker.give]

/-- What an assignment to the speakers of one voice does to its holder. -/
theorem holder_assign {speakerId : Option Uuid} {f : RecordingSpeaker E → RecordingSpeaker E}
    {w : Uuid × ℤ} (hf : ∀ r, (f r).voice = r.voice) (hset : ∀ r, (f r).speakerId = speakerId)
    (hany : lib.recordingSpeakers.any (isVoice w.1 w.2) = true) :
    (lib.withVoices (updateWhere (isVoice w.1 w.2) f lib.recordingSpeakers)).holder v =
      Function.update lib.holder w speakerId v := by
  have hquery : ∀ r, isVoice v.1 v.2 (f r) = isVoice v.1 v.2 r := by
    intro r
    rw [Bool.eq_iff_iff, isVoice_iff, isVoice_iff, hf]
  unfold Library.holder Library.withVoices
  rw [find?_updateWhere_of_query hquery]
  by_cases hv : v = w
  · rw [hv, Function.update_self]
    rcases Option.isSome_iff_exists.mp (List.find?_isSome.mpr (List.any_eq_true.mp hany)) with
      ⟨r, hr⟩
    rw [hr, Option.map_some, updateRow_of_pos (List.find?_some hr), Option.bind_some, hset]
  · rw [Function.update_of_ne hv]
    cases hr : lib.recordingSpeakers.find? (isVoice v.1 v.2) with
    | none => rfl
    | some r =>
      have hother : isVoice w.1 w.2 r = false := by
        rw [Bool.eq_false_iff, Ne, isVoice_iff, isVoice_iff.mp (List.find?_some hr)]
        exact hv
      rw [Option.map_some, updateRow_of_neg hother]

theorem holder_upsert {row : RecordingSpeaker E} :
    (lib.withVoices (upsert lib.recordingSpeakers row)).holder v =
      Function.update lib.holder row.voice row.speakerId v := by
  unfold upsert
  split
  · rename_i hany
    exact @holder_assign _ lib v row.speakerId _ row.voice (fun _ => rfl) (fun _ => rfl) hany
  · rename_i hany
    unfold Library.holder Library.withVoices
    rw [List.find?_append]
    by_cases hv : v = row.voice
    · rw [hv, Function.update_self, List.find?_eq_none.mpr, Option.none_or, List.find?_singleton,
        if_pos (isVoice_iff.mpr rfl), Option.bind_some]
      intro r hr hvoice
      exact hany (List.any_eq_true.mpr ⟨r, hr, hvoice⟩)
    · have hother : ¬ isVoice v.1 v.2 row = true := fun h => hv (isVoice_iff.mp h).symm
      rw [Function.update_of_ne hv, List.find?_singleton, if_neg hother, Option.or_none]

/-- What a deletion of the rows of some voices does to their holders. -/
theorem holder_delete {p : RecordingSpeaker E → Bool} {q : Uuid × ℤ → Bool}
    (hp : ∀ r, p r = q r.voice) :
    (lib.withVoices (deleteWhere p lib.recordingSpeakers)).holder v =
      if q v then none else lib.holder v := by
  unfold Library.holder Library.withVoices
  split
  · rename_i hv
    rw [find?_deleteWhere_of_pos]
    · rfl
    · intro r _ hr
      rw [hp, isVoice_iff.mp hr, hv]
  · rename_i hv
    rw [find?_deleteWhere_of_neg]
    intro r _ hr
    rw [hp, isVoice_iff.mp hr]
    exact Bool.eq_false_iff.mpr hv

end Lookups

/-! ## What the keys keep -/

/-- The primary key and the foreign key of `recording_speakers`. -/
structure Library.Sound (lib : Library E) : Prop where
  keys : (lib.recordingSpeakers.map RecordingSpeaker.voice).Nodup
  known : ∀ r ∈ lib.recordingSpeakers, lib.references r.speakerId = true

section Sound

variable {lib lib' : Library E} {t : Speakers E} {voices : List (RecordingSpeaker E)} {id k : Uuid}
  {displayName : String} {embedding : Option E} {a : Statement E}

theorem has_setName : (t.setName id displayName).has k = t.has k := by
  rw [Bool.eq_iff_iff, has_iff, has_iff, row_setName, Option.isSome_map]

theorem has_setEmbedding {e : E} : (t.setEmbedding id e).has k = t.has k := by
  rw [Bool.eq_iff_iff, has_iff, has_iff, row_setEmbedding, Option.isSome_map]

theorem has_erase : (t.erase id).has k = true ↔ k ≠ id ∧ t.has k = true := by
  rw [has_iff, has_iff, row_erase]
  split
  · rename_i hk
    simp [hk]
  · rename_i hk
    simp [hk]

theorem has_createSpeaker (h : t.has k = true) :
    (t.createSpeaker displayName embedding).2.has k = true := by
  rw [has_iff] at h ⊢
  rw [row_createSpeaker]
  split
  · rfl
  · exact h

theorem references_mono {speakerId : Option Uuid} {lib lib' : Library E}
    (h : ∀ k, lib.speakers.has k = true → lib'.speakers.has k = true)
    (hknown : lib.references speakerId = true) : lib'.references speakerId = true := by
  cases speakerId with
  | none => rfl
  | some k => exact h k hknown

/-- Writes to `speakers` that take no row away. -/
theorem Library.Sound.speakers (h : lib.Sound) {t : Speakers E}
    (ht : ∀ k, lib.speakers.has k = true → t.has k = true) :
    Library.Sound { lib with speakers := t } where
  keys := h.keys
  known r hr := references_mono ht (h.known r hr)

theorem Library.Sound.delete (h : lib.Sound) (p : RecordingSpeaker E → Bool) :
    (lib.withVoices (deleteWhere p lib.recordingSpeakers)).Sound where
  keys := nodup_column_deleteWhere h.keys
  known r hr := h.known r (mem_deleteWhere.mp hr).1

theorem Library.Sound.update (h : lib.Sound) {p : RecordingSpeaker E → Bool}
    {f : RecordingSpeaker E → RecordingSpeaker E} (hf : ∀ r, (f r).voice = r.voice)
    (hknown : ∀ r ∈ lib.recordingSpeakers, p r = true → lib.references (f r).speakerId = true) :
    (lib.withVoices (updateWhere p f lib.recordingSpeakers)).Sound where
  keys := by
    have hcolumn : (updateWhere p f lib.recordingSpeakers).map RecordingSpeaker.voice =
        lib.recordingSpeakers.map RecordingSpeaker.voice := column_updateWhere hf
    exact hcolumn ▸ h.keys
  known := by
    intro r hr
    rcases mem_updateWhere.mp hr with ⟨r₀, hr₀, rfl⟩
    cases hp : p r₀ with
    | true =>
      rw [updateRow_of_pos hp]
      exact hknown r₀ hr₀ hp
    | false =>
      rw [updateRow_of_neg hp]
      exact h.known r₀ hr₀

theorem Library.Sound.upsert (h : lib.Sound) {row : RecordingSpeaker E}
    (hrow : lib.references row.speakerId = true) :
    (lib.withVoices (NameSpeaker.upsert lib.recordingSpeakers row)).Sound := by
  unfold NameSpeaker.upsert
  split
  · exact @Library.Sound.update _ _ h _ _ (fun _ => rfl) fun _ _ _ => hrow
  · rename_i hany
    constructor
    · show ((lib.recordingSpeakers ++ [row]).map RecordingSpeaker.voice).Nodup
      rw [List.map_append, List.map_singleton, ← List.concat_eq_append, List.nodup_concat]
      refine ⟨?_, h.keys⟩
      intro hmem
      rcases List.mem_map.mp hmem with ⟨r, hr, hvoice⟩
      exact hany (List.any_eq_true.mpr ⟨r, hr, isVoice_iff.mpr hvoice⟩)
    · intro r hr
      rcases List.mem_append.mp hr with hr | hr
      · exact h.known r hr
      · rw [List.mem_singleton.mp hr]
        exact hrow

theorem Library.Sound.reassign (h : lib.Sound) {target : Option Uuid}
    (htarget : lib.references target = true ∨
      ∀ r ∈ lib.recordingSpeakers, r.speakerId ≠ some id) : (lib.reassign id target).Sound := by
  refine @Library.Sound.update _ _ h _ _ (fun _ => rfl) fun r hr hp => ?_
  rcases htarget with htarget | hnone
  · exact htarget
  · exact absurd (beq_iff_eq.mp hp) (hnone r hr)

/-- Once nobody refers to a speaker, its row may go. -/
theorem Library.Sound.erase (h : lib.Sound) : (lib.erase id).Sound where
  keys := (@Library.Sound.reassign _ _ id h none (.inl rfl)).keys
  known := by
    intro r hr
    have hknown := (@Library.Sound.reassign _ _ id h none (.inl rfl)).known r hr
    rcases mem_updateWhere.mp hr with ⟨r₀, -, rfl⟩
    cases hp : r₀.isOf id with
    | true =>
      rw [updateRow_of_pos hp]
      rfl
    | false =>
      rw [updateRow_of_neg hp] at hknown ⊢
      cases hid : r₀.speakerId with
      | none => rfl
      | some k =>
        rw [RecordingSpeaker.isOf, hid, beq_eq_false_iff_ne] at hp
        rw [hid] at hknown
        exact has_erase.mpr ⟨fun hk => hp (congrArg some hk), hknown⟩

/-- Every statement keeps both keys. -/
theorem Library.Sound.execute (h : lib.Sound) (hstep : lib.execute a = some lib') :
    lib'.Sound := by
  cases a with
  | createSpeaker displayName embedding =>
    rw [← Option.some.inj hstep]
    exact h.speakers fun _ => has_createSpeaker
  | setSpeakerEmbedding id e =>
    rcases Option.ite_none_right_eq_some.mp hstep with ⟨-, hlib⟩
    rw [← Option.some.inj hlib]
    exact h.speakers fun _ hk => has_setEmbedding.trans hk
  | renameSpeaker id displayName =>
    rcases Option.ite_none_right_eq_some.mp hstep with ⟨-, hlib⟩
    rw [← Option.some.inj hlib]
    exact h.speakers fun _ hk => has_setName.trans hk
  | deleteSpeaker id =>
    rcases Option.ite_none_right_eq_some.mp hstep with ⟨-, hlib⟩
    rw [← Option.some.inj hlib]
    exact h.erase
  | mergeReassign fromId intoId =>
    rcases Option.ite_none_right_eq_some.mp hstep with ⟨hinto, hlib⟩
    rw [← Option.some.inj hlib]
    exact @Library.Sound.reassign _ lib fromId h (some intoId) hinto
  | mergeDelete fromId =>
    rw [← Option.some.inj hstep]
    exact h.erase
  | setRecordingSpeaker recordingId localIdx speakerId =>
    rcases Option.ite_none_right_eq_some.mp hstep with ⟨⟨-, hknown⟩, hlib⟩
    rw [← Option.some.inj hlib]
    exact @Library.Sound.update _ _ h _ _ (fun _ => rfl) fun _ _ _ => hknown
  | upsertRecordingSpeaker recordingId localIdx speakerId embedding =>
    rcases Option.ite_none_right_eq_some.mp hstep with ⟨hknown, hlib⟩
    rw [← Option.some.inj hlib]
    exact h.upsert hknown
  | pruneRecordingSpeakers recordingId keep =>
    rw [← Option.some.inj hstep]
    exact h.delete _
  | deleteRecordingSpeaker recordingId localIdx =>
    rcases Option.ite_none_right_eq_some.mp hstep with ⟨-, hlib⟩
    rw [← Option.some.inj hlib]
    exact h.delete _
  | deleteRecordingSpeakers recordingId =>
    rw [← Option.some.inj hstep]
    exact h.delete _

end Sound

end ScribeLocal.NameSpeaker
