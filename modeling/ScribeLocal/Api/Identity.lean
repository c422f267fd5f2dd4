import ScribeLocal.Api.Library
import ScribeLocal.Directory

/-!
# The names that voices are shown under

Transcripts resolve names through `speaker_id` when they are read. However the statements of any
number of requests interleave, a voice that none of them is about follows the speaker it was given
through every reassignment, is shown under that speaker's present name, and falls back to its number
when the speaker is deleted.
-/
namespace ScribeLocal.NameSpeaker
open Table Transition

variable {E : Type*} {lib lib' : Library E} {a : Statement E} {id k : Uuid} {v : Uuid × ℤ}
  {displayName : String} {embedding : Option E}

/-! ## The tables as a directory -/

theorem nameOf_createSpeaker :
    Library.nameOf { lib with speakers := (lib.speakers.createSpeaker displayName embedding).2 } =
      Function.update lib.nameOf lib.speakers.nextId (some displayName) := by
  funext k
  rw [Library.nameOf, row_createSpeaker, Function.update_apply]
  split <;> rfl

theorem nameOf_setEmbedding {e : E} :
    Library.nameOf { lib with speakers := lib.speakers.setEmbedding id e } = lib.nameOf := by
  funext k
  rw [Library.nameOf, row_setEmbedding, Option.map_map]
  exact congrArg (fun f => (lib.speakers.row k).map f) (funext fun s => by
    unfold updateRow
    dsimp only [Function.comp]
    split <;> rfl)

theorem nameOf_setName (h : lib.speakers.has id = true) :
    Library.nameOf { lib with speakers := lib.speakers.setName id displayName } =
      Function.update lib.nameOf id (some displayName) := by
  funext k
  rw [Library.nameOf, row_setName]
  by_cases hk : k = id
  · rw [hk, Function.update_self]
    rcases Option.isSome_iff_exists.mp (has_iff.mp h) with ⟨s, hs⟩
    have hid : (s.id == id) = true := beq_iff_eq.mpr (id_of_row hs)
    rw [hs, Option.map_some, updateRow_of_pos (p := fun s : Speaker E => s.id == id) hid]
    rfl
  · rw [Function.update_of_ne hk]
    cases hs : lib.speakers.row k with
    | none => rw [Library.nameOf, hs]; rfl
    | some s =>
      have hid : (s.id == id) = false := by
        rw [beq_eq_false_iff_ne, id_of_row hs]
        exact hk
      rw [Option.map_some, updateRow_of_neg (p := fun s : Speaker E => s.id == id) hid,
        Library.nameOf, hs]

theorem nameOf_erase : (lib.erase id).nameOf = Function.update lib.nameOf id none := by
  funext k
  rw [Library.nameOf, Library.erase, row_erase, Function.update_apply]
  split <;> rfl

theorem isSome_nameOf_of_holder (h : lib.Sound) (hv : lib.holder v = some id) :
    (lib.nameOf id).isSome = true := by
  rcases Option.bind_eq_some_iff.mp hv with ⟨r, hr, hid⟩
  have hknown := h.known r (List.mem_of_find?_eq_some hr)
  rw [hid] at hknown
  rw [isSome_nameOf]
  exact hknown

/-- What the two tables say together. -/
def Library.directory (lib : Library E) (h : lib.Sound) : Directory (Uuid × ℤ) Uuid String where
  name := lib.nameOf
  who := lib.holder
  known hv := isSome_nameOf_of_holder h hv

open Directory

/-- What a statement does to the directory. -/
def Statement.change (lib : Library E) : Statement E → Change (Uuid × ℤ) Uuid String
  | .createSpeaker displayName _ => .call lib.speakers.nextId displayName
  | .setSpeakerEmbedding _ _ => .release fun _ => false
  | .renameSpeaker id displayName => .call id displayName
  | .deleteSpeaker id => .remove id
  | .mergeReassign fromId intoId => .redirect fromId intoId
  | .mergeDelete fromId => .remove fromId
  | .setRecordingSpeaker recordingId localIdx (some id) => .point (recordingId, localIdx) id
  | .setRecordingSpeaker recordingId localIdx none => .release fun v => v = (recordingId, localIdx)
  | .upsertRecordingSpeaker recordingId localIdx (some id) _ => .point (recordingId, localIdx) id
  | .upsertRecordingSpeaker recordingId localIdx none _ =>
    .release fun v => v = (recordingId, localIdx)
  | .pruneRecordingSpeakers recordingId keep =>
    .release fun v => v.1 == recordingId && !keep.contains v.2
  | .deleteRecordingSpeaker recordingId localIdx => .release fun v => v = (recordingId, localIdx)
  | .deleteRecordingSpeakers recordingId => .release fun v => v.1 == recordingId

theorem holder_erase (v : Uuid × ℤ) :
    (lib.erase id).holder v = (lib.holder v).filter fun k => k ≠ id := by
  have hholder : (lib.erase id).holder v = (lib.reassign id none).holder v := rfl
  rw [hholder, holder_reassign]
  cases lib.holder v <;> simp [Option.filter, ite_not]

/-- Giving a voice to a speaker, or to nobody, is a change of the directory. -/
theorem directory_give {w : Uuid × ℤ} {speakerId : Option Uuid}
    (hknown : lib.references speakerId = true) {lib' : Library E} (h : lib.Sound)
    (h' : lib'.Sound) (hname : lib'.nameOf = lib.nameOf)
    (hwho : ∀ v, lib'.holder v = Function.update lib.holder w speakerId v) :
    lib'.directory h' = (lib.directory h).apply
      (speakerId.elim (.release fun v => v = w) fun id => .point w id) := by
  cases speakerId with
  | none =>
    refine Directory.ext hname (funext fun v => (hwho v).trans ?_)
    show _ = if decide (v = w) = true then none else lib.holder v
    rw [Function.update_apply]
    simp only [decide_eq_true_eq]
  | some id =>
    have hsome : (lib.nameOf id).isSome = true := isSome_nameOf.trans hknown
    refine Directory.ext hname (funext fun v => (hwho v).trans ?_)
    show _ = Function.update lib.holder w (if (lib.nameOf id).isSome then some id else none) v
    rw [if_pos hsome]

/-- Deleting the rows of some voices is letting go of them. -/
theorem directory_delete {p : RecordingSpeaker E → Bool} {q : Uuid × ℤ → Bool}
    (hp : ∀ r, p r = q r.voice) (h : lib.Sound)
    (h' : (lib.withVoices (deleteWhere p lib.recordingSpeakers)).Sound) :
    (lib.withVoices (deleteWhere p lib.recordingSpeakers)).directory h' =
      (lib.directory h).apply (.release q) :=
  Directory.ext rfl (funext fun _ => holder_delete hp)

theorem directory_reassign {fromId intoId : Uuid}
    (hinto : lib.speakers.has intoId = true ∨
      ∀ r ∈ lib.recordingSpeakers, r.speakerId ≠ some fromId)
    (h : lib.Sound) (h' : (lib.reassign fromId (some intoId)).Sound) :
    (lib.reassign fromId (some intoId)).directory h' =
        (lib.directory h).apply (.redirect fromId intoId) ∧
      (lib.directory h).Allowed (.redirect fromId intoId) := by
  have hallowed : (lib.nameOf intoId).isSome = true ∨ ∀ v, lib.holder v ≠ some fromId := by
    rw [isSome_nameOf]
    refine hinto.imp_right fun hnone v hv => ?_
    rcases Option.bind_eq_some_iff.mp hv with ⟨r, hr, hid⟩
    exact hnone r (List.mem_of_find?_eq_some hr) hid
  refine ⟨Directory.ext rfl (funext fun v => ?_), hallowed⟩
  refine holder_reassign.trans (Option.bind_congr fun k hk => ?_)
  split
  · rename_i hfrom
    rcases hallowed with hsome | hnone
    · exact (if_pos hsome).symm
    · exact absurd (hk.trans (congrArg some hfrom)) (hnone v)
  · rfl

/-- The statements do to the tables what the changes do to the directory. -/
theorem directory_execute (h : lib.Sound) (h' : lib'.Sound) (hstep : lib.execute a = some lib') :
    lib'.directory h' = (lib.directory h).apply (a.change lib) ∧
      (lib.directory h).Allowed (a.change lib) := by
  cases a with
  | createSpeaker displayName embedding =>
    cases hstep
    exact ⟨Directory.ext nameOf_createSpeaker rfl, trivial⟩
  | setSpeakerEmbedding id e =>
    rcases Option.ite_none_right_eq_some.mp hstep with ⟨-, hlib⟩
    cases hlib
    exact ⟨Directory.ext nameOf_setEmbedding rfl, trivial⟩
  | renameSpeaker id displayName =>
    rcases Option.ite_none_right_eq_some.mp hstep with ⟨hid, hlib⟩
    cases hlib
    exact ⟨Directory.ext (nameOf_setName hid) rfl, trivial⟩
  | deleteSpeaker id =>
    rcases Option.ite_none_right_eq_some.mp hstep with ⟨-, hlib⟩
    cases hlib
    exact ⟨Directory.ext nameOf_erase (funext holder_erase), trivial⟩
  | mergeReassign fromId intoId =>
    rcases Option.ite_none_right_eq_some.mp hstep with ⟨hinto, hlib⟩
    cases hlib
    exact directory_reassign hinto h h'
  | mergeDelete fromId =>
    cases hstep
    exact ⟨Directory.ext nameOf_erase (funext holder_erase), trivial⟩
  | setRecordingSpeaker recordingId localIdx speakerId =>
    rcases Option.ite_none_right_eq_some.mp hstep with ⟨⟨hany, hknown⟩, hlib⟩
    cases hlib
    have hgive := @directory_give _ _ (recordingId, localIdx) _ hknown _ h h' rfl fun v =>
      @holder_assign _ lib v speakerId _ (recordingId, localIdx) (fun _ => rfl) (fun _ => rfl) hany
    cases speakerId <;> exact ⟨hgive, trivial⟩
  | upsertRecordingSpeaker recordingId localIdx speakerId embedding =>
    rcases Option.ite_none_right_eq_some.mp hstep with ⟨hknown, hlib⟩
    cases hlib
    have hgive := @directory_give _ _ (recordingId, localIdx) _ hknown _ h h' rfl fun v =>
      holder_upsert
    cases speakerId <;> exact ⟨hgive, trivial⟩
  | pruneRecordingSpeakers recordingId keep =>
    cases hstep
    exact ⟨directory_delete (q := fun v => v.1 == recordingId && !keep.contains v.2)
      (fun _ => rfl) h h', trivial⟩
  | deleteRecordingSpeaker recordingId localIdx =>
    rcases Option.ite_none_right_eq_some.mp hstep with ⟨-, hlib⟩
    cases hlib
    refine ⟨directory_delete (fun r => ?_) h h', trivial⟩
    rw [Bool.eq_iff_iff, decide_eq_true_eq]
    exact @isVoice_iff _ (recordingId, localIdx) r
  | deleteRecordingSpeakers recordingId =>
    cases hstep
    exact ⟨directory_delete (q := fun v => v.1 == recordingId) (fun _ => rfl) h h', trivial⟩

/-! ## Any interleaving of statements -/

/-- Where a statement leaves those that are given a speaker. -/
def Statement.follow : Statement E → Uuid → Option Uuid
  | .deleteSpeaker id, k | .mergeDelete id, k => if k = id then none else some k
  | .mergeReassign fromId intoId, k => some (if k = fromId then intoId else k)
  | _, k => some k

/-- Where a list of statements leaves them. -/
def Statement.followAll : List (Statement E) → Uuid → Option Uuid
  | [], k => some k
  | a :: as, k => (a.follow k).bind (followAll as)

/-- The statement is about the voice itself. -/
def Statement.Touches (v : Uuid × ℤ) : Statement E → Prop
  | .setRecordingSpeaker recordingId localIdx _ => (recordingId, localIdx) = v
  | .upsertRecordingSpeaker recordingId localIdx _ _ => (recordingId, localIdx) = v
  | .pruneRecordingSpeakers recordingId keep => v.1 = recordingId ∧ v.2 ∉ keep
  | .deleteRecordingSpeaker recordingId localIdx => (recordingId, localIdx) = v
  | .deleteRecordingSpeakers recordingId => v.1 = recordingId
  | _ => False

/-- The name of a speaker after a statement. -/
def Statement.renamed (id : Uuid) (name : String) : Statement E → String
  | .renameSpeaker k displayName => if k = id then displayName else name
  | _ => name

variable {tr tr' : List (Statement E)} {n : String}

theorem follow_change : (a.change lib).follow k = a.follow k := by
  cases a with
  | setRecordingSpeaker recordingId localIdx speakerId => cases speakerId <;> rfl
  | upsertRecordingSpeaker recordingId localIdx speakerId embedding => cases speakerId <;> rfl
  | _ => rfl

theorem touches_change (h : (a.change lib).Touches v) : a.Touches v := by
  cases a with
  | setRecordingSpeaker recordingId localIdx speakerId =>
    cases speakerId with
    | none => exact (of_decide_eq_true h).symm
    | some id => exact h
  | upsertRecordingSpeaker recordingId localIdx speakerId embedding =>
    cases speakerId with
    | none => exact (of_decide_eq_true h).symm
    | some id => exact h
  | setSpeakerEmbedding id e => cases h
  | pruneRecordingSpeakers recordingId keep =>
    have hboth : (v.1 == recordingId && !keep.contains v.2) = true := h
    simpa [Statement.Touches] using hboth
  | deleteRecordingSpeaker recordingId localIdx => exact (of_decide_eq_true h).symm
  | deleteRecordingSpeakers recordingId =>
    have hrecording : (v.1 == recordingId) = true := h
    exact beq_iff_eq.mp hrecording
  | _ => exact h

theorem Statement.followAll_append :
    Statement.followAll (tr ++ tr') k =
      (Statement.followAll tr k).bind (Statement.followAll tr') := by
  induction tr generalizing k with
  | nil => rfl
  | cons a tr ih =>
    rw [List.cons_append, followAll, followAll, Option.bind_assoc]
    exact congrArg _ (funext fun l => ih)

/-- A run of statements is a run of changes, and sends everybody where they send them. -/
theorem directory_run (h : lib.Sound) (hrun : Run Library.execute anyStep lib tr lib') :
    ∃ (h' : lib'.Sound) (changes : List (Change (Uuid × ℤ) Uuid String)),
      Run (fun d c => some (d.apply c)) Allowed (lib.directory h) changes (lib'.directory h') ∧
        (∀ k, followAll changes k = Statement.followAll tr k) ∧
        ∀ v, (∀ a ∈ tr, ¬ a.Touches v) → ∀ c ∈ changes, ¬ c.Touches v := by
  induction hrun with
  | nil => exact ⟨h, [], .nil, fun _ => rfl, fun _ _ c hc => by cases hc⟩
  | @snoc tr lib₁ lib₂ a _ _ hstep ih =>
    rcases ih with ⟨h₁, changes, hchanges, hfollow, htouches⟩
    have h₂ : lib₂.Sound := h₁.execute hstep
    have hexecute := directory_execute h₁ h₂ hstep
    refine ⟨h₂, changes ++ [a.change lib₁], .snoc _ hchanges hexecute.2 ?_, fun k => ?_, ?_⟩
    · rw [hexecute.1]
    · rw [Directory.followAll_append, Statement.followAll_append, hfollow]
      refine Option.bind_congr fun l _ => ?_
      show ((a.change lib₁).follow l).bind _ = (a.follow l).bind _
      rw [follow_change]
      rfl
    · intro v hv c hc
      rcases List.mem_append.mp hc with hc | hc
      · exact htouches v (fun b hb => hv b (List.mem_append_left _ hb)) c hc
      · rw [List.mem_singleton.mp hc]
        exact fun hchange =>
          hv a (List.mem_append_right _ List.mem_cons_self) (touches_change hchange)

/-! ### The names of speakers -/

theorem nextId_execute (hstep : lib.execute a = some lib') :
    lib.speakers.nextId ≤ lib'.speakers.nextId := by
  cases a with
  | createSpeaker displayName embedding =>
    cases hstep
    exact Nat.le_succ _
  | mergeDelete fromId => cases hstep; exact le_rfl
  | pruneRecordingSpeakers recordingId keep => cases hstep; exact le_rfl
  | deleteRecordingSpeakers recordingId => cases hstep; exact le_rfl
  | _ =>
    rcases Option.ite_none_right_eq_some.mp hstep with ⟨-, hlib⟩
    cases hlib
    exact le_rfl

/-- A speaker that is in the library after a statement and is not new was there before, under the
name that the statement starts from. -/
theorem name_execute (h : lib.Sound) (hold : id < lib.speakers.nextId)
    (hstep : lib.execute a = some lib') (hn : lib'.nameOf id = some n) :
    ∃ m, lib.nameOf id = some m ∧ a.renamed id m = n := by
  have hname : ((lib.directory h).apply (a.change lib)).name id = some n := by
    rw [← (directory_execute h (h.execute hstep) hstep).1]
    exact hn
  by_cases hcall : ∃ displayName, a = .renameSpeaker id displayName
  · rcases hcall with ⟨displayName, rfl⟩
    rcases Option.ite_none_right_eq_some.mp hstep with ⟨hid, -⟩
    rw [← isSome_nameOf] at hid
    rcases Option.isSome_iff_exists.mp hid with ⟨m, hm⟩
    have hself : Function.update lib.nameOf id (some displayName) id = some n := hname
    rw [Function.update_self] at hself
    exact ⟨m, hm, (if_pos rfl).trans (Option.some.inj hself)⟩
  · have hother : ∀ m, a.change lib ≠ .call id m := by
      intro m hm
      cases a with
      | createSpeaker displayName embedding =>
        cases hm
        exact lt_irrefl _ hold
      | renameSpeaker k displayName =>
        cases hm
        exact hcall ⟨_, rfl⟩
      | setRecordingSpeaker recordingId localIdx speakerId => cases speakerId <;> cases hm
      | upsertRecordingSpeaker recordingId localIdx speakerId e => cases speakerId <;> cases hm
      | _ => cases hm
    refine ⟨n, name_apply hother hname, ?_⟩
    cases a with
    | renameSpeaker k displayName =>
      exact if_neg fun hk => hcall ⟨displayName, by rw [hk]⟩
    | _ => rfl

theorem nextId_run (hrun : Run Library.execute anyStep lib tr lib') :
    lib.speakers.nextId ≤ lib'.speakers.nextId := by
  induction hrun with
  | nil => exact le_rfl
  | snoc a _ _ hstep ih => exact ih.trans (nextId_execute hstep)

theorem name_run (h : lib.Sound) (hrun : Run Library.execute anyStep lib tr lib')
    (hold : id < lib.speakers.nextId) (hn : lib'.nameOf id = some n) :
    ∃ m, lib.nameOf id = some m ∧ tr.foldl (Statement.renamed id) m = n := by
  induction hrun generalizing n with
  | nil => exact ⟨n, hn, rfl⟩
  | @snoc tr lib₁ lib₂ a hrun₁ _ hstep ih =>
    have h₁ : lib₁.Sound := hrun₁.invariant h fun _ _ _ hs _ hstep => hs.execute hstep
    rcases name_execute h₁ (hold.trans_le (nextId_run hrun₁)) hstep hn with ⟨m₁, hm₁, hn₁⟩
    rcases ih hm₁ with ⟨m, hm, hfold⟩
    refine ⟨m, hm, ?_⟩
    rw [List.foldl_append, hfold]
    exact hn₁

/-! ### What is shown -/

theorem speakerName_eq (h : lib.Sound) {recordingId : Uuid} {i : ℤ} :
    lib.speakerName recordingId (some i) =
      some (((lib.directory h).shown (recordingId, i)).getD ("Speaker " ++ toString i)) := by
  have hshown : (lib.directory h).shown (recordingId, i) =
      (lib.holder (recordingId, i)).bind lib.nameOf := rfl
  rw [Library.speakerName, Option.bind_some, Option.map_some, hshown]
  cases (lib.holder (recordingId, i)).bind lib.nameOf <;> rfl

/-- The list of a recording's speakers shows the names that the lines show. -/
theorem displayName_of_mem (h : lib.Sound) {r : RecordingSpeaker E}
    (hr : r ∈ lib.recordingSpeakers) :
    lib.speakerName r.recordingId (some r.localIdx) = some (lib.displayName r) := by
  have hfind : lib.recordingSpeakers.find? (isVoice r.recordingId r.localIdx) = some r := by
    have hsome : (lib.recordingSpeakers.find? (isVoice r.recordingId r.localIdx)).isSome = true := by
      rw [List.find?_isSome]
      exact ⟨r, hr, isVoice_iff.mpr rfl⟩
    rcases Option.isSome_iff_exists.mp hsome with ⟨r', hr'⟩
    have hvoice : r'.voice = r.voice := isVoice_iff.mp (List.find?_some hr')
    rw [hr', List.inj_on_of_nodup_map h.keys (List.mem_of_find?_eq_some hr') hr hvoice]
  have hholder : lib.holder r.voice = r.speakerId := by
    unfold Library.holder RecordingSpeaker.voice
    rw [hfind, Option.bind_some]
  rw [speakerName_eq h]
  unfold Library.displayName
  rw [← hholder]
  rfl

/-- A voice that no statement is about is shown, in the list and on its lines, under the present
name of the speaker it was given, wherever that speaker has been reassigned to, and under its number
once the speaker is deleted or if it was given none. The name of a speaker is its last. -/
theorem shown_of_run {recordingId : Uuid} {i : ℤ} (h : lib.Sound)
    (hrun : Run Library.execute anyStep lib tr lib')
    (hv : ∀ a ∈ tr, ¬ a.Touches (recordingId, i)) :
    lib'.speakerName recordingId (some i) =
        some ((((lib.holder (recordingId, i)).bind (Statement.followAll tr)).bind lib'.nameOf).getD
          ("Speaker " ++ toString i)) ∧
      (∀ id, (lib.holder (recordingId, i)).bind (Statement.followAll tr) = some id →
        (lib'.nameOf id).isSome = true) ∧
      (∀ r ∈ lib'.recordingSpeakers, r.recordingId = recordingId → r.localIdx = i →
        some (lib'.displayName r) = lib'.speakerName recordingId (some i)) ∧
      ∀ id m n, lib.nameOf id = some m → lib'.nameOf id = some n →
        n = tr.foldl (Statement.renamed id) m := by
  rcases directory_run h hrun with ⟨h', changes, hchanges, hfollow, htouches⟩
  have hwho : lib'.holder (recordingId, i) =
      (lib.holder (recordingId, i)).bind (Statement.followAll tr) := by
    rw [← funext hfollow]
    exact who_of_run hchanges (htouches _ hv)
  rw [← hwho]
  refine ⟨speakerName_eq h', fun id hid => isSome_nameOf_of_holder h' hid, ?_, ?_⟩
  · rintro r hr rfl rfl
    exact (displayName_of_mem h' hr).symm
  · intro id m n hm hn
    have hold : id < lib.speakers.nextId := by
      rw [Library.nameOf, Option.map_eq_some_iff] at hm
      rcases hm with ⟨s, hs, -⟩
      exact id_of_row hs ▸ lib.speakers.id_lt s (List.mem_of_find?_eq_some hs)
    rcases name_run h hrun hold hn with ⟨m', hm', hfold⟩
    rw [hm] at hm'
    cases hm'
    exact hfold.symm

/-- Of two merges that overlap the second forgets whom the first sends to its source too late. -/
example : Statement.followAll ([.mergeReassign 2 3, .mergeReassign 1 2, .mergeDelete 1,
    .mergeDelete 2] : List (Statement Unit)) 1 = none := by decide

/-- One person under two names. Recording 7 has the first of them. -/
def twoEntries : Library Unit where
  speakers := ⟨[⟨1, "Ben", none⟩, ⟨2, "Benjamin", none⟩], 3, by decide, by decide⟩
  recordingSpeakers := [⟨7, 0, some 1, none⟩]

def oneEntry : Library Unit where
  speakers := (twoEntries.speakers.setName 2 "Benjamin Lee").erase 1
  recordingSpeakers := [⟨7, 0, some 2, none⟩]

/-- The name that is kept is corrected while the merge is under way. -/
def mergeRun : List (Statement Unit) :=
  [.mergeReassign 1 2, .renameSpeaker 2 "Benjamin Lee", .mergeDelete 1]

theorem run_oneEntry : Run Library.execute anyStep twoEntries mergeRun oneEntry :=
  run_of_allowed rfl fun _ _ _ => trivial

theorem shown_of_run_oneEntry :
    oneEntry.speakerName 7 (some 0) = some "Benjamin Lee" ∧
      ∀ r ∈ oneEntry.recordingSpeakers, oneEntry.displayName r = "Benjamin Lee" := by
  have h := @shown_of_run _ twoEntries oneEntry mergeRun 7 0 ⟨by decide, by decide⟩ run_oneEntry (by
    intro a ha
    simp only [mergeRun, List.mem_cons, List.not_mem_nil, or_false] at ha
    rcases ha with rfl | rfl | rfl <;> exact id)
  refine ⟨h.1, fun r hr => ?_⟩
  have hone := List.mem_singleton.mp hr
  exact Option.some.inj ((h.2.2.1 r hr (hone ▸ rfl) (hone ▸ rfl)).trans h.1)

end ScribeLocal.NameSpeaker
