import ScribeLocal.Phone.Acts

/-!
# What holds of the phone in every state

A recording is unfinished as long as the session or a queued block belongs to it, and the
upload queue knows what it has seen of the recording it works on.
-/
namespace ScribeLocal.Phone
open Table

namespace Block

def id : Block → LocalId
  | save id _ => id
  | finish id _ => id

def isFinish : Block → Bool
  | save _ _ => false
  | finish _ _ => true

def change : Block → LocalRecording → LocalRecording
  | save _ g => addSegment g
  | finish _ totalMs => setFinished totalMs

theorem run_eq (b : Block) (items : Store) : b.run items = items.update b.id b.change := by
  cases b <;> rfl

end Block

/-- The recording `process` works on. -/
def Task.id? : Task → Option LocalId
  | .idle => none
  | .begin id | .delete id _ | .discard id | .create id _ | .created id _ _ | .upload id _ _
  | .put id _ _ _ | .uploaded id _ _ _ | .unlink id _ _ _ | .complete id _ _ _ | .completed id
  | .remove id | .clear id => some id

/-- What `process` has found out about its recording. -/
def Task.expects : Task → LocalRecording → Prop
  | .idle, _ | .clear _, _ => True
  | .begin _, r => r.completed = false
  | .delete _ _, r | .discard _, r => r.completed = false ∧ r.finished = true ∧ r.segments = []
  | .create _ _, r | .created _ _ _, r => r.completed = false ∧ r.serverId = none
  | .upload _ sid _, r | .put _ sid _ _, r | .uploaded _ sid _ _, r | .unlink _ sid _ _, r =>
    r.completed = false ∧ r.serverId = some sid
  | .complete _ sid _ _, r =>
    r.completed = false ∧ r.finished = true ∧ r.pending = [] ∧ r.serverId = some sid
  | .completed _, r =>
    r.completed = false ∧ r.finished = true ∧ r.pending = [] ∧ r.serverId.isSome = true
  | .remove _, r => r.completed = true

structure Kept (s : App) : Prop where
  nodup : (s.items.map LocalRecording.id).Nodup
  known : ∀ r ∈ s.items, r.id < s.nextId
  taskKnown : ∀ id, s.task.id? = some id → id < s.nextId
  /-- Nobody records into a finished recording. -/
  stopped : ∀ r ∈ s.items, r.finished = true →
    (∀ b ∈ s.queue, b.id ≠ r.id) ∧ ∀ ses, s.session = some ses → ses.id ≠ r.id
  done : ∀ r ∈ s.items, r.completed = true →
    r.finished = true ∧ r.pending = [] ∧ r.serverId.isSome = true
  session : ∀ ses, s.session = some ses → (∃ r ∈ s.items, r.id = ses.id) ∧
    (∀ b ∈ s.queue, b.isFinish = true → b.id ≠ ses.id) ∧ (ses.phase = .starting →
      ses.fileOpen = false ∧ (∀ r ∈ s.items, r.id = ses.id → r.segments = []) ∧
      ∀ b ∈ s.queue, b.id ≠ ses.id)
  finish : ∀ b ∈ s.queue, b.isFinish = true → ∃ r ∈ s.items, r.id = b.id
  /-- Once `finished` is queued, nothing of the recording is queued behind it. -/
  order : s.queue.Pairwise fun b c => b.isFinish = true → c.id ≠ b.id
  queueKnown : ∀ b ∈ s.queue, b.id < s.nextId
  task : ∀ r ∈ s.items, s.task.id? = some r.id → s.task.expects r

variable {s s' : App} {a : Action} {id : LocalId} {r r' : LocalRecording}
  {change : LocalRecording → LocalRecording}

theorem Kept.unique (hs : Kept s) (hr : r ∈ s.items) (hr' : r' ∈ s.items) (hid : r.id = r'.id) :
    r = r' := List.inj_on_of_nodup_map hs.nodup hr hr' hid

theorem kept_start : Kept App.start where
  nodup := List.nodup_nil
  known _ h := nomatch h
  taskKnown _ h := nomatch h
  stopped _ h := nomatch h
  done _ h := nomatch h
  session _ h := nomatch h
  finish _ h := nomatch h
  order := .nil
  queueKnown _ h := nomatch h
  task _ h := nomatch h

/-! ## Updates -/

theorem nodup_update (hchange : ∀ r, (change r).id = r.id) {items : Store}
    (h : (items.map LocalRecording.id).Nodup) :
    ((items.update id change).map LocalRecording.id).Nodup := by
  rwa [Store.update, column_updateWhere hchange]

theorem nodup_remove {items : Store} (h : (items.map LocalRecording.id).Nodup) :
    ((items.remove id).map LocalRecording.id).Nodup := nodup_column_deleteWhere h

/-- Every recording is still there after an update, if changed. -/
theorem exists_update (id : LocalId) (hchange : ∀ r, (change r).id = r.id) {items : Store}
    (hr : r ∈ items) :
    ∃ r' ∈ items.update id change, r'.id = r.id := by
  refine ⟨if r.id = id then change r else r, mem_update.mpr ⟨r, hr, rfl⟩, ?_⟩
  split
  · exact hchange r
  · rfl

/-- The changes that recording makes: they leave alone what the upload queue has written. -/
structure Recorder (change : LocalRecording → LocalRecording) : Prop where
  id : ∀ r, (change r).id = r.id
  serverId : ∀ r, (change r).serverId = r.serverId
  completed : ∀ r, (change r).completed = r.completed

theorem recorder_addMark (ms : ℤ) : Recorder (addMark ms) := ⟨fun _ => rfl, fun _ => rfl, fun _ => rfl⟩

theorem recorder_addSegment (g : Segment) : Recorder (addSegment g) :=
  ⟨fun _ => rfl, fun _ => rfl, fun _ => rfl⟩

theorem Block.recorder (b : Block) : Recorder b.change := by
  cases b <;> exact ⟨fun _ => rfl, fun _ => rfl, fun _ => rfl⟩

theorem expects_recorder {t : Task} (hchange : Recorder change) (hopen : r.finished = false)
    (h : t.expects r) : t.expects (change r) := by
  have hid := hchange.serverId r
  have hcompleted := hchange.completed r
  cases t <;> simp_all [Task.expects]

/-! ## What the upload queue does -/

/-- The changes that the upload queue makes. -/
structure Written (change : LocalRecording → LocalRecording) : Prop where
  id : ∀ r, (change r).id = r.id
  finished : ∀ r, (change r).finished = r.finished
  empty : ∀ r, r.segments = [] → (change r).segments = []

theorem written_setServerId (sid : Uuid) : Written (setServerId sid) :=
  ⟨fun _ => rfl, fun _ => rfl, fun _ h => h⟩

theorem written_markUploaded (seq : ℕ) : Written (markUploaded seq) :=
  ⟨fun _ => rfl, fun _ => rfl, fun _ h => by simp [markUploaded, h, updateWhere]⟩

theorem written_markCompleted : Written markCompleted :=
  ⟨fun _ => rfl, fun _ => rfl, fun _ h => h⟩

/-- Another statement of `process`, over the same store. -/
theorem kept_task (hs : Kept s) {files : List (LocalId × ℕ)} {t : Task}
    (hknown : ∀ id, t.id? = some id → id < s.nextId)
    (ht : ∀ r ∈ s.items, t.id? = some r.id → t.expects r) :
    Kept { s with files := files, task := t } where
  nodup := hs.nodup
  known := hs.known
  taskKnown := hknown
  stopped := hs.stopped
  done := hs.done
  session := hs.session
  finish := hs.finish
  order := hs.order
  queueKnown := hs.queueKnown
  task := ht

/-- `process` goes on with its recording. -/
theorem kept_next (hs : Kept s) {files : List (LocalId × ℕ)} {t : Task} (hid : t.id? = s.task.id?)
    (ht : ∀ r ∈ s.items, t.id? = some r.id → s.task.expects r → t.expects r) :
    Kept { s with files := files, task := t } := by
  apply kept_task hs
  · intro id hsome
    exact hs.taskKnown id (hid ▸ hsome)
  · intro r hr hsome
    exact ht r hr hsome (hs.task r hr (hid ▸ hsome))

theorem kept_idle (hs : Kept s) {files : List (LocalId × ℕ)} :
    Kept { s with files := files, task := .idle } := kept_task hs nofun fun _ _ _ => trivial

/-- A recording is removed that nobody records into. -/
theorem kept_remove (hs : Kept s) {session : Option Session} {t : Task}
    (hqueue : ∀ b ∈ s.queue, b.isFinish = true → b.id ≠ id)
    (hsession : ∀ ses, session = some ses → s.session = some ses ∧ ses.id ≠ id)
    (ht : t = s.task ∨ t = .clear id ∧ s.task.id? = some id) :
    Kept { s with items := s.items.remove id, session := session, task := t } where
  nodup := nodup_remove hs.nodup
  known r hr := hs.known r (mem_remove.mp hr).1
  taskKnown i hi := by
    rcases ht with rfl | ⟨rfl, hid⟩
    · exact hs.taskKnown i hi
    · exact hs.taskKnown i (hid.trans hi)
  stopped r hr hfin := by
    have hold := hs.stopped r (mem_remove.mp hr).1 hfin
    exact ⟨hold.1, fun ses hses => hold.2 ses (hsession ses hses).1⟩
  done r hr := hs.done r (mem_remove.mp hr).1
  session ses hses := by
    rcases hsession ses hses with ⟨hold, hne⟩
    rcases hs.session ses hold with ⟨⟨r, hr, hid⟩, hfinish, hstart⟩
    refine ⟨⟨r, mem_remove.mpr ⟨hr, hid ▸ hne⟩, hid⟩, hfinish, fun hphase => ?_⟩
    rcases hstart hphase with ⟨hopen, hempty, hblocks⟩
    exact ⟨hopen, fun r hr => hempty r (mem_remove.mp hr).1, hblocks⟩
  finish b hb hfin := by
    rcases hs.finish b hb hfin with ⟨r, hr, hid⟩
    exact ⟨r, mem_remove.mpr ⟨hr, hid ▸ hqueue b hb hfin⟩, hid⟩
  order := hs.order
  queueKnown := hs.queueKnown
  task r hr hid := by
    rcases ht with rfl | ⟨rfl, -⟩
    · exact hs.task r (mem_remove.mp hr).1 hid
    · trivial

/-- The queue writes down what it has done. -/
theorem kept_written (hs : Kept s) {t : Task} (hchange : Written change)
    (hdone : ∀ r ∈ s.items, r.id = id → (change r).completed = true →
      r.finished = true ∧ (change r).pending = [] ∧ (change r).serverId.isSome = true)
    (htask : t.id? = s.task.id?)
    (ht : ∀ r ∈ s.items, r.id = id → t.id? = some id → t.expects (change r))
    (hother : t.id? = some id) :
    Kept { s with items := s.items.update id change, task := t } := by
  have hold (r : LocalRecording) (hr : r ∈ s.items.update id change) : ∃ old ∈ s.items,
      r.id = old.id ∧ r.finished = old.finished ∧ (old.segments = [] → r.segments = []) := by
    rcases mem_update.mp hr with ⟨old, hmem, rfl⟩
    refine ⟨old, hmem, ?_⟩
    split
    · exact ⟨hchange.id old, hchange.finished old, hchange.empty old⟩
    · exact ⟨rfl, rfl, fun h => h⟩
  constructor
  · exact nodup_update hchange.id hs.nodup
  · intro r hr
    rcases hold r hr with ⟨old, hmem, heq, -⟩
    rw [heq]
    exact hs.known old hmem
  · intro i hi
    exact hs.taskKnown i (htask ▸ hi)
  · intro r hr hfin
    rcases hold r hr with ⟨old, hmem, heq, hfeq, -⟩
    rw [heq]
    exact hs.stopped old hmem (hfeq ▸ hfin)
  · intro r hr hcompleted
    rcases mem_update.mp hr with ⟨old, hmem, heq⟩
    by_cases hold : old.id = id
    · rw [if_pos hold] at heq
      rw [heq] at hcompleted ⊢
      rw [hchange.finished]
      exact hdone old hmem hold hcompleted
    · rw [if_neg hold] at heq
      exact heq ▸ hs.done old hmem (heq ▸ hcompleted)
  · intro ses hses
    rcases hs.session ses hses with ⟨⟨r, hr, heq⟩, hfinish, hstart⟩
    rcases exists_update id hchange.id hr with ⟨r', hr', hrid⟩
    refine ⟨⟨r', hr', hrid.trans heq⟩, hfinish, fun hphase => ?_⟩
    rcases hstart hphase with ⟨hopen, hnone, hblocks⟩
    refine ⟨hopen, fun r'' hr'' hid'' => ?_, hblocks⟩
    rcases hold r'' hr'' with ⟨old, hmem, heq', -, hseg⟩
    exact hseg (hnone old hmem (heq'.symm.trans hid''))
  · intro b hb hfin
    rcases hs.finish b hb hfin with ⟨r, hr, heq⟩
    rcases exists_update id hchange.id hr with ⟨r', hr', hrid⟩
    exact ⟨r', hr', hrid.trans heq⟩
  · exact hs.order
  · exact hs.queueKnown
  · intro r hr hrid
    rcases mem_update.mp hr with ⟨old, hmem, heq⟩
    by_cases hold : old.id = id
    · rw [if_pos hold] at heq
      rw [heq]
      exact ht old hmem hold hother
    · rw [if_neg hold] at heq
      rw [heq] at hrid
      exact absurd (Option.some.inj (hrid.symm.trans hother)) hold

/-- A recording told complete has nothing left to do. -/
theorem not_completed_of_hasWork (hs : Kept s) (hr : r ∈ s.items) (hwork : r.hasWork = true) :
    r.completed = false := by
  by_contra hcompleted
  rw [Bool.not_eq_false] at hcompleted
  rcases hs.done r hr hcompleted with ⟨hfin, hpending, hserver⟩
  rw [LocalRecording.hasWork, hpending, hcompleted, hfin] at hwork
  cases hsid : r.serverId with
  | none => simp [hsid] at hserver
  | some sid => simp [hsid] at hwork

theorem kept_reply (hs : Kept s) {rep : Reply} {t : Task} (h : s.task.reply rep = some t) :
    Kept { s with task := t } := by
  have hreplied := reply_replied h
  generalize htask : s.task = task at hreplied
  cases hreplied with
  | deleted | created | uploaded =>
    apply kept_next hs (by rw [htask]; rfl)
    intro r _ _ hold
    rwa [htask] at hold
  | completed =>
    apply kept_next hs (by rw [htask]; rfl)
    intro r _ _ hold
    rw [htask] at hold
    rcases hold with ⟨hnot, hfin, hpending, hserver⟩
    exact ⟨hnot, hfin, hpending, by simp [hserver]⟩
  | thrown => exact kept_idle hs

theorem kept_uploads (hs : Kept s) (h : Uploads s a s') : Kept s' := by
  have hget {id : LocalId} {r r' : LocalRecording} (hget : s.items.get id = some r)
      (hr' : r' ∈ s.items) (hid : some id = some r'.id) : r' = r := by
    have hmem := get_eq_some hget
    exact hs.unique hr' hmem.1 ((Option.some.inj hid).symm.trans hmem.2.symm)
  have hexpects {t : Task} {id : LocalId} (htask : s.task = t) (hid : t.id? = some id)
      (r : LocalRecording) (hr : r ∈ s.items) (hrid : r.id = id) : t.expects r := by
    have hold := hs.task r hr
    rw [htask, hid, hrid] at hold
    exact hold rfl
  -- nobody records into a recording that is finished
  have hremove {id : LocalId} (htask : s.task.id? = some id)
      (hfin : ∀ r ∈ s.items, r.id = id → r.finished = true) :
      Kept { s with items := s.items.remove id, task := .clear id } := by
    apply kept_remove hs _ _ (.inr ⟨rfl, htask⟩)
    · rintro b hb hbfin rfl
      rcases hs.finish b hb hbfin with ⟨r, hr, hid⟩
      exact (hs.stopped r hr (hfin r hr hid)).1 b hb hid.symm
    · rintro ses hses
      refine ⟨hses, ?_⟩
      rintro rfl
      rcases (hs.session ses hses).1 with ⟨r, hr, hid⟩
      exact (hs.stopped r hr (hfin r hr hid)).2 ses hses hid.symm
  cases h with
  | @next id htask hwork =>
    rcases nextWork_eq_some hwork with ⟨r, hr, rfl, hleft⟩
    apply kept_task hs
    · rintro i ⟨⟩
      exact hs.known r hr
    · intro r' hr' hid
      rw [hs.unique hr' hr (Option.some.inj hid).symm]
      exact not_completed_of_hasWork hs hr hleft
  | gone => exact kept_idle hs
  | @empty id r htask hsome hfin hempty =>
    have hnot (r' : LocalRecording) (hr' : r' ∈ s.items) (hid : some id = some r'.id)
        (hold : s.task.expects r') :
        r'.completed = false ∧ r'.finished = true ∧ r'.segments = [] := by
      rw [htask] at hold
      rw [hget hsome hr' hid] at hold ⊢
      exact ⟨hold, hfin, hempty⟩
    cases hsid : r.serverId with
    | none => exact kept_next hs (t := .discard id) (by rw [htask]; rfl) hnot
    | some sid => exact kept_next hs (t := .delete id sid) (by rw [htask]; rfl) hnot
  | @fresh id r htask hsome hsid =>
    apply kept_next hs (by rw [htask]; rfl)
    intro r' hr' hid hold
    rw [htask] at hold
    exact ⟨hold, hget hsome hr' hid ▸ hsid⟩
  | @known id sid r htask hsome hsid =>
    apply kept_next hs (by rw [htask]; rfl)
    intro r' hr' hid hold
    rw [htask] at hold
    exact ⟨hold, hget hsome hr' hid ▸ hsid⟩
  | @discard id htask =>
    exact hremove (by rw [htask]; rfl) fun r hr hid => (hexpects htask rfl r hr hid).2.1
  | @created id sid segs htask =>
    apply kept_written hs (written_setServerId sid) _ (by rw [htask]; rfl) _ rfl
    · intro r hr hid hcompleted
      have hnot : r.completed = false := (hexpects htask rfl r hr hid).1
      cases hnot.symm.trans hcompleted
    · intro r hr hid _
      exact ⟨(hexpects htask rfl r hr hid).1, rfl⟩
  | send htask | skip htask | unlink htask =>
    apply kept_next hs (by rw [htask]; rfl)
    intro r' _ _ hold
    rwa [htask] at hold
  | more | clear => exact kept_idle hs
  | @ready id sid r htask hsome hfin hpending hnot =>
    apply kept_next hs (by rw [htask]; rfl)
    intro r' hr' hid hold
    rw [htask] at hold
    have heq := hget hsome hr' hid
    exact ⟨hold.1, heq ▸ hfin, heq ▸ hpending, hold.2⟩
  | @uploaded id sid g rest htask =>
    apply kept_written hs (written_markUploaded g.seq) _ (by rw [htask]; rfl) _ rfl
    · intro r hr hid hcompleted
      have hnot : r.completed = false := (hexpects htask rfl r hr hid).1
      cases hnot.symm.trans hcompleted
    · intro r hr hid _
      exact hexpects htask rfl r hr hid
  | @completed id htask =>
    apply kept_written hs written_markCompleted _ (by rw [htask]; rfl) _ rfl
    · intro r hr hid _
      exact (hexpects htask rfl r hr hid).2
    · intro r hr hid _
      rfl
  | @remove id htask =>
    exact hremove (by rw [htask]; rfl)
      fun r hr hid => (hs.done r hr (hexpects htask rfl r hr hid)).1
  | reply hreply => exact kept_reply hs hreply

/-! ## What the session and the main thread do -/

theorem kept_begun (hs : Kept s) (date : ℕ) : Kept
    { s with
      items := s.items ++ [⟨s.nextId, none, date, [], [], 0, false, false⟩]
      nextId := s.nextId + 1
      session := some ⟨s.nextId, .starting, 0, false, 0, 0, false⟩ } := by
  have hnew (r : LocalRecording) (hr : r ∈ s.items) : r.id ≠ s.nextId :=
    Nat.ne_of_lt (hs.known r hr)
  have hitems {P : LocalRecording → Prop} (hold : ∀ r ∈ s.items, P r)
      (hlast : P ⟨s.nextId, none, date, [], [], 0, false, false⟩) :
      ∀ r ∈ s.items ++ [⟨s.nextId, none, date, [], [], 0, false, false⟩], P r := by
    intro r hr
    rcases List.mem_append.mp hr with hr | hr
    · exact hold r hr
    · exact List.mem_singleton.mp hr ▸ hlast
  constructor
  · rw [List.map_append]
    apply hs.nodup.append (List.nodup_singleton _)
    intro id hid hlast
    rcases List.mem_map.mp hid with ⟨r, hr, rfl⟩
    exact hnew r hr (List.mem_singleton.mp hlast)
  · exact hitems (fun r hr => Nat.lt_succ_of_lt (hs.known r hr)) (Nat.lt_succ_self _)
  · exact fun id hid => Nat.lt_succ_of_lt (hs.taskKnown id hid)
  · apply hitems
    · intro r hr hfin
      refine ⟨(hs.stopped r hr hfin).1, ?_⟩
      rintro ses ⟨⟩
      exact (hnew r hr).symm
    · intro hfin
      cases hfin
  · apply hitems hs.done
    intro hcompleted
    cases hcompleted
  · rintro ses ⟨⟩
    have hblocks (b : Block) (hb : b ∈ s.queue) : b.id ≠ s.nextId :=
      Nat.ne_of_lt (hs.queueKnown b hb)
    refine ⟨⟨_, List.mem_append_right _ List.mem_cons_self, rfl⟩, fun b hb _ => hblocks b hb,
      fun _ => ⟨rfl, ?_, hblocks⟩⟩
    exact hitems (fun r hr hid => absurd hid (hnew r hr)) fun _ => rfl
  · intro b hb hfin
    rcases hs.finish b hb hfin with ⟨r, hr, hid⟩
    exact ⟨r, List.mem_append_left _ hr, hid⟩
  · exact hs.order
  · exact fun b hb => Nat.lt_succ_of_lt (hs.queueKnown b hb)
  · apply hitems hs.task
    intro hid
    exact absurd (hs.taskKnown _ hid) (Nat.lt_irrefl _)

/-- The session changes, and blocks that belong to it are queued. -/
theorem kept_queued (hs : Kept s) {ses : Session} (hses : s.session = some ses)
    {files : List (LocalId × ℕ)} {session : Option Session} {blocks : List Block}
    (hblocks : ∀ b ∈ blocks, b.id = ses.id)
    (hlast : blocks.Pairwise fun b _ => b.isFinish = false)
    (hsession : ∀ ses', session = some ses' → ses'.id = ses.id ∧ ses'.phase ≠ .starting ∧
      ∀ b ∈ blocks, b.isFinish = false) :
    Kept { s with files := files, session := session, queue := s.queue ++ blocks } := by
  have hold := hs.session ses hses
  rcases hold.1 with ⟨rec, hrec, hid⟩
  constructor
  · exact hs.nodup
  · exact hs.known
  · exact hs.taskKnown
  · intro r hr hfin
    have hstopped := hs.stopped r hr hfin
    constructor
    · intro b hb
      rcases List.mem_append.mp hb with hb | hb
      · exact hstopped.1 b hb
      · exact hblocks b hb ▸ hstopped.2 ses hses
    · intro ses' hses'
      exact (hsession ses' hses').1 ▸ hstopped.2 ses hses
  · exact hs.done
  · intro ses' hses'
    rcases hsession ses' hses' with ⟨hsame, hphase, hnot⟩
    refine ⟨⟨rec, hrec, hid.trans hsame.symm⟩, ?_, fun hstart => absurd hstart hphase⟩
    intro b hb hfin
    rcases List.mem_append.mp hb with hb | hb
    · exact hsame ▸ hold.2.1 b hb hfin
    · rw [hnot b hb] at hfin
      cases hfin
  · intro b hb hfin
    rcases List.mem_append.mp hb with hb | hb
    · exact hs.finish b hb hfin
    · exact ⟨rec, hrec, hid.trans (hblocks b hb).symm⟩
  · apply List.pairwise_append.mpr
    refine ⟨hs.order, ?_, ?_⟩
    · apply hlast.imp
      intro b c hnot hfin
      rw [hnot] at hfin
      cases hfin
    · intro b hb c hc hfin
      rw [hblocks c hc]
      exact (hold.2.1 b hb hfin).symm
  · intro b hb
    rcases List.mem_append.mp hb with hb | hb
    · exact hs.queueKnown b hb
    · rw [hblocks b hb, ← hid]
      exact hs.known rec hrec
  · exact hs.task

/-- The recorder changes an unfinished recording. -/
theorem kept_recorded (hs : Kept s) (hchange : Recorder change)
    (hopen : ∀ r ∈ s.items, r.id = id → r.finished = false)
    (hstopped : ∀ r ∈ s.items, r.id = id → (change r).finished = true →
      (∀ b ∈ s.queue, b.id ≠ id) ∧ ∀ ses, s.session = some ses → ses.id ≠ id)
    (hempty : ∀ ses, s.session = some ses → ses.phase = .starting → ses.id ≠ id) :
    Kept { s with items := s.items.update id change } := by
  have hold {r : LocalRecording} (hr : r ∈ s.items.update id change) :
      ∃ old ∈ s.items, r.id = old.id ∧ (old.id = id ∧ r = change old ∨ old.id ≠ id ∧ r = old) := by
    rcases mem_update.mp hr with ⟨old, hmem, heq⟩
    refine ⟨old, hmem, ?_⟩
    by_cases hid : old.id = id
    · rw [if_pos hid] at heq
      exact ⟨heq ▸ hchange.id old, .inl ⟨hid, heq⟩⟩
    · rw [if_neg hid] at heq
      exact ⟨heq ▸ rfl, .inr ⟨hid, heq⟩⟩
  constructor
  · exact nodup_update hchange.id hs.nodup
  · intro r hr
    rcases hold hr with ⟨old, hmem, heq, -⟩
    rw [heq]
    exact hs.known old hmem
  · exact hs.taskKnown
  · intro r hr hfin
    rcases hold hr with ⟨old, hmem, heq, ⟨hid, rfl⟩ | ⟨-, rfl⟩⟩
    · rw [heq, hid]
      exact hstopped old hmem hid hfin
    · exact hs.stopped r hmem hfin
  · intro r hr hcompleted
    rcases hold hr with ⟨old, hmem, -, ⟨hid, rfl⟩ | ⟨-, rfl⟩⟩
    · rw [hchange.completed] at hcompleted
      have hfin := (hs.done old hmem hcompleted).1
      rw [hopen old hmem hid] at hfin
      cases hfin
    · exact hs.done r hmem hcompleted
  · intro ses hses
    rcases hs.session ses hses with ⟨⟨rec, hrec, hid⟩, hfinish, hstart⟩
    rcases exists_update id hchange.id hrec with ⟨rec', hrec', hid'⟩
    refine ⟨⟨rec', hrec', hid'.trans hid⟩, hfinish, fun hphase => ?_⟩
    rcases hstart hphase with ⟨hfile, hnone, hblocks⟩
    refine ⟨hfile, fun r hr hrid => ?_, hblocks⟩
    rcases hold hr with ⟨old, hmem, heq, ⟨hold, rfl⟩ | ⟨-, rfl⟩⟩
    · exact absurd (hrid.symm.trans (heq.trans hold)) (hempty ses hses hphase)
    · exact hnone r hmem hrid
  · intro b hb hfin
    rcases hs.finish b hb hfin with ⟨rec, hrec, hid⟩
    rcases exists_update id hchange.id hrec with ⟨rec', hrec', hid'⟩
    exact ⟨rec', hrec', hid'.trans hid⟩
  · exact hs.order
  · exact hs.queueKnown
  · intro r hr hid
    rcases hold hr with ⟨old, hmem, heq, ⟨hold, rfl⟩ | ⟨-, rfl⟩⟩
    · exact expects_recorder hchange (hopen old hmem hold) (hs.task old hmem (heq ▸ hid))
    · exact hs.task r hmem hid

/-- The first block is taken off the queue. -/
theorem kept_dequeued (hs : Kept s) {b : Block} {rest : List Block} (hqueue : s.queue = b :: rest) :
    Kept { s with queue := rest } := by
  have hmem (c : Block) (hc : c ∈ rest) : c ∈ s.queue := hqueue ▸ List.mem_cons_of_mem b hc
  constructor
  · exact hs.nodup
  · exact hs.known
  · exact hs.taskKnown
  · intro r hr hfin
    have hstopped := hs.stopped r hr hfin
    exact ⟨fun c hc => hstopped.1 c (hmem c hc), hstopped.2⟩
  · exact hs.done
  · intro ses hses
    rcases hs.session ses hses with ⟨hrec, hfinish, hstart⟩
    refine ⟨hrec, fun c hc => hfinish c (hmem c hc), fun hphase => ?_⟩
    rcases hstart hphase with ⟨hfile, hnone, hblocks⟩
    exact ⟨hfile, hnone, fun c hc => hblocks c (hmem c hc)⟩
  · exact fun c hc => hs.finish c (hmem c hc)
  · have horder := hs.order
    rw [hqueue] at horder
    exact (List.pairwise_cons.mp horder).2
  · exact fun c hc => hs.queueKnown c (hmem c hc)
  · exact hs.task

theorem kept_main (hs : Kept s) {b : Block} {rest : List Block} (hqueue : s.queue = b :: rest) :
    Kept { s with items := b.run s.items, queue := rest } := by
  have hb : b ∈ s.queue := hqueue ▸ List.mem_cons_self
  have hopen (r : LocalRecording) (hr : r ∈ s.items) (hid : r.id = b.id) : r.finished = false := by
    by_contra hfin
    exact (hs.stopped r hr (by simpa using hfin)).1 b hb hid.symm
  have horder := hs.order
  rw [hqueue] at horder
  rw [b.run_eq]
  apply kept_recorded (kept_dequeued hs hqueue) b.recorder hopen
  · intro r hr hid hfin
    cases b with
    | save id g =>
      have hsame : r.finished = true := hfin
      rw [hopen r hr hid] at hsame
      cases hsame
    | finish id totalMs =>
      constructor
      · exact fun c hc => (List.pairwise_cons.mp horder).1 c hc rfl
      · exact fun ses hses => ((hs.session ses hses).2.1 _ hb rfl).symm
  · intro ses hses hphase
    exact (((hs.session ses hses).2.2 hphase).2.2 b hb).symm

theorem kept_records (hs : Kept s) (h : Records s a s') : Kept s' := by
  have hopen {ses : Session} (hses : s.session = some ses) (r : LocalRecording) (hr : r ∈ s.items)
      (hid : r.id = ses.id) : r.finished = false := by
    by_contra hfin
    exact (hs.stopped r hr (by simpa using hfin)).2 ses hses hid.symm
  cases h with
  | start date _ => exact kept_begun hs date
  | @startFailed ses hses hphase =>
    exact kept_remove hs (hs.session ses hses).2.1 nofun (.inl rfl)
  | @goOn _ ses ses' hses hid hphase =>
    have hnot : ses'.phase ≠ .starting := by
      intro hstart
      rcases hphase hstart with ⟨hold, hfile⟩
      rw [((hs.session ses hses).2.2 hold).1] at hfile
      cases hfile
    have hkept : Kept { s with files := s.files, session := some ses', queue := s.queue ++ [] } := by
      refine kept_queued hs hses nofun .nil fun ses'' h => ?_
      cases h
      exact ⟨hid, hnot, nofun⟩
    rwa [List.append_nil] at hkept
  | @roll _ ses ses' g hses hid hphase hfile hnew =>
    have hnot : ses'.phase ≠ .starting := by
      intro hstart
      rw [((hs.session ses hses).2.2 (hphase ▸ hstart)).1] at hfile
      cases hfile
    apply kept_queued hs hses (by simp [Block.id]) (List.pairwise_singleton _ _)
    rintro ses'' ⟨⟩
    exact ⟨hid, hnot, by simp [Block.isFinish]⟩
  | mark ms hses hphase =>
    apply kept_recorded hs (recorder_addMark ms) (hopen hses)
    · intro r hr hid hfin
      have hsame : r.finished = true := hfin
      rw [hopen hses r hr hid] at hsame
      cases hsame
    · intro ses' hses' hstart _
      cases hses.symm.trans hses'
      exact hphase hstart
  | @stop ses _ totalMs hses =>
    exact kept_queued hs hses (by simp [Block.id]) (List.pairwise_singleton _ _) nofun
  | @stopSaved ses g _ totalMs hses hphase hnew =>
    have hrecorded : Kept { s with items := s.items.update ses.id (addSegment g) } := by
      apply kept_recorded hs (recorder_addSegment g) (hopen hses)
      · intro r hr hid hfin
        have hsame : r.finished = true := hfin
        rw [hopen hses r hr hid] at hsame
        cases hsame
      · intro ses' hses' hstart _
        cases hses.symm.trans hses'
        exact hphase hstart
    exact kept_queued hrecorded hses (by simp [Block.id]) (List.pairwise_singleton _ _) nofun
  | @stopQueued ses g _ totalMs hses hphase hnew =>
    exact kept_queued hs hses (by simp [Block.id]) (by simp [Block.isFinish]) nofun
  | main b rest hqueue => exact kept_main hs hqueue
  | kill =>
    constructor
    · exact hs.nodup
    · exact hs.known
    · exact nofun
    · exact fun r hr _ => ⟨nofun, nofun⟩
    · exact hs.done
    · exact nofun
    · exact nofun
    · exact .nil
    · exact nofun
    · exact fun _ _ _ => trivial

/-- Recording leaves alone what the upload queue works on. -/
theorem records_old (h : Records s a s') (hkill : a ≠ .kill) : s'.task = s.task ∧
    ∀ r' ∈ s'.items, r'.id = s.nextId ∨ ∃ r ∈ s.items, r'.id = r.id ∧ r'.serverId = r.serverId := by
  have hsame (r' : LocalRecording) (hr' : r' ∈ s.items) : r'.id = s.nextId ∨
      ∃ r ∈ s.items, r'.id = r.id ∧ r'.serverId = r.serverId := .inr ⟨r', hr', rfl, rfl⟩
  have hupdate {id : LocalId} {change : LocalRecording → LocalRecording} (hchange : Recorder change)
      (r' : LocalRecording) (hr' : r' ∈ s.items.update id change) : r'.id = s.nextId ∨
      ∃ r ∈ s.items, r'.id = r.id ∧ r'.serverId = r.serverId := by
    rcases mem_update.mp hr' with ⟨r, hr, rfl⟩
    split
    · exact .inr ⟨r, hr, hchange.id r, hchange.serverId r⟩
    · exact hsame r hr
  cases h with
  | start date =>
    refine ⟨rfl, fun r' hr' => ?_⟩
    rcases List.mem_append.mp hr' with hr | hr
    · exact hsame r' hr
    · exact .inl (List.mem_singleton.mp hr ▸ rfl)
  | startFailed => exact ⟨rfl, fun r' hr' => hsame r' (mem_remove.mp hr').1⟩
  | mark ms => exact ⟨rfl, hupdate (recorder_addMark ms)⟩
  | @stopSaved ses g => exact ⟨rfl, hupdate (recorder_addSegment g)⟩
  | main b rest => exact ⟨rfl, b.run_eq s.items ▸ hupdate b.recorder⟩
  | kill => exact absurd rfl hkill
  | _ => exact ⟨rfl, hsame⟩

/-- Every step keeps the phone in order. -/
theorem kept_step (hs : Kept s) (h : s.step a = some s') : Kept s' := by
  rcases step_acts h with hrecords | huploads
  · exact kept_records hs hrecords
  · exact kept_uploads hs huploads

/-- Only a recording without audio, or one told complete, is ever removed. -/
theorem removed_step (hs : Kept s) (h : s.step a = some s') (hr : r ∈ s.items)
    (hgone : ∀ r' ∈ s'.items, r'.id ≠ r.id) :
    (r.segments = [] ∧ r.completed = false ∧
      (r.finished = false → ∃ ses, s.session = some ses ∧ ses.id = r.id)) ∨
    a = .work ∧ s.task = .remove r.id := by
  have hupdate {id : LocalId} {change : LocalRecording → LocalRecording}
      (hid : ∀ r, (change r).id = r.id) (heq : s'.items = s.items.update id change) : False := by
    rcases exists_update id hid hr with ⟨r', hr', hrid⟩
    exact hgone r' (heq ▸ hr') hrid
  have hremove {id : LocalId} (heq : s'.items = s.items.remove id) : r.id = id := by
    by_contra hne
    exact hgone r (heq ▸ mem_remove.mpr ⟨hr, hne⟩) rfl
  rcases step_acts h with hrecords | huploads
  · cases hrecords with
    | start => exact absurd rfl (hgone r (List.mem_append_left _ hr))
    | @startFailed ses hses hphase =>
      have hid : r.id = ses.id := hremove rfl
      refine .inl ⟨((hs.session ses hses).2.2 hphase).2.1 r hr hid, ?_, fun _ => ⟨ses, hses, hid.symm⟩⟩
      by_contra hcompleted
      have hfin := (hs.done r hr (by simpa using hcompleted)).1
      exact (hs.stopped r hr hfin).2 ses hses hid.symm
    | mark ms => exact (hupdate (recorder_addMark ms).id rfl).elim
    | @stopSaved ses g => exact (hupdate (recorder_addSegment g).id rfl).elim
    | main b rest => exact (hupdate b.recorder.id (b.run_eq _)).elim
    | _ => exact absurd rfl (hgone r hr)
  · cases huploads with
    | @discard id htask =>
      have hold := hs.task r hr
      rw [htask, hremove rfl] at hold
      rcases hold rfl with ⟨hnot, hfin, hempty⟩
      exact .inl ⟨hempty, hnot, fun hopen => nomatch hopen.symm.trans hfin⟩
    | @created id sid => exact (hupdate (written_setServerId sid).id rfl).elim
    | @uploaded id sid g => exact (hupdate (written_markUploaded g.seq).id rfl).elim
    | completed => exact (hupdate written_markCompleted.id rfl).elim
    | remove htask => exact .inr ⟨rfl, hremove rfl ▸ htask⟩
    | _ => exact absurd rfl (hgone r hr)

end ScribeLocal.Phone
