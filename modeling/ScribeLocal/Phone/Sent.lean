import ScribeLocal.Phone.Link

/-!
# What the server has when a recording leaves the phone
-/
namespace ScribeLocal.Phone
open Table Transition
open Server (Sys Label Config Cmd Request UploadLog HasTranscode HasSegment Pending Moved
  Putting Completing Refused)

variable {cfg : Config} {r : Uuid} {s s' : App} {a : Action} {k k' : Link} {l : LinkLabel}
  {b : LinkLog} {rec rec' : LocalRecording} {id : LocalId} {sid : Uuid}

/-- The segments waiting in the queue of the main thread are not uploaded. -/
def Unsent (s : App) : Prop := ∀ id g, Block.save id g ∈ s.queue → g.uploaded = false

theorem unsent_acts (h : Records s a s' ∨ Uploads s a s') (hs : Unsent s) : Unsent s' := by
  rcases h with h | h
  · cases h with
    | @roll _ ses _ g _ _ _ _ hnew | @stopQueued ses g _ _ _ _ hnew =>
      intro id g' hg'
      rcases List.mem_append.mp hg' with hg' | hg'
      · exact hs id g' hg'
      · simp only [List.mem_cons, Block.save.injEq, List.not_mem_nil, or_false, reduceCtorEq] at hg'
        rw [hg'.2]
        exact hnew
    | stop | stopSaved =>
      intro id g' hg'
      rcases List.mem_append.mp hg' with hg' | hg'
      · exact hs id g' hg'
      · simp at hg'
    | main c rest hqueue => exact fun id g hg => hs id g (hqueue ▸ List.mem_cons_of_mem _ hg)
    | kill => exact nofun
    | _ => exact hs
  · cases h <;> exact hs

/-- A recording continues an older one as far as uploading goes. -/
structure Goes (rec rec' : LocalRecording) : Prop where
  id : rec'.id = rec.id
  serverId : rec'.serverId = rec.serverId
  completed : rec'.completed = rec.completed
  segments : ∀ g ∈ rec'.segments, g.uploaded = true → g ∈ rec.segments

theorem goes_refl (rec : LocalRecording) : Goes rec rec := ⟨rfl, rfl, rfl, fun _ hg _ => hg⟩

theorem goes_addMark (ms : ℤ) (rec : LocalRecording) : Goes rec (addMark ms rec) :=
  ⟨rfl, rfl, rfl, fun _ hg _ => hg⟩

theorem goes_setFinished (totalMs : ℤ) (rec : LocalRecording) : Goes rec (setFinished totalMs rec) :=
  ⟨rfl, rfl, rfl, fun _ hg _ => hg⟩

theorem goes_addSegment {g : Segment} (hnew : g.uploaded = false) (rec : LocalRecording) :
    Goes rec (addSegment g rec) := by
  refine ⟨rfl, rfl, rfl, fun g' hg' hup => ?_⟩
  rcases List.mem_append.mp hg' with hg' | hg'
  · exact hg'
  · rw [List.mem_singleton.mp hg', hnew] at hup
    cases hup

/-- Recording uploads nothing. -/
theorem records_goes (hs : Unsent s) (h : Records s a s') (hrec' : rec' ∈ s'.items) :
    (rec'.id = s.nextId ∧ rec'.segments = [] ∧ rec'.completed = false) ∨
      ∃ rec ∈ s.items, Goes rec rec' := by
  have hsame (hmem : rec' ∈ s.items) : ∃ rec ∈ s.items, Goes rec rec' :=
    ⟨rec', hmem, goes_refl rec'⟩
  have hupdate {id : LocalId} {change : LocalRecording → LocalRecording}
      (hchange : ∀ rec, Goes rec (change rec)) (hmem : rec' ∈ s.items.update id change) :
      ∃ rec ∈ s.items, Goes rec rec' := by
    rcases mem_update.mp hmem with ⟨rec, hrec, rfl⟩
    refine ⟨rec, hrec, ?_⟩
    split
    · exact hchange rec
    · exact goes_refl rec
  cases h with
  | start date =>
    rcases List.mem_append.mp hrec' with hmem | hmem
    · exact .inr (hsame hmem)
    · rw [List.mem_singleton.mp hmem]
      exact .inl ⟨rfl, rfl, rfl⟩
  | startFailed => exact .inr (hsame (mem_remove.mp hrec').1)
  | mark ms => exact .inr (hupdate (goes_addMark ms) hrec')
  | stopSaved _ _ _ hnew => exact .inr (hupdate (goes_addSegment hnew) hrec')
  | main c rest hqueue =>
    cases c with
    | save id g =>
      have hnew : g.uploaded = false := hs id g (hqueue ▸ List.mem_cons_self)
      exact .inr (hupdate (goes_addSegment hnew) hrec')
    | finish id totalMs => exact .inr (hupdate (goes_setFinished totalMs) hrec')
  | _ => exact .inr (hsame hrec')

/-! ## The invariant -/

/-- The segment's file was gone, or the server has its row. -/
def Sent (b : LinkLog) (s : Sys) (id : LocalId) (sid : Uuid) (seq : ℕ) : Prop :=
  (id, seq) ∈ b.gone ∨ HasSegment sid seq s.db.content

/-- What is known about the recording at this point of `process`. -/
def Task.knows (r : Uuid) (b : LinkLog) (k : Link) : Task → Prop
  | .put _ sid g _ => ∀ i sid', k.call = some (i, sid') → Putting sid g.seq i k.server
  | .uploaded id sid g _ => Sent b k.server id sid g.seq
  | .complete _ sid _ _ => sid = r → ∀ i sid', k.call = some (i, sid') → Completing r i k.server
  | .completed id => ∀ rec ∈ k.app.items, rec.id = id → rec.serverId = some r →
    HasTranscode r k.server
  | _ => True

structure Linked (r : Uuid) (b : LinkLog) (k : Link) : Prop where
  kept : Kept k.app
  unsent : Unsent k.app
  snapshot : Server.Snapshot k.server
  staged : Server.Staged k.server
  upload : Server.Upload r b.upload k.server
  /-- A call belongs to the statement that waits for it. -/
  waiting : k.call ≠ none → k.app.task.call?.isSome = true
  task : k.app.task.knows r b k
  uploaded : ∀ rec ∈ k.app.items, ∀ g ∈ rec.segments, g.uploaded = true →
    ∃ sid, rec.serverId = some sid ∧ Sent b k.server rec.id sid g.seq
  completed : ∀ rec ∈ k.app.items, rec.completed = true → rec.serverId = some r →
    HasTranscode r k.server

theorem linked_start : Linked r {} Link.start where
  kept := kept_start
  unsent := nofun
  snapshot := Server.snapshot_start
  staged := Server.staged_start
  upload := Server.upload_start
  waiting h := absurd rfl h
  task := trivial
  uploaded _ h := nomatch h
  completed _ h := nomatch h

theorem sent_note {seq : ℕ} {t : Sys} (h : Sent b t id sid seq) : Sent (b.note r k l) t id sid seq := by
  refine h.imp (fun hgone => ?_) fun hhas => hhas
  unfold LinkLog.note
  split
  · exact hgone
  · split
    · split
      · exact hgone
      · exact List.mem_cons_of_mem _ hgone
    · exact hgone
  · exact hgone

/-- The phone's own steps tell nothing new about the server. -/
theorem note_app (a : Action) : (b.note r k (.app a)).upload = b.upload := by
  unfold LinkLog.note
  split
  · cases ‹LinkLabel.app a = .server _›
  · split
    · split <;> rfl
    · rfl
  · rfl

/-! ## One step -/

theorem linked_records (h : Linked r b k) {app : App} (hkept : Kept app)
    (hrec : Records k.app a app) (hkill : a ≠ .kill) :
    Linked r (b.note r k (.app a)) { k with app := app } := by
  have htask : app.task = k.app.task := (records_old hrec hkill).1
  refine ⟨hkept, unsent_acts (.inl hrec) h.unsent, h.snapshot, h.staged,
    (note_app a).symm ▸ h.upload, ?_, ?_, ?_, ?_⟩
  · change k.call ≠ none → app.task.call?.isSome = true
    rw [htask]
    exact h.waiting
  · have hold := h.task
    change app.task.knows r _ _
    rw [htask]
    cases ht : k.app.task with
    | uploaded id sid g rest =>
      rw [ht] at hold
      exact sent_note hold
    | completed id =>
      rw [ht] at hold
      intro rec' hrec' hid hserver
      rcases records_goes h.unsent hrec hrec' with ⟨hfresh, -⟩ | ⟨rec, hmem, hgoes⟩
      · have hlt := h.kept.taskKnown id (by rw [ht]; rfl)
        rw [← hid, hfresh] at hlt
        exact absurd hlt (Nat.lt_irrefl _)
      · exact hold rec hmem (hgoes.id.symm.trans hid) (hgoes.serverId.symm.trans hserver)
    | _ =>
      rw [ht] at hold
      exact hold
  · intro rec' hrec' g hg hup
    rcases records_goes h.unsent hrec hrec' with ⟨-, hempty, -⟩ | ⟨rec, hmem, hgoes⟩
    · rw [hempty] at hg
      cases hg
    · rcases h.uploaded rec hmem g (hgoes.segments g hg hup) hup with ⟨sid, hserver, hsent⟩
      refine ⟨sid, hgoes.serverId.trans hserver, ?_⟩
      rw [hgoes.id]
      exact sent_note hsent
  · intro rec' hrec' hcompleted hserver
    rcases records_goes h.unsent hrec hrec' with ⟨-, -, hnot⟩ | ⟨rec, hmem, hgoes⟩
    · cases hnot.symm.trans hcompleted
    · exact h.completed rec hmem (hgoes.completed.symm.trans hcompleted)
        (hgoes.serverId.symm.trans hserver)

theorem linked_kill (h : Linked r b k) {app : App} (hkept : Kept app)
    (happ : app = { k.app with session := none, queue := [], task := .idle }) :
    Linked r b { k with app := app, call := none } := by
  subst happ
  exact ⟨hkept, nofun, h.snapshot, h.staged, h.upload, fun hcall => absurd rfl hcall, trivial,
    h.uploaded, h.completed⟩

/-- What the store says about the recording that `process` works on. -/
theorem Linked.expects (h : Linked r b k) {t : Task} (htask : k.app.task = t)
    (hid : t.id? = some id) (hrec : rec ∈ k.app.items) (hrid : rec.id = id) : t.expects rec := by
  have hold := h.kept.task rec hrec
  rw [htask, hid, hrid] at hold
  exact hold rfl

theorem uploaded_uploads (h : Linked r b k) {app : App} (hup : Uploads k.app a app)
    (hrec' : rec' ∈ app.items) {g : Segment} (hg : g ∈ rec'.segments) (huploaded : g.uploaded = true) :
    ∃ sid, rec'.serverId = some sid ∧ Sent b k.server rec'.id sid g.seq := by
  cases hup with
  | discard | remove => exact h.uploaded rec' (mem_remove.mp hrec').1 g hg huploaded
  | @created id sid segs htask =>
    rcases mem_update.mp hrec' with ⟨rec, hrec, rfl⟩
    by_cases hid : rec.id = id
    · rw [if_pos hid] at hg ⊢
      have hnone : rec.serverId = none := (h.expects htask rfl hrec hid).2
      rcases h.uploaded rec hrec g hg huploaded with ⟨sid', hsome, -⟩
      cases hnone.symm.trans hsome
    · rw [if_neg hid] at hg ⊢
      exact h.uploaded rec hrec g hg huploaded
  | @uploaded id sid g₀ rest htask =>
    rcases mem_update.mp hrec' with ⟨rec, hrec, rfl⟩
    by_cases hid : rec.id = id
    · rw [if_pos hid] at hg ⊢
      have hserver : rec.serverId = some sid := (h.expects htask rfl hrec hid).2
      rcases mem_updateWhere.mp hg with ⟨old, hold, rfl⟩
      by_cases hseq : old.seq = g₀.seq
      · have hsent : Sent b k.server id sid g₀.seq := by
          have hknows := h.task
          rw [htask] at hknows
          exact hknows
        rw [updateRow_of_pos (by simpa using hseq)]
        refine ⟨sid, hserver, ?_⟩
        change Sent b k.server rec.id sid old.seq
        rw [hid, hseq]
        exact hsent
      · rw [updateRow_of_neg (by simpa using hseq)] at huploaded ⊢
        exact h.uploaded rec hrec old hold huploaded
    · rw [if_neg hid] at hg ⊢
      exact h.uploaded rec hrec g hg huploaded
  | @completed id htask =>
    rcases mem_update.mp hrec' with ⟨rec, hrec, rfl⟩
    by_cases hid : rec.id = id
    · rw [if_pos hid] at hg ⊢
      exact h.uploaded rec hrec g hg huploaded
    · rw [if_neg hid] at hg ⊢
      exact h.uploaded rec hrec g hg huploaded
  | _ => exact h.uploaded rec' hrec' g hg huploaded

theorem completed_uploads (h : Linked r b k) {app : App} (hup : Uploads k.app a app)
    (hrec' : rec' ∈ app.items) (hcompleted : rec'.completed = true)
    (hserver : rec'.serverId = some r) : HasTranscode r k.server := by
  cases hup with
  | discard | remove => exact h.completed rec' (mem_remove.mp hrec').1 hcompleted hserver
  | @created id sid segs htask =>
    rcases mem_update.mp hrec' with ⟨rec, hrec, rfl⟩
    by_cases hid : rec.id = id
    · rw [if_pos hid] at hcompleted
      have hnot : rec.completed = false := (h.expects htask rfl hrec hid).1
      cases hnot.symm.trans hcompleted
    · rw [if_neg hid] at hcompleted hserver
      exact h.completed rec hrec hcompleted hserver
  | @uploaded id sid g₀ rest htask =>
    rcases mem_update.mp hrec' with ⟨rec, hrec, rfl⟩
    by_cases hid : rec.id = id
    · rw [if_pos hid] at hcompleted hserver
      exact h.completed rec hrec hcompleted hserver
    · rw [if_neg hid] at hcompleted hserver
      exact h.completed rec hrec hcompleted hserver
  | @completed id htask =>
    rcases mem_update.mp hrec' with ⟨rec, hrec, rfl⟩
    by_cases hid : rec.id = id
    · rw [if_pos hid] at hserver
      have hknows := h.task
      rw [htask] at hknows
      exact hknows rec hrec hid hserver
    · rw [if_neg hid] at hcompleted hserver
      exact h.completed rec hrec hcompleted hserver
  | _ => exact h.completed rec' hrec' hcompleted hserver

theorem linked_uploads (h : Linked r b k) {app : App} (hup : Uploads k.app a app)
    (hreply : ∀ rep, a ≠ .reply rep) :
    Linked r (b.note r k (.app a)) { k with app := app } := by
  have hnone : k.call = none := by
    by_contra hcall
    have hwaiting := h.waiting hcall
    rw [uploads_waiting hup hreply] at hwaiting
    cases hwaiting
  refine ⟨kept_uploads h.kept hup, unsent_acts (.inr hup) h.unsent, h.snapshot, h.staged, ?_,
    fun hcall => absurd hnone hcall, ?_, ?_, ?_⟩
  · rw [note_app]
    exact h.upload
  · cases hup with
    | send => exact fun i sid hcall => nomatch hnone.symm.trans hcall
    | ready => exact fun _ i sid hcall => nomatch hnone.symm.trans hcall
    | skip htask hfile => exact .inl (by simp [LinkLog.note, htask, hfile])
    | @empty id rec => cases hserver : rec.serverId <;> trivial
    | reply => exact absurd rfl (hreply _)
    | _ => trivial
  · intro rec' hrec' g hg huploaded
    rcases uploaded_uploads h hup hrec' hg huploaded with ⟨sid, hserver, hsent⟩
    exact ⟨sid, hserver, sent_note hsent⟩
  · intro rec' hrec' hcompleted hserver
    exact completed_uploads (k := k) h hup hrec' hcompleted hserver

/-- A reply is taken: success means that the server did what it was asked to. -/
theorem linked_reply (h : Linked r b k) {app : App} {rep : Reply}
    (hstep : k.app.step (.reply rep) = some app)
    (hput : ∀ id sid g rest sid', k.app.task = .put id sid g rest → rep = .ok sid' →
      HasSegment sid g.seq k.server.db.content)
    (hcomplete : ∀ id d m, k.app.task = .complete id r d m →
      (∃ sid', rep = .ok sid') ∨ rep = .error 409 → HasTranscode r k.server) :
    Linked r b { k with app := app, call := none } := by
  rcases Option.map_eq_some_iff.mp hstep with ⟨t, hreply, rfl⟩
  refine ⟨kept_reply h.kept hreply, h.unsent, h.snapshot, h.staged, h.upload,
    fun hcall => absurd rfl hcall, ?_, h.uploaded, h.completed⟩
  have hreplied := reply_replied hreply
  generalize htask : k.app.task = task at hreplied
  cases hreplied with
  | uploaded => exact .inr (hput _ _ _ _ _ htask rfl)
  | @completed id sid d m rep hrep =>
    intro rec hrec hid hserver
    have hsid : rec.serverId = some sid := (h.expects htask rfl hrec hid).2.2.2
    cases hsid.symm.trans hserver
    exact hcomplete id d m htask hrep
  | _ => trivial

theorem linked_receive (h : Linked r b k) {app : App} {i : ℕ} {code : ℕ}
    (hcall : k.call = some (i, sid)) (hcode : replyOf (k.server.procs i) = some code)
    (hstep : k.app.step (.reply (.of sid code)) = some app) :
    Linked r b { k with app := app, call := none } := by
  have hrefused (hr : Refused i k.server) : Reply.of sid code = .error code ∧ code ≠ 409 := by
    rcases hr with ⟨reply, left, hproc, hno⟩
    rw [hproc] at hcode
    have hle := hno code hcode
    exact ⟨if_neg (by omega), hle.2⟩
  apply linked_reply h hstep
  · intro id sid' g rest sid'' htask hrep
    have hknows := h.task
    rw [htask] at hknows
    cases hknows i sid hcall with
    | stored hhas => exact hhas
    | read hproc | insert hproc =>
      rw [hproc] at hcode
      cases hcode
    | refused hr =>
      rw [(hrefused hr).1] at hrep
      cases hrep
  · intro id d m htask hrep
    have hknows := h.task
    rw [htask] at hknows
    cases hknows rfl i sid hcall with
    | entered hhas => exact hhas
    | read hproc | process _ hproc | enter hproc =>
      rw [hproc] at hcode
      cases hcode
    | refused hr =>
      rw [(hrefused hr).1] at hrep
      rcases hrep with ⟨_, hrep⟩ | hrep
      · cases hrep
      · exact absurd (Reply.error.inj hrep) (hrefused hr).2

theorem linked_server (h : Linked r b k) {t : Label} {s : Sys}
    (hstep : Server.step cfg k.server t = some s) (halone : Alone r (.server t))
    (htimely : Timely r (k, b) (.server t)) :
    Linked r (b.note r k (.server t)) { k with server := s } := by
  have hmoved := Server.step_moved hstep
  have hsent {id : LocalId} {sid : Uuid} {seq : ℕ} (hsent : Sent b k.server id sid seq) :
      Sent b s id sid seq := hsent.imp_right (Server.hasSegment_moved h.staged hmoved)
  have hhas (hhas : HasTranscode r k.server) : HasTranscode r s :=
    Server.hasTranscode_moved h.upload.noEdits hmoved hhas
  refine ⟨h.kept, h.unsent, Server.snapshot_moved h.snapshot hmoved,
    Server.staged_moved h.staged hmoved, Server.upload_moved h.snapshot h.upload ?_ hmoved,
    h.waiting, ?_, ?_, fun rec hrec hdone hserver => hhas (h.completed rec hrec hdone hserver)⟩
  · rintro i q rfl
    cases q <;> trivial
  · have hold := h.task
    change k.app.task.knows r _ _
    cases ht : k.app.task with
    | put id sid g rest =>
      rw [ht] at hold
      exact fun i sid' hcall => Server.putting_moved h.staged hmoved (hold i sid' hcall)
    | uploaded id sid g rest =>
      rw [ht] at hold
      exact hsent hold
    | complete id sid d m =>
      rw [ht] at hold
      intro hr i sid' hcall
      apply Server.completing_moved h.upload hmoved _ (hold hr i sid' hcall)
      rintro x d m rest rfl
      exact htimely d m rest
    | completed id =>
      rw [ht] at hold
      exact fun rec hrec hid hserver => hhas (hold rec hrec hid hserver)
    | _ => trivial
  · intro rec hrec g hg hup
    rcases h.uploaded rec hrec g hg hup with ⟨sid, hserver, hold⟩
    exact ⟨sid, hserver, hsent hold⟩

/-- The phone's own requests are what a recording is uploaded by. -/
theorem spares_request {c : Call} {q : Request} (h : c.request sid = some q) : q.spares r := by
  cases c <;> cases h <;> trivial

theorem linked_send (h : Linked r b k) {i : ℕ} {c : Call} {q : Request} {s : Sys}
    (hcall : k.app.task.call? = some c) (hq : c.request sid = some q)
    (hstep : Server.step cfg k.server (.request i q) = some s) :
    Linked r b { k with server := s, call := some (i, q.recording) } := by
  rcases Option.ite_none_right_eq_some.mp hstep with ⟨hidle, hs⟩
  cases hs
  have hmoved : Moved cfg k.server (.request i q) _ := .request q hidle
  have hup := Server.upload_moved h.snapshot h.upload
    (fun _ _ heq => (Label.request.inj heq).2 ▸ spares_request hq) hmoved
  have hnote : b.upload.note r k.server (.request i q) = b.upload := by
    simp [UploadLog.note, Server.accepts, Server.parks]
  rw [hnote] at hup
  refine ⟨h.kept, h.unsent, Server.snapshot_moved h.snapshot hmoved,
    Server.staged_moved h.staged hmoved, hup, fun _ => by simp [hcall], ?_, h.uploaded, h.completed⟩
  change k.app.task.knows r _ _
  cases ht : k.app.task with
  | put id sid' g rest =>
    rw [ht] at hcall
    cases hcall
    cases hq
    rintro i' sid'' ⟨⟩
    exact .read Server.Sys.setProc_self
  | complete id sid' d m =>
    rw [ht] at hcall
    cases hcall
    cases hq
    rintro rfl i' sid'' ⟨⟩
    exact .read Server.Sys.setProc_self
  | create | delete => trivial
  | _ =>
    rw [ht] at hcall
    cases hcall

theorem linked_step (h : Linked r b k) (halone : Alone r l) (htimely : Timely r (k, b) l)
    (hstep : k.step cfg l = some k') : Linked r (b.note r k l) k' := by
  cases link_moved hstep with
  | @app a app happ hreply hkill =>
    rcases step_acts happ with hrec | hup
    · exact linked_records h (kept_step h.kept happ) hrec hkill
    · exact linked_uploads h hup hreply
  | kill =>
    have happ : k.app.step .kill = some { k.app with session := none, queue := [], task := .idle } :=
      rfl
    exact linked_kill h (kept_step h.kept happ) rfl
  | send hnone hcall hq hserver => exact linked_send h hcall hq hserver
  | server hserver => exact linked_server h hserver halone htimely
  | receive hcall hcode happ => exact linked_receive h hcall hcode happ
  | lose happ =>
    apply linked_reply h happ
    · intro _ _ _ _ _ _ hrep
      cases hrep
    · rintro _ _ _ _ (⟨_, hrep⟩ | hrep) <;> cases hrep

theorem linked_run {tr : List LinkLabel} {p : Link × LinkLog}
    (h : Run (withNotes (Link.step cfg) (LinkLog.note r)) (fun p l => Alone r l ∧ Timely r p l)
      (Link.start, {}) tr p) : Linked r p.2 p.1 := by
  apply h.invariant (I := fun p => Linked r p.2 p.1) linked_start
  rintro p l p' hp ⟨halone, htimely⟩ hstep
  rcases withNotes_eq_some.mp hstep with ⟨hstep, hnote⟩
  rw [hnote]
  exact linked_step hp halone htimely hstep

/-! ## Removal -/

/-- What holds of a step: what it removes, and what it answers with a conflict, the server has
taken on. -/
structure TakenOn (cfg : Config) (r : Uuid) (p : Link × LinkLog) (l : LinkLabel) (k' : Link) :
    Prop where
  removed : ∀ rec ∈ p.1.app.items, rec.segments ≠ [] → (∀ rec' ∈ k'.app.items, rec'.id ≠ rec.id) →
    ∃ sid, rec.serverId = some sid ∧ (∀ g ∈ rec.segments, Sent p.2 p.1.server rec.id sid g.seq) ∧
      (sid = r → p.2.upload.accepted = true ∧ HasTranscode r p.1.server)
  conflict : ∀ i x d m rest, l = .server (.step i x) →
    p.1.server.procs i = .todo (.completeRead r d m :: rest) →
    (Cmd.exec cfg x p.1.server.db (.completeRead r d m)).2 = .reply 409 →
    p.2.upload.accepted = true ∧ HasTranscode r p.1.server

theorem removed_linked (h : Linked r b k) (hstep : k.step cfg l = some k')
    (hrec : rec ∈ k.app.items) (hgone : ∀ rec' ∈ k'.app.items, rec'.id ≠ rec.id) :
    rec.segments = [] ∨ rec.completed = true := by
  have happ {a : Action} {app : App} (happ : k.app.step a = some app)
      (hgone : ∀ rec' ∈ app.items, rec'.id ≠ rec.id) :
      rec.segments = [] ∨ rec.completed = true := by
    rcases removed_step h.kept happ hrec hgone with ⟨hempty, -⟩ | ⟨-, htask⟩
    · exact .inl hempty
    · exact .inr (h.expects htask rfl hrec rfl)
  cases link_moved hstep with
  | app hmoved => exact happ hmoved hgone
  | receive _ _ hmoved | lose hmoved => exact happ hmoved hgone
  | kill | send | server => exact absurd rfl (hgone rec hrec)

/-- As long as no complete of `r` meets a recording that failed too early or a complete cut
short, no step takes audio from the phone that the server has not taken on. -/
theorem takenOn_of_timely {tr : List LinkLabel} {p : Link × LinkLog}
    (h : Run (withNotes (Link.step cfg) (LinkLog.note r)) (fun p l => Alone r l ∧ Timely r p l)
      (Link.start, {}) tr p) (htimely : Timely r p l)
    (hstep : p.1.step cfg l = some k') : TakenOn cfg r p l k' where
  removed rec hrec hsome hgone := by
    have hp := linked_run h
    have hcompleted := (removed_linked hp hstep hrec hgone).resolve_left hsome
    rcases hp.kept.done rec hrec hcompleted with ⟨-, hpending, hserver⟩
    rcases Option.isSome_iff_exists.mp hserver with ⟨sid, hsid⟩
    refine ⟨sid, hsid, fun g hg => ?_, ?_⟩
    · have huploaded : g.uploaded = true := by
        by_contra hnot
        have hmem : g ∈ rec.pending := List.mem_filter.mpr ⟨hg, by simpa using hnot⟩
        rw [hpending] at hmem
        cases hmem
      rcases hp.uploaded rec hrec g hg huploaded with ⟨sid', hsid', hsent⟩
      cases hsid.symm.trans hsid'
      exact hsent
    · rintro rfl
      have hhas := hp.completed rec hrec hcompleted hsid
      exact ⟨hp.upload.accepted hhas, hhas⟩
  conflict := by
    rintro i x d m rest rfl hproc hreply
    have hp := linked_run h
    have hhas : HasTranscode r p.1.server := by
      simp only [Cmd.exec, Server.fetched] at hreply
      split at hreply
      · cases hreply
      · rename_i st hst
        split at hreply
        · rename_i hne
          exact Server.hasTranscode_of_status hp.upload hst hne (htimely d m rest hproc)
        · cases hreply
    exact ⟨hp.upload.accepted hhas, hhas⟩

/-! ## A complete cut short -/

/-- The server's process `i` takes `n` steps. -/
def serve (i n : ℕ) : List LinkLabel := List.replicate n (.server (.step i {}))

/-- One second of audio is recorded, and sent as a segment of recording 7. -/
def sentRun : List LinkLabel :=
  [LinkLabel.app (.start 0), .app .started, .app (.write 16000 true), .app (.stop true), .app .main,
    .app .next, .app .work, .send 0 7] ++ serve 0 1 ++ [LinkLabel.receive, .app .work, .app .work,
    .send 1 7] ++ serve 1 4 ++ [LinkLabel.receive, .app .work, .app .work, .app .work, .send 2 7]

/-- The server stops behind its status write; the next complete gets a conflict. -/
def cutRun : List LinkLabel :=
  sentRun ++ serve 2 3 ++ [LinkLabel.server (.stop 2), .lose, .app .next, .app .work, .app .work,
    .send 3 7] ++ serve 3 1 ++ [LinkLabel.receive, .app .work]

def notedStep : Link × LinkLog → LinkLabel → Option (Link × LinkLog) :=
  withNotes (Link.step {}) (LinkLog.note 7)

/-- A test that lets through the steps of the first four processes, and no foreign request. -/
def LinkLabel.few : LinkLabel → Bool
  | .server (.request _ _) => false
  | .server a => a.proc.all fun i => decide (i < 4)
  | .send i _ => decide (i < 4)
  | _ => true

theorem alone_of_few (h : l.few = true) : Alone r l := by
  cases l with
  | server a => cases a <;> trivial
  | _ => trivial

def cutState : Link × LinkLog :=
  (exec (guarded notedStep fun _ l => l.few) (Link.start, {}) cutRun).get (by decide +kernel)

theorem not_takenOn : ¬ ∀ (r : Uuid) (tr : List LinkLabel) (p : Link × LinkLog) (l : LinkLabel)
    (k' : Link), Run (withNotes (Link.step {}) (LinkLog.note r)) (fun _ l => Alone r l)
      (Link.start, {}) tr p → Alone r l → p.1.step {} l = some k' → TakenOn {} r p l k' := by
  intro h
  have hrun : Run notedStep (fun _ l => Alone 7 l) (Link.start, {}) cutRun cutState :=
    run_of_guarded _ fun _ _ => alone_of_few
  have hstep : (cutState.1.step {} (.app .work)).isSome = true := by decide +kernel
  have hnone : (cutState.1.step {} (.app .work)).all (fun k' => k'.app.items.isEmpty) = true := by
    decide +kernel
  have hmem : ∃ rec ∈ cutState.1.app.items, rec.segments ≠ [] ∧ rec.serverId = some 7 := by
    decide +kernel
  have hno : ¬ HasTranscode 7 cutState.1.server := by decide +kernel
  rcases Option.isSome_iff_exists.mp hstep with ⟨k', hk'⟩
  rcases hmem with ⟨rec, hrec, hsome, hserver⟩
  have hempty : k'.app.items = [] := by
    rw [hk'] at hnone
    exact List.isEmpty_iff.mp hnone
  have htaken := h 7 cutRun cutState (.app .work) k' hrun trivial hk'
  rcases htaken.removed rec hrec hsome (by simp [hempty]) with ⟨sid, hsid, -, hr⟩
  cases hserver.symm.trans hsid
  exact hno (hr rfl).2

theorem within_few (hs : k.server.Within 4) (hfew : l.few = true) (hstep : k.step cfg l = some k') :
    k'.server.Within 4 := by
  have hserver {t : Label} {s : Sys} (hstep : Server.step cfg k.server t = some s)
      (hproc : ∀ i, t.proc = some i → i < 4) : s.Within 4 := by
    intro i hi
    rw [Server.moved_procs_of_ne (Server.step_moved hstep), hs i hi]
    intro heq
    exact absurd (hproc i heq) (Nat.not_lt.mpr hi)
  cases link_moved hstep with
  | app | kill | receive | lose => exact hs
  | @send j sid c q s hnone hcall hq hmoved =>
    apply hserver hmoved
    rintro i ⟨⟩
    exact of_decide_eq_true hfew
  | @server t s hmoved =>
    apply hserver hmoved
    intro i hi
    cases t <;> simp_all [LinkLabel.few, Label.proc]

/-- Among the first four processes, no complete is between its status write and its enqueue. -/
def settled (p : Link × LinkLog) : LinkLabel → Bool
  | .server (.step i _) =>
    match p.1.server.procs i with
    | .todo (.completeRead _ _ _ :: _) => !p.2.upload.parked && (List.range 4).all fun j =>
        !((p.1.server.procs j).pending true).contains (Server.enqueue 7 .transcode {})
    | _ => true
  | _ => true

theorem timely_of_settled {p : Link × LinkLog} (hs : p.1.server.Within 4)
    (h : settled p l = true) : Timely 7 p l := by
  cases l with
  | server a =>
    cases a with
    | step i x =>
      intro d m rest hproc
      simp only [settled, hproc, Bool.and_eq_true, Bool.not_eq_true', List.all_eq_true,
        List.mem_range, List.contains_eq_mem, decide_eq_false_iff_not] at h
      refine .inr ⟨h.1, ?_⟩
      rintro ⟨j, hj⟩
      by_cases hlt : j < 4
      · exact h.2 j hlt hj
      · rw [hs j (Nat.le_of_not_lt hlt)] at hj
        cases hj
    | _ => trivial
  | _ => trivial

def wholeState : Link × LinkLog :=
  (exec (guarded notedStep fun p l => l.few && settled p l) (Link.start, {})
    (sentRun ++ serve 2 5 ++ [.receive, .app .work])).get (by decide +kernel)

/-- After an accepted complete that ran to its end, the recording is removed. -/
theorem takenOn_wholeState : (wholeState.1.step {} (.app .work)).isSome = true ∧
    ∀ k', wholeState.1.step {} (.app .work) = some k' →
      TakenOn {} 7 wholeState (.app .work) k' := by
  refine ⟨by decide +kernel, fun k' hk' => ?_⟩
  have hrun : Run notedStep (fun p l => l.few = true ∧ settled p l = true) (Link.start, {})
      (sentRun ++ serve 2 5 ++ [.receive, .app .work]) wholeState :=
    run_of_guarded _ fun _ _ => Bool.and_eq_true_iff.mp
  have hguard : Run notedStep (fun p l => Alone 7 l ∧ Timely 7 p l) (Link.start, {})
      (sentRun ++ serve 2 5 ++ [.receive, .app .work]) wholeState := by
    apply hrun.strengthen (I := fun p => p.1.server.Within 4)
    · exact fun _ _ => rfl
    · intro p l p' hp hok hstep
      exact within_few hp hok.1 (withNotes_eq_some.mp hstep).1
    · exact fun p l hp hok => ⟨alone_of_few hok.1, timely_of_settled hp hok.2⟩
  exact takenOn_of_timely hguard trivial hk'

end ScribeLocal.Phone
