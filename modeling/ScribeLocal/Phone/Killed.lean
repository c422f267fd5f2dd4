import ScribeLocal.Phone.Kept

/-!
# The app is killed

A relaunch loads the manifest and knows of nothing else. A recording that was not yet
finished when the app was killed is never finished later, and one that was told complete
but not yet removed is never removed.
-/
namespace ScribeLocal.Phone
open Table Transition

/-! ## A server that accepts everything -/

structure Remote where
  nextSid : Uuid
  segments : List (Uuid × ℕ)
  completed : List Uuid

def Remote.handle (m : Remote) : Call → Reply × Remote
  | .create => (.ok m.nextSid, { m with nextSid := m.nextSid + 1 })
  | .put sid seq _ _ => (.ok sid, { m with segments := m.segments ++ [(sid, seq)] })
  | .complete sid _ _ =>
    if sid ∈ m.completed then (.error 409, m)
    else (.ok sid, { m with completed := m.completed ++ [sid] })
  | .delete sid => (.ok sid, m)

/-- The phone, the server, and a reply under way. -/
structure Home where
  app : App
  remote : Remote
  reply : Option Reply

def Home.start : Home := ⟨App.start, ⟨0, [], []⟩, none⟩

inductive HomeLabel where
  | app (a : Action)
  /-- The server handles the call that the upload queue waits on. -/
  | handle
  | deliver

def Home.step (h : Home) : HomeLabel → Option Home
  | .app (.reply _) => none
  | .app .kill => (h.app.step .kill).map fun app => { h with app := app, reply := none }
  | .app a => (h.app.step a).map fun app => { h with app := app }
  | .handle =>
    if h.reply.isSome then none
    else h.app.task.call?.map fun call =>
      { h with remote := (h.remote.handle call).2, reply := some (h.remote.handle call).1 }
  | .deliver => h.reply.bind fun rep =>
    (h.app.step (.reply rep)).map fun app => { h with app := app, reply := none }

/-- Everything a step can be. -/
inductive HomeMoved (h : Home) : HomeLabel → Home → Prop
  | app {a : Action} {app : App} (hstep : h.app.step a = some app)
      (hreply : ∀ rep, a ≠ .reply rep) (hkill : a ≠ .kill) :
      HomeMoved h (.app a) { h with app := app }
  | kill : HomeMoved h (.app .kill)
      { h with app := { h.app with session := none, queue := [], task := .idle }, reply := none }
  | handle {call : Call} (hcall : h.app.task.call? = some call) (hnone : h.reply = none) :
      HomeMoved h .handle
      { h with remote := (h.remote.handle call).2, reply := some (h.remote.handle call).1 }
  | deliver {rep : Reply} {app : App} (hrep : h.reply = some rep)
      (hstep : h.app.step (.reply rep) = some app) :
      HomeMoved h .deliver { h with app := app, reply := none }

variable {h h' : Home} {l : HomeLabel} {s s' : App} {a : Action} {r r' : LocalRecording}

theorem home_moved (hstep : h.step l = some h') : HomeMoved h l h' := by
  cases l with
  | app a =>
    cases a with
    | reply => cases hstep
    | kill =>
      cases hstep
      exact .kill
    | _ =>
      rcases Option.map_eq_some_iff.mp hstep with ⟨app, happ, rfl⟩
      exact .app happ nofun nofun
  | handle =>
    rcases Option.ite_none_left_eq_some.mp hstep with ⟨hnone, hstep⟩
    rcases Option.map_eq_some_iff.mp hstep with ⟨call, hcall, rfl⟩
    exact .handle hcall (by simpa using hnone)
  | deliver =>
    rcases Option.bind_eq_some_iff.mp hstep with ⟨rep, hrep, hstep⟩
    rcases Option.map_eq_some_iff.mp hstep with ⟨app, happ, rfl⟩
    exact .deliver hrep happ

/-! ## What kills leave behind -/

/-- The session or a queued block is still to finish the recording. -/
def Awaited (s : App) (id : LocalId) : Prop :=
  (∃ ses, s.session = some ses ∧ ses.id = id) ∨ ∃ b ∈ s.queue, b.isFinish = true ∧ b.id = id

/-- The recording is going to be finished, or to be removed. -/
def Tended (s : App) (r : LocalRecording) : Prop :=
  (r.finished = false → Awaited s r.id) ∧ (r.completed = true → s.task = .remove r.id)

theorem tended_congr (hid : r'.id = r.id) (hfinished : r'.finished = r.finished)
    (hcompleted : r'.completed = r.completed) (hawaited : Awaited s r.id ↔ Awaited s' r.id)
    (htask : s.task = .remove r.id ↔ s'.task = .remove r.id) : Tended s r ↔ Tended s' r' := by
  simp only [Tended, hid, hfinished, hcompleted, hawaited, htask]

theorem tended_uploads (hs : Kept s) (h : Uploads s a s') (hr' : r' ∈ s'.items) :
    ∃ r ∈ s.items, r.id = r'.id ∧ (Tended s r ↔ Tended s' r') := by
  have hwritten {id : LocalId} {change : LocalRecording → LocalRecording} {t : Task}
      (hchange : Written change) (hcompleted : ∀ r, (change r).completed = r.completed)
      (hr' : r' ∈ s.items.update id change)
      (htask : ∀ i, s.task = .remove i ↔ t = .remove i) : ∃ r ∈ s.items, r.id = r'.id ∧
        (Tended s r ↔ Tended { s with items := s.items.update id change, task := t } r') := by
    rcases mem_update.mp hr' with ⟨r, hr, rfl⟩
    split
    · exact ⟨r, hr, (hchange.id r).symm,
        tended_congr (hchange.id r) (hchange.finished r) (hcompleted r) Iff.rfl (htask _)⟩
    · exact ⟨r, hr, rfl, tended_congr rfl rfl rfl Iff.rfl (htask _)⟩
  cases h with
  | created htask =>
    exact hwritten (written_setServerId _) (fun _ => rfl) hr' (by simp [htask])
  | uploaded htask =>
    exact hwritten (written_markUploaded _) (fun _ => rfl) hr' (by simp [htask])
  | @completed id htask =>
    rcases mem_update.mp hr' with ⟨r, hr, rfl⟩
    by_cases hid : r.id = id
    · have hold := hs.task r hr
      rw [htask, hid] at hold
      rcases hold rfl with ⟨hnot, hfin, -, -⟩
      rw [if_pos hid]
      refine ⟨r, hr, rfl, ?_⟩
      exact iff_of_true (by simp [Tended, hnot, hfin]) (by simp [Tended, markCompleted, hfin, hid])
    · rw [if_neg hid]
      refine ⟨r, hr, rfl, tended_congr rfl rfl rfl Iff.rfl ?_⟩
      simpa [htask] using fun h : id = r.id => hid h.symm
  | discard htask =>
    exact ⟨r', (mem_remove.mp hr').1, rfl, tended_congr rfl rfl rfl Iff.rfl (by simp [htask])⟩
  | remove htask =>
    rcases mem_remove.mp hr' with ⟨hr, hne⟩
    refine ⟨r', hr, rfl, tended_congr rfl rfl rfl Iff.rfl ?_⟩
    simpa [htask] using fun h => hne h.symm
  | @empty id r htask =>
    refine ⟨r', hr', rfl, tended_congr rfl rfl rfl Iff.rfl ?_⟩
    cases r.serverId <;> simp [htask]
  | @reply rep t hreply =>
    refine ⟨r', hr', rfl, tended_congr rfl rfl rfl Iff.rfl ?_⟩
    have hreplied := reply_replied hreply
    generalize s.task = task at hreplied
    cases hreplied with
    | thrown hcall => cases task <;> first | (cases hcall; done) | simp
    | _ => simp
  | _ htask => exact ⟨r', hr', rfl, tended_congr rfl rfl rfl Iff.rfl (by simp [htask])⟩

/-- The session ends, and its recording is finished by the block it leaves. -/
theorem awaited_stop {ses : Session} {s₁ : App} {blocks : List Block} {totalMs : ℤ}
    (hses : s.session = some ses) (hsession : s₁.session = none)
    (hqueue : s₁.queue = s.queue ++ (blocks ++ [.finish ses.id totalMs]))
    (hsave : ∀ b ∈ blocks, b.isFinish = false) (id : LocalId) : Awaited s id ↔ Awaited s₁ id := by
  simp only [Awaited, hses, hsession, hqueue]
  constructor
  · rintro (⟨_, ⟨rfl⟩, rfl⟩ | ⟨b, hb, hfin, rfl⟩)
    · exact .inr ⟨_, List.mem_append_right _ (List.mem_append_right _ List.mem_cons_self), rfl, rfl⟩
    · exact .inr ⟨b, List.mem_append_left _ hb, hfin, rfl⟩
  · rintro (⟨_, h, -⟩ | ⟨b, hb, hfin, rfl⟩)
    · cases h
    · rcases List.mem_append.mp hb with hb | hb
      · exact .inr ⟨b, hb, hfin, rfl⟩
      · rcases List.mem_append.mp hb with hb | hb
        · rw [hsave b hb] at hfin
          cases hfin
        · rw [List.mem_singleton.mp hb]
          exact .inl ⟨ses, rfl, rfl⟩

theorem tended_records (hs : Kept s) (h : Records s a s') (hkill : a ≠ .kill)
    (hr' : r' ∈ s'.items) : (∀ r ∈ s.items, r.id ≠ r'.id) ∧ Tended s' r' ∨
      ∃ r ∈ s.items, r.id = r'.id ∧ (Tended s r ↔ Tended s' r') := by
  have hupdate {id : LocalId} {change : LocalRecording → LocalRecording} {s₁ : App}
      (hchange : Recorder change) (hfinished : ∀ r, (change r).finished = r.finished)
      (hr' : r' ∈ s.items.update id change) (htask : s₁.task = s.task)
      (hawaited : ∀ i, Awaited s i ↔ Awaited s₁ i) :
      ∃ r ∈ s.items, r.id = r'.id ∧ (Tended s r ↔ Tended s₁ r') := by
    rcases mem_update.mp hr' with ⟨r, hr, rfl⟩
    split
    · exact ⟨r, hr, (hchange.id r).symm, tended_congr (hchange.id r) (hfinished r)
        (hchange.completed r) (hawaited _) (by rw [htask])⟩
    · exact ⟨r, hr, rfl, tended_congr rfl rfl rfl (hawaited _) (by rw [htask])⟩
  cases h with
  | start date hnone =>
    rcases List.mem_append.mp hr' with hr | hr
    · have hne : ¬ s.nextId = r'.id := fun h => Nat.ne_of_lt (hs.known r' hr) h.symm
      exact .inr ⟨r', hr, rfl, tended_congr rfl rfl rfl (by simp [Awaited, hnone, hne]) Iff.rfl⟩
    · left
      rw [List.mem_singleton.mp hr]
      exact ⟨fun r hr => Nat.ne_of_lt (hs.known r hr), by simp [Tended, Awaited]⟩
  | startFailed hses =>
    rcases mem_remove.mp hr' with ⟨hr, hne⟩
    have hne' := Ne.symm hne
    exact .inr ⟨r', hr, rfl, tended_congr rfl rfl rfl (by simp [Awaited, hses, hne']) Iff.rfl⟩
  | goOn hses hid =>
    exact .inr ⟨r', hr', rfl,
      tended_congr rfl rfl rfl (by simp [Awaited, hses, hid, App.setSession]) Iff.rfl⟩
  | roll hses hid =>
    exact .inr ⟨r', hr', rfl,
      tended_congr rfl rfl rfl (by simp [Awaited, hses, hid, Block.isFinish]) Iff.rfl⟩
  | mark ms hses =>
    exact .inr (hupdate (recorder_addMark ms) (fun _ => rfl) hr' rfl fun _ => Iff.rfl)
  | stop totalMs hses =>
    refine .inr ⟨r', hr', rfl, tended_congr rfl rfl rfl ?_ Iff.rfl⟩
    exact awaited_stop hses rfl rfl (List.forall_mem_nil _) _
  | @stopSaved ses g _ totalMs hses =>
    right
    refine hupdate (recorder_addSegment g) (fun _ => rfl) hr' ?_ ?_
    · rfl
    · exact awaited_stop hses rfl rfl (List.forall_mem_nil _)
  | @stopQueued ses g _ totalMs hses =>
    have hsave (b : Block) (hb : b ∈ [Block.save ses.id g]) : b.isFinish = false := by
      rw [List.mem_singleton.mp hb]
      rfl
    refine .inr ⟨r', hr', rfl, tended_congr rfl rfl rfl ?_ Iff.rfl⟩
    exact awaited_stop hses rfl rfl hsave _
  | main b rest hqueue =>
    right
    have hb : b ∈ s.queue := hqueue ▸ List.mem_cons_self
    change r' ∈ b.run s.items at hr'
    rw [b.run_eq] at hr'
    rcases mem_update.mp hr' with ⟨r, hr, heq⟩
    by_cases hid : r.id = b.id
    · rw [if_pos hid] at heq
      have hfin : r.finished = false := by
        by_contra hfin
        exact (hs.stopped r hr (by simpa using hfin)).1 b hb hid.symm
      have hnot : r.completed = false := by
        by_contra hcompleted
        rw [(hs.done r hr (by simpa using hcompleted)).1] at hfin
        cases hfin
      refine ⟨r, hr, by rw [heq, b.recorder.id], ?_⟩
      cases b with
      | save id g =>
        rw [heq]
        refine tended_congr rfl rfl rfl ?_ Iff.rfl
        simp [Awaited, hqueue, Block.isFinish]
      | finish id totalMs =>
        have htended : Tended s r :=
          ⟨fun _ => .inr ⟨_, hb, rfl, hid.symm⟩, fun h => by cases hnot.symm.trans h⟩
        apply iff_of_true htended
        rw [heq]
        exact ⟨by rintro ⟨⟩, fun h => by cases hnot.symm.trans h⟩
    · rw [if_neg hid] at heq
      refine ⟨r, hr, by rw [heq], ?_⟩
      rw [heq]
      refine tended_congr rfl rfl rfl ?_ Iff.rfl
      have hne : ¬ b.id = r.id := fun h => hid h.symm
      simp [Awaited, hqueue, hne]
  | kill => exact absurd rfl hkill

theorem tended_step (hs : Kept s) (h : s.step a = some s') (hkill : a ≠ .kill)
    (hr' : r' ∈ s'.items) : (∀ r ∈ s.items, r.id ≠ r'.id) ∧ Tended s' r' ∨
      ∃ r ∈ s.items, r.id = r'.id ∧ (Tended s r ↔ Tended s' r') := by
  rcases step_acts h with hrecords | huploads
  · exact tended_records hs hrecords hkill hr'
  · exact .inr (tended_uploads hs huploads hr')

theorem tended_of_removed (hs : Kept s) (h : s.step a = some s') (hr : r ∈ s.items)
    (hgone : ∀ r' ∈ s'.items, r'.id ≠ r.id) : Tended s r := by
  rcases removed_step hs h hr hgone with ⟨-, hnot, hopen⟩ | ⟨-, htask⟩
  · exact ⟨fun hfin => .inl (hopen hfin), fun hcompleted => (nomatch hnot.symm.trans hcompleted)⟩
  · have hcompleted : r.completed = true := by
      have hold := hs.task r hr
      rw [htask] at hold
      exact hold rfl
    have hfin := (hs.done r hr hcompleted).1
    exact ⟨fun hopen => (nomatch hopen.symm.trans hfin), fun _ => htask⟩

/-- Except by a kill, no recording comes to be untended, and none that is goes away. -/
theorem untended_step (hs : Kept s) (h : s.step a = some s') (hkill : a ≠ .kill) :
    (∃ r ∈ s.items, ¬ Tended s r) ↔ ∃ r' ∈ s'.items, ¬ Tended s' r' := by
  constructor
  · rintro ⟨r, hr, hnot⟩
    by_contra hall
    push Not at hall
    by_cases hgone : ∀ r' ∈ s'.items, r'.id ≠ r.id
    · exact hnot (tended_of_removed hs h hr hgone)
    · push Not at hgone
      rcases hgone with ⟨r', hr', hid⟩
      rcases tended_step hs h hkill hr' with ⟨hnew, -⟩ | ⟨r₀, hr₀, hid₀, hiff⟩
      · exact hnew r hr hid.symm
      · cases hs.unique hr₀ hr (hid₀.trans hid)
        exact hnot (hiff.mpr (hall r' hr'))
  · rintro ⟨r', hr', hnot⟩
    rcases tended_step hs h hkill hr' with ⟨-, htended⟩ | ⟨r, hr, -, hiff⟩
    · exact absurd htended hnot
    · exact ⟨r, hr, fun htended => hnot (hiff.mp htended)⟩

/-! ## What the server was told -/

/-- What the upload queue takes for granted of the server. -/
structure Told (h : Home) : Prop where
  waiting : h.reply.isSome = true → h.app.task.call?.isSome = true
  replied : ∀ id sid durationMs marks, h.app.task = .complete id sid durationMs marks →
    h.reply.isSome = true → sid ∈ h.remote.completed
  told : ∀ id, h.app.task = .completed id ∨ h.app.task = .remove id →
    ∀ r ∈ h.app.items, r.id = id → ∃ sid, r.serverId = some sid ∧ sid ∈ h.remote.completed

theorem told_start : Told Home.start where
  waiting h := nomatch h
  replied _ _ _ _ h := nomatch h
  told _ h := by
    rcases h with h | h <;> cases h

theorem mem_completed_handle {m : Remote} {call : Call} {sid : Uuid} (h : sid ∈ m.completed) :
    sid ∈ (m.handle call).2.completed := by
  cases call with
  | complete =>
    simp only [Remote.handle]
    split
    · exact h
    · exact List.mem_append_left _ h
  | _ => exact h

theorem told_app (hs : Kept h.app) (ht : Told h) {app : App} (hstep : h.app.step a = some app)
    (hreply : ∀ rep, a ≠ .reply rep) (hkill : a ≠ .kill) : Told { h with app := app } := by
  rcases step_acts hstep with hrecords | huploads
  · rcases records_old hrecords hkill with ⟨htask, hold⟩
    constructor
    · exact fun hsome => htask ▸ ht.waiting hsome
    · exact fun id sid d m heq => ht.replied id sid d m (htask ▸ heq)
    · intro id heq r' hr' hid
      have heq' : h.app.task = .completed id ∨ h.app.task = .remove id := htask ▸ heq
      rcases hold r' hr' with hnew | ⟨r, hr, hrid, hserver⟩
      · have hlt : id < h.app.nextId := by
          apply hs.taskKnown
          rcases heq' with heq' | heq' <;> rw [heq'] <;> rfl
        rw [← hid, hnew] at hlt
        exact absurd hlt (Nat.lt_irrefl _)
      · rw [hserver]
        exact ht.told id heq' r hr (hrid.symm.trans hid)
  · -- no reply is under way
    have hnone : h.reply.isSome = false := by
      by_contra hsome
      rw [Bool.not_eq_false] at hsome
      have hcall := ht.waiting hsome
      rw [uploads_waiting huploads hreply] at hcall
      cases hcall
    have hno (hsome : h.reply.isSome = true) : False := by
      rw [hnone] at hsome
      cases hsome
    refine ⟨fun hsome => (hno hsome).elim, fun _ _ _ _ _ hsome => (hno hsome).elim, ?_⟩
    intro id heq r' hr' hid
    cases huploads with
    | @completed id' htask =>
      have hid' : id = id' := by
        rcases heq with heq | heq <;> cases heq
        rfl
      rcases mem_update.mp hr' with ⟨r, hr, rfl⟩
      have hrid : r.id = id := by
        split at hid <;> exact hid
      rcases ht.told id (.inl (hid' ▸ htask)) r hr hrid with ⟨sid, hserver, hmem⟩
      refine ⟨sid, ?_, hmem⟩
      split <;> exact hserver
    | @empty _ r =>
      cases hsid : r.serverId <;> rw [hsid] at heq <;> rcases heq with heq | heq <;> cases heq
    | skip | send => rcases heq with heq | heq <;> cases heq
    | reply => exact absurd rfl (hreply _)
    | _ => rcases heq with heq | heq <;> cases heq

theorem told_moved (hs : Kept h.app) (ht : Told h) (hm : HomeMoved h l h') : Told h' := by
  cases hm with
  | app hstep hreply hkill => exact told_app hs ht hstep hreply hkill
  | kill =>
    constructor
    · exact nofun
    · exact nofun
    · rintro id (h | h) <;> cases h
  | @handle call hcall hnone =>
    constructor
    · intro _
      rw [hcall]
      rfl
    · intro id sid d m htask _
      change h.app.task = _ at htask
      rw [htask] at hcall
      cases hcall
      simp only [Remote.handle]
      split
      · assumption
      · exact List.mem_append_right _ List.mem_cons_self
    · intro id heq r hr hid
      rcases ht.told id heq r hr hid with ⟨sid, hserver, hmem⟩
      exact ⟨sid, hserver, mem_completed_handle hmem⟩
  | @deliver rep app hrep hstep =>
    rcases Option.map_eq_some_iff.mp hstep with ⟨t, hreply, rfl⟩
    refine ⟨nofun, nofun, ?_⟩
    intro id heq r hr hid
    have hreplied := reply_replied hreply
    generalize htask : h.app.task = task at hreplied
    cases hreplied with
    | @completed id' sid d m =>
      have hid' : id = id' := by
        rcases heq with heq | heq <;> cases heq
        rfl
      have hmem := ht.replied id' sid d m htask (by rw [hrep]; rfl)
      have hold := hs.task r hr
      rw [htask, hid, hid'] at hold
      exact ⟨sid, (hold rfl).2.2.2, hmem⟩
    | _ => rcases heq with heq | heq <;> cases heq

/-! ## The store at rest -/

/-- Whether a kill has hit a recording that was not finished, or was already told complete;
and the recordings removed so far, each with whether the server had it complete. -/
structure Diary where
  struck : Bool
  removed : List (LocalRecording × Bool)

def Diary.start : Diary := ⟨false, []⟩

/-- The kill hits a recording that was not finished, or was already told complete. -/
def strikes (s : App) : HomeLabel → Bool
  | .app .kill => s.items.any fun r => !r.finished || r.completed
  | _ => false

def gone (s s' : App) : List LocalRecording :=
  s.items.filter fun r => !s'.items.any fun r' => r'.id == r.id

def diary (h : Home) (l : HomeLabel) (d : Diary) : Diary where
  struck := d.struck || strikes h.app l
  removed := d.removed ++ ((h.step l).elim [] fun h' => (gone h.app h'.app).map fun r =>
    (r, r.serverId.any (h.remote.completed.contains ·)))

/-- `isActive` of the session. -/
def App.isActive (s : App) : Bool := s.session.any Session.isActive

/-- No `start` or `stop` is still under way, and no removal. -/
def Settled (s : App) : Prop :=
  s.session = none ∧ (∀ b ∈ s.queue, b.isFinish = false) ∧ ∀ r ∈ s.items, s.task ≠ .remove r.id

/-- What the diary says of the state. -/
structure Recounts (h : Home) (d : Diary) : Prop where
  struck : d.struck = true ↔ ∃ r ∈ h.app.items, ¬ Tended h.app r
  removed : ∀ e ∈ d.removed, e.1.segments ≠ [] → e.2 = true

variable {d : Diary}

theorem recounts_start : Recounts Home.start Diary.start where
  struck := by simp [Diary.start, Home.start, App.start]
  removed _ h := nomatch h

theorem mem_gone : r ∈ gone s s' ↔ r ∈ s.items ∧ ∀ r' ∈ s'.items, r'.id ≠ r.id := by
  simp [gone]

theorem gone_moved (hs : Kept h.app) (ht : Told h) (hm : HomeMoved h l h')
    (hr : r ∈ gone h.app h'.app) (hseg : r.segments ≠ []) :
    r.serverId.any (h.remote.completed.contains ·) = true := by
  rcases mem_gone.mp hr with ⟨hmem, hgone⟩
  have hstep {a : Action} {app : App} (hstep : h.app.step a = some app)
      (hgone : ∀ r' ∈ app.items, r'.id ≠ r.id) :
      r.serverId.any (h.remote.completed.contains ·) = true := by
    rcases removed_step hs hstep hmem hgone with ⟨hempty, -⟩ | ⟨-, htask⟩
    · exact absurd hempty hseg
    · rcases ht.told r.id (.inr htask) r hmem rfl with ⟨sid, hserver, hsid⟩
      simpa [hserver] using hsid
  cases hm with
  | app happ => exact hstep happ hgone
  | deliver _ happ => exact hstep happ hgone
  | kill | handle => exact absurd rfl (hgone r hmem)

/-- Right after a kill nobody tends to what was not finished or is told complete. -/
theorem struck_kill (hrec : Recounts h d) : (d.struck || strikes h.app (.app .kill)) = true ↔
    ∃ r ∈ h.app.items, ¬ Tended { h.app with session := none, queue := [], task := .idle } r := by
  have huntended (r : LocalRecording) :
      ¬ Tended { h.app with session := none, queue := [], task := .idle } r ↔
        r.finished = false ∨ r.completed = true := by
    simp only [Tended, Awaited]
    cases r.finished <;> cases r.completed <;> simp
  simp only [huntended, Bool.or_eq_true, hrec.struck, strikes, List.any_eq_true,
    Bool.not_eq_true']
  constructor
  · rintro (⟨r, hr, hnot⟩ | hstrike)
    · refine ⟨r, hr, ?_⟩
      by_contra hfine
      push Not at hfine
      exact hnot ⟨fun hfin => absurd hfin hfine.1, fun hcompleted => absurd hcompleted hfine.2⟩
    · exact hstrike
  · exact .inr

theorem recounts_step (hs : Kept h.app) (ht : Told h) (hrec : Recounts h d)
    (hstep : h.step l = some h') : Recounts h' (diary h l d) := by
  have hm := home_moved hstep
  constructor
  · cases hm with
    | @app a app happ hreply hkill =>
      have hnone : strikes h.app (.app a) = false := by
        cases a with
        | kill => exact absurd rfl hkill
        | _ => rfl
      simp only [diary, hnone, Bool.or_false]
      exact hrec.struck.trans (untended_step hs happ hkill)
    | kill => exact struck_kill hrec
    | handle =>
      simp only [diary, strikes, Bool.or_false]
      exact hrec.struck
    | deliver _ happ =>
      simp only [diary, strikes, Bool.or_false]
      exact hrec.struck.trans (untended_step hs happ nofun)
  · intro e he hseg
    simp only [diary, hstep, Option.elim_some] at he
    rcases List.mem_append.mp he with he | he
    · exact hrec.removed e he hseg
    · rcases List.mem_map.mp he with ⟨r, hr, rfl⟩
      exact gone_moved hs ht hm hr hseg

theorem kept_moved (hs : Kept h.app) (hm : HomeMoved h l h') : Kept h'.app := by
  cases hm with
  | app happ => exact kept_step hs happ
  | deliver _ happ => exact kept_step hs happ
  | kill => exact kept_step (a := .kill) hs rfl
  | handle => exact hs

theorem recounts_run {tr : List HomeLabel} {p : Home × Diary}
    (h : Run (withNotes Home.step diary) anyStep (Home.start, Diary.start) tr p) :
    Kept p.1.app ∧ Told p.1 ∧ Recounts p.1 p.2 := by
  apply h.invariant (I := fun p => Kept p.1.app ∧ Told p.1 ∧ Recounts p.1 p.2)
  · exact ⟨kept_start, told_start, recounts_start⟩
  · rintro p l p' ⟨hs, ht, hrec⟩ - hstep
    rcases withNotes_eq_some.mp hstep with ⟨hone, hnote⟩
    have hm := home_moved hone
    rw [hnote]
    exact ⟨kept_moved hs hm, told_moved hs ht hm, recounts_step hs ht hrec hone⟩

/-- Where the upload queue finds nothing to do, the store is empty, everything removed with
audio having been completed on the server, exactly if no kill has hit a recording that was not
finished or was already told complete, and nothing is under way. -/
theorem store_empty_iff {tr : List HomeLabel} {p : Home × Diary}
    (h : Run (withNotes Home.step diary) anyStep (Home.start, Diary.start) tr p)
    (hwork : p.1.app.items.nextWork = none) :
    (p.1.app.items = [] ∧ ∀ e ∈ p.2.removed, e.1.segments ≠ [] → e.2 = true) ↔
      p.2.struck = false ∧ Settled p.1.app := by
  rcases recounts_run h with ⟨hs, -, hrec⟩
  constructor
  · rintro ⟨hempty, -⟩
    have hno (r : LocalRecording) : r ∉ p.1.app.items := by simp [hempty]
    refine ⟨?_, ?_, ?_, ?_⟩
    · by_contra hstruck
      rcases hrec.struck.mp (by simpa using hstruck) with ⟨r, hr, -⟩
      exact hno r hr
    · cases hses : p.1.app.session with
      | none => rfl
      | some ses =>
        rcases (hs.session ses hses).1 with ⟨r, hr, -⟩
        exact (hno r hr).elim
    · intro b hb
      by_contra hfin
      rcases hs.finish b hb (by simpa using hfin) with ⟨r, hr, -⟩
      exact hno r hr
    · exact fun r hr => (hno r hr).elim
  · rintro ⟨hstruck, hsession, hqueue, htask⟩
    refine ⟨List.eq_nil_iff_forall_not_mem.mpr fun r hr => ?_, hrec.removed⟩
    have htended : Tended p.1.app r := by
      by_contra hnot
      rw [hrec.struck.mpr ⟨r, hr, hnot⟩] at hstruck
      cases hstruck
    have hfin : r.finished = true := by
      by_contra hopen
      rcases htended.1 (by simpa using hopen) with ⟨ses, hses, -⟩ | ⟨b, hb, hbfin, -⟩
      · cases hsession.symm.trans hses
      · cases (hqueue b hb).symm.trans hbfin
    have hnot : r.completed = false := by
      by_contra hcompleted
      exact htask r hr (htended.2 (by simpa using hcompleted))
    have hleft := nextWork_eq_none.mp hwork r hr
    simp [LocalRecording.hasWork, hfin, hnot] at hleft

/-- A recording is started, and its first segment closed and saved. -/
def firstSegment : List HomeLabel :=
  [.app (.start 0), .app .started, .app (.write 480000 true), .app .main]

/-- The upload queue creates the recording and sends the segment. -/
def sendFirst : List HomeLabel :=
  [.app .next, .app .work, .handle, .deliver, .app .work, .app .work, .handle, .deliver,
    .app .work, .app .work, .app .work]

/-- The app is killed while it records. -/
def killedRun : List HomeLabel := firstSegment ++ [HomeLabel.app .kill] ++ sendFirst

def killedState : Home × Diary :=
  (exec (withNotes Home.step diary) (Home.start, Diary.start) killedRun).get (by decide +kernel)

theorem not_store_empty : ¬ ∀ (tr : List HomeLabel) (p : Home × Diary),
    Run (withNotes Home.step diary) anyStep (Home.start, Diary.start) tr p →
    p.1.app.isActive = false → p.1.app.items.nextWork = none →
    p.1.app.items = [] ∧ ∀ e ∈ p.2.removed, e.1.segments ≠ [] → e.2 = true := by
  intro h
  have hstate : killedState.1.app.isActive = false ∧ killedState.1.app.items.nextWork = none ∧
      killedState.1.app.items.length = 1 := by decide +kernel
  have hempty := (h killedRun killedState (run_of_isSome _) hstate.1 hstate.2.1).1
  rw [hempty] at hstate
  cases hstate.2.2

/-- The recording is stopped. The app is killed before it hears that its last segment has arrived,
sends it again once it is back, and completes. -/
def stoppedRun : List HomeLabel :=
  firstSegment ++ sendFirst ++ [HomeLabel.app (.write 16000 true), .app (.stop false), .app .main,
    .app .main, .app .next, .app .work, .app .work, .handle, .app .kill, .app .next, .app .work,
    .app .work, .handle, .deliver, .app .work, .app .work, .app .work, .handle, .deliver, .app .work,
    .app .work, .app .work]

def stoppedState : Home × Diary :=
  (exec (withNotes Home.step diary) (Home.start, Diary.start) stoppedRun).get (by decide +kernel)

theorem store_empty_iff_stoppedState :
    stoppedState.1.app.items = [] ∧
      ∀ e ∈ stoppedState.2.removed, e.1.segments ≠ [] → e.2 = true := by
  have hstate : stoppedState.1.app.items.nextWork = none ∧ stoppedState.2.struck = false ∧
      Settled stoppedState.1.app := by
    have hsession : stoppedState.1.app.session = none := by decide +kernel
    have hqueue : ∀ b ∈ stoppedState.1.app.queue, b.isFinish = false := by decide +kernel
    have htask : ∀ r ∈ stoppedState.1.app.items, stoppedState.1.app.task ≠ .remove r.id := by
      decide +kernel
    exact ⟨by decide +kernel, by decide +kernel, hsession, hqueue, htask⟩
  exact (store_empty_iff (run_of_isSome _) hstate.1).mpr hstate.2

end ScribeLocal.Phone
