import ScribeLocal.Phone.App

/-!
# Everything a step of the phone can be
-/
namespace ScribeLocal.Phone
open Table

/-- What the session and the main thread do. -/
inductive Records (s : App) : Action → App → Prop
  | start (date : ℕ) (hnone : s.session = none) : Records s (.start date)
      { s with
        items := s.items ++ [⟨s.nextId, none, date, [], [], 0, false, false⟩]
        nextId := s.nextId + 1
        session := some ⟨s.nextId, .starting, 0, false, 0, 0, false⟩ }
  | startFailed {ses : Session} (hses : s.session = some ses) (hphase : ses.phase = .starting) :
      Records s .startFailed { s with items := s.items.remove ses.id, session := none }
  /-- The session goes on, in another phase or with more frames. -/
  | goOn {a : Action} {ses ses' : Session} (hses : s.session = some ses) (hid : ses'.id = ses.id)
      (hphase : ses'.phase = .starting → ses.phase = .starting ∧ ses.fileOpen = true) :
      Records s a (s.setSession ses')
  /-- A full file is closed and the next one opened. -/
  | roll {a : Action} {ses ses' : Session} {g : Segment} (hses : s.session = some ses)
      (hid : ses'.id = ses.id) (hphase : ses'.phase = ses.phase) (hopen : ses.fileOpen = true)
      (hnew : g.uploaded = false) : Records s a
      { s with
        session := some ses'
        files := s.files ++ [(ses.id, g.seq)]
        queue := s.queue ++ [.save ses.id g] }
  | mark {ses : Session} (ms : ℤ) (hses : s.session = some ses) (hphase : ses.phase ≠ .starting) :
      Records s .mark { s with items := s.items.update ses.id (addMark ms) }
  | stop {ses : Session} {onMain : Bool} (totalMs : ℤ) (hses : s.session = some ses) :
      Records s (.stop onMain)
      { s with session := none, queue := s.queue ++ [.finish ses.id totalMs] }
  | stopSaved {ses : Session} {g : Segment} {onMain : Bool} (totalMs : ℤ)
      (hses : s.session = some ses) (hphase : ses.phase ≠ .starting) (hnew : g.uploaded = false) :
      Records s (.stop onMain)
      { s with
        items := s.items.update ses.id (addSegment g)
        files := s.files ++ [(ses.id, g.seq)]
        session := none
        queue := s.queue ++ [.finish ses.id totalMs] }
  | stopQueued {ses : Session} {g : Segment} {onMain : Bool} (totalMs : ℤ)
      (hses : s.session = some ses) (hphase : ses.phase ≠ .starting) (hnew : g.uploaded = false) :
      Records s (.stop onMain)
      { s with
        files := s.files ++ [(ses.id, g.seq)]
        session := none
        queue := s.queue ++ [.save ses.id g, .finish ses.id totalMs] }
  | main (b : Block) (rest : List Block) (hqueue : s.queue = b :: rest) :
      Records s .main { s with items := b.run s.items, queue := rest }
  | kill : Records s .kill { s with session := none, queue := [], task := .idle }

/-- What the upload queue does. -/
inductive Uploads (s : App) : Action → App → Prop
  | next {id : LocalId} (htask : s.task = .idle) (hwork : s.items.nextWork = some id) :
      Uploads s .next { s with task := .begin id }
  | gone {id : LocalId} (htask : s.task = .begin id) (hget : s.items.get id = none) :
      Uploads s .work { s with task := .idle }
  /-- Stopped before any audio was captured. -/
  | empty {id : LocalId} {r : LocalRecording} (htask : s.task = .begin id)
      (hget : s.items.get id = some r) (hfinished : r.finished = true) (hempty : r.segments = []) :
      Uploads s .work { s with task := (r.serverId.map (Task.delete id)).getD (.discard id) }
  | fresh {id : LocalId} {r : LocalRecording} (htask : s.task = .begin id)
      (hget : s.items.get id = some r) (hserver : r.serverId = none) :
      Uploads s .work { s with task := .create id r.toSend }
  | known {id : LocalId} {sid : Uuid} {r : LocalRecording} (htask : s.task = .begin id)
      (hget : s.items.get id = some r) (hserver : r.serverId = some sid) :
      Uploads s .work { s with task := .upload id sid r.toSend }
  | discard {id : LocalId} (htask : s.task = .discard id) :
      Uploads s .work { s with items := s.items.remove id, task := .clear id }
  | created {id : LocalId} {sid : Uuid} {segs : List Segment} (htask : s.task = .created id sid segs) :
      Uploads s .work
      { s with items := s.items.update id (setServerId sid), task := .upload id sid segs }
  | send {id : LocalId} {sid : Uuid} {g : Segment} {rest : List Segment}
      (htask : s.task = .upload id sid (g :: rest)) (hfile : (id, g.seq) ∈ s.files) :
      Uploads s .work { s with task := .put id sid g rest }
  | skip {id : LocalId} {sid : Uuid} {g : Segment} {rest : List Segment}
      (htask : s.task = .upload id sid (g :: rest)) (hfile : (id, g.seq) ∉ s.files) :
      Uploads s .work { s with task := .uploaded id sid g rest }
  /-- The recording goes on, or is gone. -/
  | more {id : LocalId} {sid : Uuid} (htask : s.task = .upload id sid []) :
      Uploads s .work { s with task := .idle }
  | ready {id : LocalId} {sid : Uuid} {r : LocalRecording} (htask : s.task = .upload id sid [])
      (hget : s.items.get id = some r) (hfinished : r.finished = true) (hpending : r.pending = [])
      (hnot : r.completed = false) :
      Uploads s .work { s with task := .complete id sid r.durationMs r.sentMarks }
  | uploaded {id : LocalId} {sid : Uuid} {g : Segment} {rest : List Segment}
      (htask : s.task = .uploaded id sid g rest) : Uploads s .work
      { s with items := s.items.update id (markUploaded g.seq), task := .unlink id sid g rest }
  | unlink {id : LocalId} {sid : Uuid} {g : Segment} {rest : List Segment}
      (htask : s.task = .unlink id sid g rest) : Uploads s .work
      { s with files := s.files.filter (· ≠ (id, g.seq)), task := .upload id sid rest }
  | completed {id : LocalId} (htask : s.task = .completed id) : Uploads s .work
      { s with items := s.items.update id markCompleted, task := .remove id }
  | remove {id : LocalId} (htask : s.task = .remove id) :
      Uploads s .work { s with items := s.items.remove id, task := .clear id }
  | clear {id : LocalId} (htask : s.task = .clear id) :
      Uploads s .work { s with files := s.files.filter (·.1 ≠ id), task := .idle }
  | reply {rep : Reply} {task : Task} (hreply : s.task.reply rep = some task) :
      Uploads s (.reply rep) { s with task := task }

variable {s s' : App} {a : Action} {ses : Session}

/-- How a reply is taken. -/
inductive Replied : Task → Reply → Task → Prop
  | deleted {id : LocalId} {sid : Uuid} {rep : Reply} : Replied (.delete id sid) rep (.discard id)
  | created {id : LocalId} {sid : Uuid} {segs : List Segment} :
      Replied (.create id segs) (.ok sid) (.created id sid segs)
  | uploaded {id : LocalId} {sid sid' : Uuid} {g : Segment} {rest : List Segment} :
      Replied (.put id sid g rest) (.ok sid') (.uploaded id sid g rest)
  | completed {id : LocalId} {sid : Uuid} {durationMs : ℤ} {marks : Option (List ℤ)} {rep : Reply}
      (hrep : (∃ sid', rep = .ok sid') ∨ rep = .error 409) :
      Replied (.complete id sid durationMs marks) rep (.completed id)
  | thrown {t : Task} {rep : Reply} (hcall : t.call?.isSome = true) : Replied t rep .idle

theorem reply_replied {t t' : Task} {rep : Reply} (h : t.reply rep = some t') :
    Replied t rep t' := by
  unfold Task.reply at h
  split at h <;> cases h
  · exact .deleted
  · exact .created
  · exact .thrown rfl
  · exact .uploaded
  · exact .thrown rfl
  · exact .completed (.inl ⟨_, rfl⟩)
  · exact .completed (.inr rfl)
  · exact .thrown rfl

theorem write_records {n : ℕ} {opened : Bool} (hses : s.session = some ses)
    (hopen : ses.fileOpen = true) : Records s (.write n opened) (s.write ses n opened) := by
  unfold App.write
  dsimp only
  split
  · exact .goOn hses rfl fun hstart => ⟨hstart, hopen⟩
  · split
    · exact .goOn hses rfl fun hstart => ⟨hstart, hopen⟩
    · rename_i g hclosed
      have hnew : g.uploaded = false := by
        rcases Option.ite_none_right_eq_some.mp hclosed with ⟨-, ⟨rfl⟩⟩
        rfl
      exact .roll hses rfl rfl hopen hnew

theorem stop_records {onMain : Bool} (hses : s.session = some ses) (hactive : ses.isActive = true) :
    Records s (.stop onMain) (s.stop ses onMain) := by
  have hphase : ses.phase ≠ .starting := by simpa [Session.isActive] using hactive
  unfold App.stop
  dsimp only
  split
  · exact .stop _ hses
  · rename_i g hclosed
    have hnew : g.uploaded = false := by
      rcases Option.ite_none_right_eq_some.mp hclosed with ⟨-, ⟨rfl⟩⟩
      rfl
    cases onMain with
    | true => exact .stopSaved _ hses hphase hnew
    | false => exact .stopQueued _ hses hphase hnew

theorem work_uploads (h : s.work = some s') : Uploads s .work s' := by
  unfold App.work at h
  split at h
  · rename_i id htask
    split at h
    · rename_i hget
      cases h
      exact .gone htask hget
    · rename_i r hget
      split at h
      · rename_i hempty
        rcases Bool.and_eq_true_iff.mp hempty with ⟨hfinished, hempty⟩
        cases h
        exact .empty htask hget hfinished (List.isEmpty_iff.mp hempty)
      · split at h
        · rename_i hserver
          cases h
          exact .fresh htask hget hserver
        · rename_i hserver
          cases h
          exact .known htask hget hserver
  · cases h
    exact .discard ‹_›
  · cases h
    exact .created ‹_›
  · rename_i id sid g rest htask
    by_cases hfile : (id, g.seq) ∈ s.files
    · rw [if_pos hfile] at h
      cases h
      exact .send htask hfile
    · rw [if_neg hfile] at h
      cases h
      exact .skip htask hfile
  · rename_i id sid htask
    split at h
    · cases h
      exact .more htask
    · rename_i now hget
      split at h
      · rename_i hready
        cases h
        simp only [Bool.and_eq_true, decide_eq_true_eq, List.length_eq_zero_iff,
          Bool.not_eq_true'] at hready
        exact .ready htask hget hready.1.1 hready.1.2 hready.2
      · cases h
        exact .more htask
  · cases h
    exact .uploaded ‹_›
  · cases h
    exact .unlink ‹_›
  · cases h
    exact .completed ‹_›
  · cases h
    exact .remove ‹_›
  · cases h
    exact .clear ‹_›
  · cases h

/-- While it waits for a reply, the upload queue takes no other step. -/
theorem uploads_waiting (h : Uploads s a s') (hreply : ∀ rep, a ≠ .reply rep) :
    s.task.call? = none := by
  cases h with
  | reply => exact absurd rfl (hreply _)
  | _ htask =>
    rw [htask]
    rfl

/-- A step records or uploads. -/
theorem step_acts (h : s.step a = some s') : Records s a s' ∨ Uploads s a s' := by
  have hsession {a : Action} {p : Session → Prop} [DecidablePred p] {f : Session → Session}
      (hid : ∀ ses, (f ses).id = ses.id) (hphase : ∀ ses, (f ses).phase ≠ .starting)
      (h : (s.session.bind fun ses => if p ses then some (s.setSession (f ses)) else none) =
        some s') : Records s a s' := by
    rcases Option.bind_eq_some_iff.mp h with ⟨ses, hses, h⟩
    rcases Option.ite_none_right_eq_some.mp h with ⟨-, ⟨rfl⟩⟩
    exact .goOn hses (hid ses) fun hstart => absurd hstart (hphase ses)
  cases a with
  | start date =>
    rcases Option.ite_none_left_eq_some.mp h with ⟨hnone, ⟨rfl⟩⟩
    exact .inl (.start date (by simpa using hnone))
  | started =>
    left
    exact hsession (f := fun ses => { ses with phase := .recording, fileOpen := true })
      (fun _ => rfl) (fun _ => Phase.noConfusion) h
  | startFailed =>
    rcases Option.bind_eq_some_iff.mp h with ⟨ses, hses, h⟩
    rcases Option.ite_none_right_eq_some.mp h with ⟨hphase, ⟨rfl⟩⟩
    exact .inl (.startFailed hses hphase)
  | write n opened =>
    rcases Option.bind_eq_some_iff.mp h with ⟨ses, hses, h⟩
    rcases Option.ite_none_right_eq_some.mp h with ⟨hopen, ⟨rfl⟩⟩
    exact .inl (write_records hses (Bool.and_eq_true_iff.mp hopen).1)
  | pause =>
    left
    exact hsession (f := fun ses => { ses with phase := .paused, paused := true })
      (fun _ => rfl) (fun _ => Phase.noConfusion) h
  | resume =>
    left
    exact hsession (f := fun ses => { ses with phase := .recording, paused := false })
      (fun _ => rfl) (fun _ => Phase.noConfusion) h
  | interrupted =>
    left
    exact hsession (f := fun ses => { ses with phase := .interrupted })
      (fun _ => rfl) (fun _ => Phase.noConfusion) h
  | resumed =>
    left
    exact hsession (f := fun ses => { ses with phase := .recording })
      (fun _ => rfl) (fun _ => Phase.noConfusion) h
  | mark =>
    rcases Option.bind_eq_some_iff.mp h with ⟨ses, hses, h⟩
    rcases Option.ite_none_right_eq_some.mp h with ⟨hactive, ⟨rfl⟩⟩
    exact .inl (.mark _ hses (by simpa [Session.isActive] using hactive))
  | stop onMain =>
    rcases Option.bind_eq_some_iff.mp h with ⟨ses, hses, h⟩
    rcases Option.ite_none_right_eq_some.mp h with ⟨hactive, ⟨rfl⟩⟩
    exact .inl (stop_records hses hactive)
  | main =>
    simp only [App.step] at h
    split at h
    · cases h
    · rename_i b rest hqueue
      cases h
      exact .inl (.main b rest hqueue)
  | next =>
    rcases Option.ite_none_right_eq_some.mp h with ⟨htask, h⟩
    rcases Option.map_eq_some_iff.mp h with ⟨id, hwork, rfl⟩
    exact .inr (.next htask hwork)
  | work => exact .inr (work_uploads h)
  | reply rep =>
    rcases Option.map_eq_some_iff.mp h with ⟨task, hreply, rfl⟩
    exact .inr (.reply hreply)
  | kill =>
    cases h
    exact .inl .kill

end ScribeLocal.Phone
