import ScribeLocal.Server.Drain
import ScribeLocal.Server.Transcript

/-!
# Live passes

A live pass reads the status, lists the untranscribed segments, reads where the
transcribed ones end, and then inserts and marks one segment after another. Where reaps
take back only jobs of stopped workers, a recording has one pass at most.
-/
namespace ScribeLocal.Server
open MachineInt Table Jobs Transition

variable {cfg : Config} {r : Uuid} {s s' : Sys} {a : Label} {x : Heard} {job : Job} {i : ℕ}
  {now : Time} {status : Uuid → Option RecordingStatus}

/-- What a live pass has still to do. -/
inductive LivePhase (r : Uuid) : List Stmt → Prop
  | status : LivePhase r [.liveStatus r]
  | list : LivePhase r [.liveList r]
  | offset (segments : List Segment) : LivePhase r [.liveOffset r segments]
  | insert (offset : ℤ) (segments : List Segment) : LivePhase r [.liveInsert r offset segments]
  | mark (id : ℕ) (offset : ℤ) (ms : ℕ) (segments : List Segment) :
      LivePhase r [.liveMark r id offset ms, .liveInsert r (i64 (offset + ms)) segments]
  | done : LivePhase r []

/-- One statement of a live pass: the tables afterwards and what it has then to do. -/
inductive Passes (now : Time) (status : Uuid → Option RecordingStatus) (x : Heard) (r : Uuid)
    (c : Content) : List Stmt → Content → List Stmt → Prop
  | leave {st : RecordingStatus} (hst : status r = some st) (hno : st ≠ .uploading) :
      Passes now status x r c [.liveStatus r] c []
  | enter (hyes : status r = some .uploading) :
      Passes now status x r c [.liveStatus r] c [.liveList r]
  | none (hnil : c.untranscribed r = []) : Passes now status x r c [.liveList r] c []
  | some (hne : c.untranscribed r ≠ []) :
      Passes now status x r c [.liveList r] c [.liveOffset r (c.untranscribed r)]
  | offset (segments : List Segment) {last : Option ℤ} (hlast : c.maxTranscribedEnd r = .some last) :
      Passes now status x r c [.liveOffset r segments] c [.liveInsert r (last.getD 0) segments]
  | finish (offset : ℤ) : Passes now status x r c [.liveInsert r offset []] c []
  | missing (offset : ℤ) (g : Segment) (gs : List Segment) (hx : x.missing = true) :
      Passes now status x r c [.liveInsert r offset (g :: gs)] c [.liveInsert r offset gs]
  | insert (offset : ℤ) (g : Segment) (gs : List Segment) (hx : x.missing = false) :
      Passes now status x r c [.liveInsert r offset (g :: gs)]
        (c.insertUtterances r x.utterances)
        [.liveMark r g.id offset x.durationMs, .liveInsert r (i64 (offset + x.durationMs)) gs]
  | mark (id : ℕ) (offset : ℤ) (ms : ℕ) (gs : List Segment) :
      Passes now status x r c [.liveMark r id offset ms, .liveInsert r (i64 (offset + ms)) gs]
        (c.markTranscribed now id offset ms) [.liveInsert r (i64 (offset + ms)) gs]

theorem livePhase_exec {c c' : Content} {st : Stmt} {rest sts : List Stmt}
    (hphase : LivePhase r (st :: rest)) (h : st.exec now status x c = some (c', sts)) :
    Passes now status x r c (st :: rest) c' (sts ++ rest) := by
  cases hphase with
  | status =>
    simp only [Stmt.exec] at h
    split at h
    · cases h
    · rename_i st' hst
      split at h
      · rename_i hup
        cases h
        exact .enter (hup ▸ hst)
      · rename_i hup
        cases h
        exact .leave hst hup
  | list =>
    simp only [Stmt.exec] at h
    split at h
    · rename_i hnil
      cases h
      exact .none hnil
    · rename_i g gs hcons
      cases h
      have hsome : Passes now status x r c [.liveList r] c [.liveOffset r (c.untranscribed r)] :=
        .some (by simp [hcons])
      rwa [hcons] at hsome
  | offset segments =>
    simp only [Stmt.exec] at h
    split at h
    · cases h
    · rename_i last hlast
      cases h
      exact .offset segments hlast
  | insert offset segments =>
    cases segments with
    | nil =>
      cases h
      exact .finish offset
    | cons g gs =>
      simp only [Stmt.exec] at h
      split at h
      · rename_i hx
        cases h
        exact .missing offset g gs hx
      · rename_i hx
        cases h
        exact .insert offset g gs (by simpa using hx)
  | mark id offset ms segments =>
    cases h
    exact .mark id offset ms segments

theorem Passes.phase {c c' : Content} {body body' : List Stmt}
    (h : Passes now status x r c body c' body') : LivePhase r body' := by
  cases h with
  | leave | none | finish => exact .done
  | enter => exact .list
  | some => exact .offset _
  | offset | missing => exact .insert _ _
  | insert => exact .mark _ _ _ _
  | mark => exact .insert _ _

/-- A live pass in progress has one of the known lists of statements before it. -/
def Phased (s : Sys) : Prop :=
  ∀ i job body r, s.procs i = .stage job body → job.kind = .transcribeSegment →
    job.recordingId = some r → LivePhase r body

theorem moved_pass (hphased : Phased s) (h : Moved cfg s a s') {body : List Stmt}
    (hproc : s'.procs i = .stage job body) (hk : job.kind = .transcribeSegment)
    (hr : job.recordingId = some r) :
    (s.procs i = .stage job body ∧ ∀ x, a ≠ .step i x) ∨
      (body = [.liveStatus r] ∧ ∃ w kinds id t, a = .claim i w kinds id ∧
        s.db.jobs.claimOne s.db.now w kinds id = some (job, t)) ∨
      ∃ x old, a = .step i x ∧ s.procs i = .stage job old ∧
        Passes s.db.now s.db.status x r s.db.content old s'.db.content body := by
  rcases moved_stage h hproc with hold | ⟨rfl, hclaim⟩ | ⟨x, st, rest, c, sts, ha, hold, hexec, rfl, hdb⟩
  · exact .inl hold
  · refine .inr (.inl ⟨?_, hclaim⟩)
    simp [jobBody, hr, hk, stageBody]
  · have hpass := livePhase_exec (hphased i job _ r hold hk hr) hexec
    have hcontent : s'.db.content = c := by rw [hdb]
    exact .inr (.inr ⟨x, _, ha, hold, hcontent ▸ hpass⟩)

theorem phased_moved (hphased : Phased s) (h : Moved cfg s a s') : Phased s' := by
  intro i job body r hproc hk hr
  rcases moved_pass hphased h hproc hk hr with ⟨hold, -⟩ | ⟨rfl, -⟩ | ⟨x, old, -, -, hpass⟩
  · exact hphased i job body r hold hk hr
  · exact .status
  · exact hpass.phase

/-! ## One pass at a time -/

/-- Process `i` is in a live pass of `r`, past its status check. -/
def Passing (s : Sys) (r : Uuid) (i : ℕ) : Prop :=
  ∃ job body, s.procs i = .stage job body ∧ ∃ st ∈ body, Stmt.pastCheck r st

theorem pastCheck_stage {st : Stmt} (h : Stmt.pastCheck r st) :
    st.recording = r ∧ st.stage = some .transcribeSegment := by
  cases st <;> first | exact ⟨h, rfl⟩ | cases h

theorem passing_job (hst : Staged s) (h : Passing s r i) :
    ∃ job body, s.procs i = .stage job body ∧ job.kind = .transcribeSegment ∧
      job.recordingId = some r := by
  rcases h with ⟨job, body, hproc, st, hmem, hpast⟩
  have hcheck := pastCheck_stage hpast
  have hjob := hst.body i job body hproc st hmem
  refine ⟨job, body, hproc, Option.some.inj (hjob.2.symm.trans hcheck.2), ?_⟩
  rw [hjob.1, hcheck.1]

/-- A pass comes past its check only while the recording is in `uploading`. -/
theorem passing_moved (hphased : Phased s) (hst' : Staged s')
    (h : Moved cfg s a s') (hpass : Passing s' r i) :
    Passing s r i ∨ s.db.status r = some .uploading ∧ ∃ x job, a = .step i x ∧
      s.procs i = .stage job [.liveStatus r] ∧ job.kind = .transcribeSegment ∧
      job.recordingId = some r := by
  have hpass' := hpass
  rcases hpass with ⟨job, body, hproc, st, hmem, hpast⟩
  rcases passing_job hst' hpass' with ⟨job', body', hproc', hk, hr⟩
  cases hproc.symm.trans hproc'
  rcases moved_pass hphased h hproc hk hr with ⟨hold, -⟩ | ⟨rfl, -⟩ | ⟨x, old, ha, hold, hexec⟩
  · exact .inl ⟨job, body, hold, st, hmem, hpast⟩
  · rw [List.mem_singleton.mp hmem] at hpast
    cases hpast
  · generalize s'.db.content = c' at hexec
    cases hexec with
    | enter hyes => exact .inr ⟨hyes, x, job, ha, hold, hk, hr⟩
    | leave | none | finish => cases hmem
    | some | offset | missing | insert | mark =>
      exact .inl ⟨job, _, hold, _, List.mem_cons_self, rfl⟩

/-- Until a recording is completed or run again, its jobs keep their rows. -/
theorem openPresent_moved (hs : Snapshot s) (hpresent : Open s r → Present r s)
    (h : Moved cfg s a s') (hopen : Open s' r) : Present r s' := by
  have hold := hpresent (open_of_moved h hopen)
  by_cases hno : ∀ i x c rest, a = .step i x → s.procs i = .todo (c :: rest) → ¬ c.resets r
  · exact present_moved hs hold h hno
  · push Not at hno
    rcases hno with ⟨i, x, c, rest, rfl, hproc, hreset⟩
    obtain rfl := next_of_todo h hproc
    rcases reset_status cfg x s.db hreset with heq | hst
    · intro k job hhold hr
      rcases moved_job hs h hhold with hheld | ⟨_, _, _, ha, -⟩
      · rcases hold k job hheld hr with ⟨row, hrow⟩
        refine ⟨row, ?_⟩
        rw [Sys.setProc_db]
        exact (congrArg (fun db : Db => db.jobs.row job.id) heq).trans hrow
      · cases ha
    · rcases hopen with hopen | hopen
      · cases hopen.symm.trans hst
      · cases hopen.symm.trans hst

/-- What a step can do to the segments. -/
theorem moved_segments (hst : Staged s) (h : Moved cfg s a s') :
    (s'.db.content.segments = s.db.content.segments ∧
      s.db.content.nextId ≤ s'.db.content.nextId) ∨
    (∃ x i r seq d e rest, a = .step i x ∧
      s.procs i = .todo (.content (.insertSegment r seq d e) :: rest) ∧
      s'.db.content = s.db.content.insertSegment r seq d e) ∨
    ∃ x i job r id offset ms rest, a = .step i x ∧
      s.procs i = .stage job (.liveMark r id offset ms :: rest) ∧
      s'.db.content = s.db.content.markTranscribed s.db.now id offset ms := by
  cases h with
  | @cmd i c rest x hproc =>
    have hwrites := exec_writes cfg x s.db c
    change ((c.exec cfg x s.db).1.content.segments = _ ∧ _ ≤ (c.exec cfg x s.db).1.content.nextId) ∨
      (∃ x' i' r seq d e rest', _ ∧ _ ∧ (c.exec cfg x s.db).1.content = _) ∨
      ∃ x' i' job r id offset ms rest', _ ∧ _ ∧ (c.exec cfg x s.db).1.content = _
    generalize (c.exec cfg x s.db).1.content = c' at hwrites
    cases hwrites with
    | nothing | participants | reprocess | rediarize => exact .inl ⟨rfl, le_rfl⟩
    | @content st _ sts hexec =>
      rcases exec_segments hexec with hkeep | ⟨r, seq, d, e, rfl, heq⟩ | ⟨r, id, offset, ms, rfl, -⟩
      · exact .inl hkeep
      · exact .inr (.inl ⟨x, i, r, seq, d, e, rest, rfl, hproc, heq⟩)
      · cases hst.handler i _ hproc _ List.mem_cons_self
  | @stmt i job st body c sts x hproc hexec =>
    rcases exec_segments hexec with hkeep | ⟨r, seq, d, e, rfl, -⟩ | ⟨r, id, offset, ms, rfl, heq⟩
    · exact .inl hkeep
    · cases (hst.body i job _ hproc _ List.mem_cons_self).2
    · exact .inr (.inr ⟨x, i, job, r, id, offset, ms, body, rfl, hproc, heq⟩)
  | _ => exact .inl ⟨rfl, le_rfl⟩

theorem segmented_moved (hst : Staged s) (hseg : Segmented s.db.content) (h : Moved cfg s a s') :
    Segmented s'.db.content := by
  rcases moved_segments hst h with ⟨heq, hle⟩ | ⟨x, i, r, seq, d, e, rest, -, -, heq⟩ |
    ⟨x, i, job, r, id, offset, ms, rest, -, -, heq⟩
  · exact segmented_of_eq hseg heq hle
  · rw [heq]
    exact segmented_insertSegment hseg
  · rw [heq]
    exact segmented_markTranscribed hseg

/-- No step takes a segment away or gives it to another recording. -/
theorem segment_kept (hst : Staged s) (h : Moved cfg s a s') {g : Segment}
    (hg : g ∈ s.db.content.segments) :
    ∃ g' ∈ s'.db.content.segments, g'.id = g.id ∧ g'.recordingId = g.recordingId := by
  rcases moved_segments hst h with ⟨heq, -⟩ | ⟨-, -, r, seq, d, e, -, -, -, heq⟩ |
    ⟨-, -, -, r, id, offset, ms, -, -, -, heq⟩
  · exact ⟨g, heq ▸ hg, rfl, rfl⟩
  · rw [heq]
    rcases mem_segments_insertSegment (r := r) hg with ⟨g', hg', hid, hr, -⟩
    exact ⟨g', hg', hid, hr⟩
  · rw [heq]
    rcases mem_segments_markTranscribed hg with ⟨g', hg', hid, hr, -⟩
    exact ⟨g', hg', hid, hr⟩

/-! ## What a pass has listed -/

/-- The segments a statement of a pass has still to deal with. -/
def Stmt.ahead : Stmt → List Segment
  | .liveOffset _ gs | .liveInsert _ _ gs => gs
  | _ => []

/-- Segment `id` of recording `r` is not transcribed. -/
def Untranscribed (s : Sys) (r : Uuid) (id : ℕ) : Prop :=
  ∃ g ∈ s.db.content.segments, g.id = id ∧ g.recordingId = r ∧ g.transcribedAt = none

/-- What a pass has before it is untranscribed, each segment once. -/
structure Listed (s : Sys) : Prop where
  ahead : ∀ i job body r, s.procs i = .stage job body → job.kind = .transcribeSegment →
    job.recordingId = some r → ∀ st ∈ body, ((Stmt.ahead st).map Segment.id).Nodup ∧
      ∀ g ∈ Stmt.ahead st, Untranscribed s r g.id
  mark : ∀ i job r id offset ms rest,
    s.procs i = .stage job (.liveMark r id offset ms :: rest) →
      Untranscribed s r id ∧ ∀ st ∈ rest, ∀ g ∈ Stmt.ahead st, g.id ≠ id

/-- What is known of the live passes of every recording. -/
structure LiveOk (s : Sys) : Prop where
  snapshot : Snapshot s
  staged : Staged s
  leased : Leased s
  phased : Phased s
  present : ∀ r, Open s r → Present r s
  alone : ∀ r i j, Passing s r i → Passing s r j → i = j
  segmented : Segmented s.db.content
  listed : Listed s

theorem untranscribed_unique (hs : LiveOk s) {id : ℕ} {r' : Uuid} (h : Untranscribed s r id)
    (h' : Untranscribed s r' id) : r = r' := by
  rcases h with ⟨g, hg, hid, hr, -⟩
  rcases h' with ⟨g', hg', hid', hr', -⟩
  rw [← hr, ← hr', hs.segmented.eq_of_id hg hg' (hid.trans hid'.symm)]

/-- A segment is transcribed by a mark only. -/
theorem untranscribed_kept (hs : LiveOk s) (h : Moved cfg s a s') {id : ℕ}
    (hun : Untranscribed s r id) : Untranscribed s' r id ∨ ∃ x k job offset ms rest,
      a = .step k x ∧ s.procs k = .stage job (.liveMark r id offset ms :: rest) := by
  have hun' := hun
  rcases hun with ⟨g, hg, hid, hr, hat⟩
  rcases moved_segments hs.staged h with ⟨heq, -⟩ | ⟨-, -, r', seq, d, e, -, -, -, heq⟩ |
    ⟨x, k, job, r', id', offset, ms, rest, ha, hproc, heq⟩
  · exact .inl ⟨g, heq ▸ hg, hid, hr, hat⟩
  · left
    rcases mem_segments_insertSegment (r := r') hg with ⟨g', hg', hid', hr', hat'⟩
    exact ⟨g', heq ▸ hg', hid'.trans hid, hr'.trans hr, hat'.trans hat⟩
  · rcases mem_segments_markTranscribed hg with ⟨g', hg', hid₁, hr₁, ⟨rfl, hne⟩ | ⟨hsame, -⟩⟩
    · exact .inl ⟨g', heq ▸ hg', hid, hr, hat⟩
    · right
      obtain rfl : id = id' := hid.symm.trans hsame
      obtain rfl : r = r' := untranscribed_unique hs hun' (hs.listed.mark k job r' _ _ _ rest hproc).1
      exact ⟨x, k, job, offset, ms, rest, ha, hproc⟩

/-- What a pass has listed stays untranscribed until it marks it itself. -/
theorem listed_kept (hs : LiveOk s) (h : Moved cfg s a s') {id : ℕ} (hpass : Passing s r i)
    (hun : Untranscribed s r id) : Untranscribed s' r id ∨ ∃ x job offset ms rest,
      a = .step i x ∧ s.procs i = .stage job (.liveMark r id offset ms :: rest) := by
  rcases untranscribed_kept hs h hun with hkept | ⟨x, k, job, offset, ms, rest, ha, hproc⟩
  · exact .inl hkept
  · have hmark : Passing s r k := ⟨job, _, hproc, _, List.mem_cons_self, rfl⟩
    obtain rfl := hs.alone r i k hpass hmark
    exact .inr ⟨x, job, offset, ms, rest, ha, hproc⟩

theorem pastCheck_of_ahead {st : Stmt} {g : Segment} (hg : g ∈ Stmt.ahead st) :
    Stmt.pastCheck st.recording st := by
  cases st <;> first | rfl | cases hg

theorem passing_of_ahead (hst : Staged s) {body : List Stmt} (hproc : s.procs i = .stage job body)
    (hr : job.recordingId = some r) {st : Stmt} (hmem : st ∈ body) {g : Segment}
    (hg : g ∈ Stmt.ahead st) : Passing s r i := by
  have hrec : st.recording = r :=
    Option.some.inj ((hst.body i job body hproc st hmem).1.symm.trans hr)
  exact ⟨job, body, hproc, st, hmem, hrec ▸ pastCheck_of_ahead hg⟩

theorem ahead_moved (hs : LiveOk s) (h : Moved cfg s a s') {body : List Stmt}
    (hproc : s'.procs i = .stage job body) (hk : job.kind = .transcribeSegment)
    (hr : job.recordingId = some r) {st : Stmt} (hst : st ∈ body) :
    ((Stmt.ahead st).map Segment.id).Nodup ∧ ∀ g ∈ Stmt.ahead st, Untranscribed s' r g.id := by
  rcases moved_pass hs.phased h hproc hk hr with ⟨hold, hstep⟩ | ⟨rfl, -⟩ | ⟨x, old, rfl, hold, hpass⟩
  · have hlist := hs.listed.ahead i job body r hold hk hr st hst
    refine ⟨hlist.1, fun g hg => ?_⟩
    rcases listed_kept hs h (passing_of_ahead hs.staged hold hr hst hg) (hlist.2 g hg) with
      hkept | ⟨x, _, _, _, _, ha, -⟩
    · exact hkept
    · exact absurd ha (hstep x)
  · rw [List.mem_singleton.mp hst]
    exact ⟨List.nodup_nil, fun g hg => nomatch hg⟩
  · -- what was listed and is not marked by this step
    have hrest {st₀ : Stmt} {gs : List Segment} (hst₀ : st₀ ∈ old)
        (hsub : gs.Sublist (Stmt.ahead st₀))
        (hno : ∀ g ∈ gs, ∀ job offset ms rest,
          s.procs i ≠ .stage job (.liveMark r g.id offset ms :: rest)) :
        (gs.map Segment.id).Nodup ∧ ∀ g ∈ gs, Untranscribed s' r g.id := by
      have hlist := hs.listed.ahead i job old r hold hk hr st₀ hst₀
      refine ⟨hlist.1.sublist (hsub.map Segment.id), fun g hg => ?_⟩
      have hpass := passing_of_ahead hs.staged hold hr hst₀ (hsub.subset hg)
      rcases listed_kept hs h hpass (hlist.2 g (hsub.subset hg)) with
        hkept | ⟨_, job', offset, ms, rest, -, hproc'⟩
      · exact hkept
      · exact absurd hproc' (hno g hg job' offset ms rest)
    generalize hc : s'.db.content = c' at hpass
    cases hpass with
    | leave | none | finish => cases hst
    | enter =>
      rw [List.mem_singleton.mp hst]
      exact ⟨List.nodup_nil, fun g hg => nomatch hg⟩
    | some =>
      rw [List.mem_singleton.mp hst]
      refine ⟨untranscribed_nodup hs.segmented, fun g hg => ?_⟩
      have hmem := mem_untranscribed.mp hg
      exact ⟨g, hc ▸ hmem.1, rfl, hmem.2⟩
    | offset segments =>
      rw [List.mem_singleton.mp hst]
      exact hrest List.mem_cons_self (List.Sublist.refl _) fun g _ => by simp [hold]
    | missing offset g gs hx =>
      rw [List.mem_singleton.mp hst]
      exact hrest List.mem_cons_self (List.sublist_cons_self g gs) fun g _ => by simp [hold]
    | insert offset g gs hx =>
      simp only [List.mem_cons, List.not_mem_nil, or_false] at hst
      rcases hst with rfl | rfl
      · exact ⟨List.nodup_nil, fun g hg => nomatch hg⟩
      · exact hrest List.mem_cons_self (List.sublist_cons_self g gs) fun g _ => by simp [hold]
    | mark id offset ms gs =>
      rw [List.mem_singleton.mp hst]
      have hne := (hs.listed.mark i job r id offset ms _ hold).2 _ List.mem_cons_self
      apply hrest (List.mem_cons_of_mem _ List.mem_cons_self) (List.Sublist.refl _)
      intro g hg job' offset' ms' rest hproc'
      cases hold.symm.trans hproc'
      exact hne g hg rfl

theorem mark_moved (hs : LiveOk s) (hst' : Staged s') (h : Moved cfg s a s') {id : ℕ}
    {offset ms : ℤ} {rest : List Stmt}
    (hproc : s'.procs i = .stage job (.liveMark r id offset ms :: rest)) :
    Untranscribed s' r id ∧ ∀ st ∈ rest, ∀ g ∈ Stmt.ahead st, g.id ≠ id := by
  have hjob := hst'.body i job _ hproc _ List.mem_cons_self
  have hr : job.recordingId = some r := hjob.1
  have hk : job.kind = .transcribeSegment := (Option.some.inj hjob.2).symm
  rcases moved_pass hs.phased h hproc hk hr with ⟨hold, hstep⟩ | ⟨hbody, -⟩ | ⟨x, old, rfl, hold, hpass⟩
  · have hmark := hs.listed.mark i job r id offset ms rest hold
    refine ⟨?_, hmark.2⟩
    have hpass : Passing s r i := ⟨job, _, hold, _, List.mem_cons_self, rfl⟩
    rcases listed_kept hs h hpass hmark.1 with hkept | ⟨x, _, _, _, _, ha, -⟩
    · exact hkept
    · exact absurd ha (hstep x)
  · cases hbody
  · generalize s'.db.content = c' at hpass
    cases hpass with
    | insert _ g gs hx =>
      have hlist := hs.listed.ahead i job _ r hold hk hr _ List.mem_cons_self
      have hpass := passing_of_ahead hs.staged hold hr List.mem_cons_self
        (List.mem_cons_self (a := g) (l := gs))
      constructor
      · rcases listed_kept hs h hpass (hlist.2 g List.mem_cons_self) with
          hkept | ⟨_, job', _, _, _, -, hproc'⟩
        · exact hkept
        · cases hold.symm.trans hproc'
      · intro st hst g' hg' heq
        rw [List.mem_singleton.mp hst] at hg'
        apply (List.nodup_cons.mp hlist.1).1
        exact List.mem_map.mpr ⟨g', hg', heq⟩

theorem alone_moved (hs : LiveOk s) (hst' : Staged s') (h : Moved cfg s a s') {j : ℕ}
    (hi : Passing s' r i) (hj : Passing s' r j) : i = j := by
  -- who comes past the check meets nobody who is past it already
  have henter {k l : ℕ} {job : Job} (hup : s.db.status r = some .uploading)
      (hproc : s.procs k = .stage job [.liveStatus r]) (hk : job.kind = .transcribeSegment)
      (hr : job.recordingId = some r) (hl : Passing s r l) : k = l := by
    rcases passing_job hs.staged hl with ⟨job', body', hproc', hk', hr'⟩
    have hhold : Holds s k job := by
      rw [Holds, hproc]
      rfl
    have hhold' : Holds s l job' := by
      rw [Holds, hproc']
      rfl
    have hpresent := hs.present r (.inr hup)
    rcases hpresent k job hhold hr with ⟨row, hrow⟩
    rcases hpresent l job' hhold' hr' with ⟨row', hrow'⟩
    exact holder_unique hs.snapshot hs.leased hhold hhold' hr hr' (hk.trans hk'.symm) hrow hrow'
  rcases passing_moved hs.phased hst' h hi with
    hold | ⟨hup, x, job, ha, hproc, hk, hr⟩
  · rcases passing_moved hs.phased hst' h hj with
      hold' | ⟨hup, x, job, ha, hproc, hk, hr⟩
    · exact hs.alone r i j hold hold'
    · exact (henter hup hproc hk hr hold).symm
  · rcases passing_moved hs.phased hst' h hj with
      hold' | ⟨-, x', job', ha', -⟩
    · exact henter hup hproc hk hr hold'
    · rw [ha] at ha'
      exact (Label.step.inj ha').1

theorem liveOk_start : LiveOk Sys.start where
  snapshot := snapshot_start
  staged := staged_start
  leased := leased_start
  phased _ _ _ _ h := nomatch h
  present _ _ _ _ h := nomatch h
  alone _ _ _ h := by
    rcases h with ⟨_, _, hproc, -⟩
    cases hproc
  segmented := ⟨fun _ h => (nomatch h), List.nodup_nil⟩
  listed := ⟨fun _ _ _ _ h => (nomatch h), fun _ _ _ _ _ _ _ h => (nomatch h)⟩

theorem liveOk_moved (hs : LiveOk s) (hreap : ReapsDead cfg s a) (h : Moved cfg s a s') :
    LiveOk s' where
  snapshot := snapshot_moved hs.snapshot h
  staged := staged_moved hs.staged h
  leased := leased_moved hs.snapshot hs.leased hreap h
  phased := phased_moved hs.phased h
  present r := openPresent_moved hs.snapshot (hs.present r) h
  alone _ _ _ := alone_moved hs (staged_moved hs.staged h) h
  segmented := segmented_moved hs.staged hs.segmented h
  listed :=
    { ahead := fun _ _ _ _ hproc hk hr _ => ahead_moved hs h hproc hk hr
      mark := fun _ _ _ _ _ _ _ => mark_moved hs (staged_moved hs.staged h) h }

/-- The next statement of a live pass, unless it is an error. -/
theorem step_pass (hphased : Phased s) {k : ℕ} {st : Stmt} {rest : List Stmt}
    (h : Moved cfg s (.step k x) s') (hproc : s.procs k = .stage job (st :: rest))
    (hk : job.kind = .transcribeSegment) (hr : job.recordingId = some r) :
    st.exec s.db.now s.db.status x s.db.content = none ∨
      ∃ body, s'.procs k = .stage job body ∧
        Passes s.db.now s.db.status x r s.db.content (st :: rest) s'.db.content body := by
  cases hexec : st.exec s.db.now s.db.status x s.db.content with
  | none => exact .inl rfl
  | some next =>
    obtain rfl := next_of_stage h hproc hexec
    exact .inr ⟨_, Sys.setProc_self, livePhase_exec (hphased k job _ r hproc hk hr) hexec⟩

/-- A live pass goes on until its process steps, stops or fails. -/
theorem pass_kept (h : Moved cfg s a s') {k : ℕ} {body : List Stmt}
    (hproc : s.procs k = .stage job body) (hk : job.kind = .transcribeSegment) :
    s'.procs k = .stage job body ∨ (∃ x, a = .step k x) ∨ a = .stop k ∨
      ∃ error, a = .stageErr k error := by
  by_cases hi : a.proc = some k
  · cases h with
    | tick => cases hi
    | heartbeat => exact .inl hproc
    | request _ hidle | reaper hidle | claim hidle =>
      cases hi
      cases hproc.symm.trans hidle
    | cmd x | stmt x | stmtErr x | bodyDone x =>
      cases hi
      exact .inr (.inl ⟨x, rfl⟩)
    | stageErr error =>
      cases hi
      exact .inr (.inr (.inr ⟨error, rfl⟩))
    | windowClosed delay hproc' hkind =>
      cases hi
      cases hproc.symm.trans hproc'
      rw [hk] at hkind
      cases hkind
    | stop =>
      cases hi
      exact .inr (.inr (.inl rfl))
  · left
    rw [moved_procs_of_ne h hi, hproc]

end ScribeLocal.Server
