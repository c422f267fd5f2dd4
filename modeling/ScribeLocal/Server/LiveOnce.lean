import ScribeLocal.Server.LivePass

/-!
# Live text, once

A live pass inserts a segment's words and then marks the segment. The two statements
are tied by nothing: a pass that is cut short between them leaves the words in place
and the segment unmarked, and the next pass inserts them again.
-/
namespace ScribeLocal.Server
open Table Jobs Transition

variable {cfg : Config} {r : Uuid} {s s' : Sys} {a : Label} {x : Heard} {job : Job} {i : ℕ}
  {n : ℕ → ℕ}

/-- No pass is cut short between an insert and its mark, and the reaper takes back only
jobs of stopped workers. -/
def MarksInserted (cfg : Config) (s : Sys) : Label → Prop
  | .stop i | .stageErr i _ => ∀ job r id offset ms body,
      s.procs i ≠ .stage job (.liveMark r id offset ms :: body)
  | a => ReapsDead cfg s a

/-- The step inserts the words of segment `id`. -/
def inserts (id : ℕ) (s : Sys) : Label → ℕ
  | .step i x => match s.procs i with
    | .stage _ (.liveInsert _ _ (g :: _) :: _) => if x.missing = false ∧ g.id = id then 1 else 0
    | _ => 0
  | _ => 0

theorem MarksInserted.reapsDead (h : MarksInserted cfg s a) : ReapsDead cfg s a := by
  cases a <;> first | exact h | trivial

theorem inserts_eq_zero_or (id : ℕ) (s : Sys) (a : Label) : inserts id s a = 0 ∨
    inserts id s a = 1 ∧ ∃ k x job r offset g gs rest, a = .step k x ∧
      s.procs k = .stage job (.liveInsert r offset (g :: gs) :: rest) ∧ x.missing = false ∧
      g.id = id := by
  cases a with
  | step k x =>
    simp only [inserts]
    split
    · rename_i job r offset g gs rest hproc
      by_cases hx : x.missing = false ∧ g.id = id
      · exact .inr ⟨if_pos hx, k, x, job, r, offset, g, gs, rest, rfl, hproc, hx.1, hx.2⟩
      · exact .inl (if_neg hx)
    · exact .inl rfl
  | _ => exact .inl rfl

/-- `n` counts how often the words of each segment were inserted. -/
structure LiveOnce (n : ℕ → ℕ) (s : Sys) : Prop where
  known : ∀ id, n id ≠ 0 → ∃ g ∈ s.db.content.segments, g.id = id
  le_one : ∀ id, n id ≤ 1
  marked : ∀ g ∈ s.db.content.segments, g.transcribedAt.isSome = true → n g.id = 1
  pending : ∀ g ∈ s.db.content.segments, g.transcribedAt = none → n g.id ≠ 0 →
    ∃ i job offset ms rest,
      s.procs i = .stage job (.liveMark g.recordingId g.id offset ms :: rest)
  ahead : ∀ i job body r, s.procs i = .stage job body → job.kind = .transcribeSegment →
    job.recordingId = some r → ∀ st ∈ body, ∀ g ∈ Stmt.ahead st, n g.id = 0
  markable : ∀ i job r id offset ms rest,
    s.procs i = .stage job (.liveMark r id offset ms :: rest) → n id = 1

/-- The process that inserts is in a pass, and the segment is one it has listed. -/
theorem inserting (hs : LiveOk s) (honce : LiveOnce n s) {k : ℕ} {offset : ℤ} {g : Segment}
    {gs : List Segment} {rest : List Stmt}
    (hproc : s.procs k = .stage job (.liveInsert r offset (g :: gs) :: rest)) :
    Passing s r k ∧ n g.id = 0 ∧ Untranscribed s r g.id ∧ g.id ∉ gs.map Segment.id := by
  have hjob := hs.staged.body k job _ hproc _ List.mem_cons_self
  have hk : job.kind = .transcribeSegment := (Option.some.inj hjob.2).symm
  have hlist := hs.listed.ahead k job _ r hproc hk hjob.1 _ List.mem_cons_self
  have hzero := honce.ahead k job _ r hproc hk hjob.1 _ List.mem_cons_self g List.mem_cons_self
  refine ⟨⟨job, _, hproc, _, List.mem_cons_self, rfl⟩, hzero, hlist.2 g List.mem_cons_self, ?_⟩
  exact (List.nodup_cons.mp hlist.1).1

theorem le_one_moved (hs : LiveOk s) (honce : LiveOnce n s) (a : Label) (id : ℕ) :
    n id + inserts id s a ≤ 1 := by
  rcases inserts_eq_zero_or id s a with hzero | ⟨hone, k, x, job, r, offset, g, gs, rest, -, hproc, -, rfl⟩
  · rw [hzero]
    exact honce.le_one id
  · rw [hone, (inserting hs honce hproc).2.1]

theorem known_moved (hs : LiveOk s) (honce : LiveOnce n s) (h : Moved cfg s a s') {id : ℕ}
    (hid : n id + inserts id s a ≠ 0) : ∃ g ∈ s'.db.content.segments, g.id = id := by
  have hold : ∃ g ∈ s.db.content.segments, g.id = id := by
    rcases inserts_eq_zero_or id s a with
      hzero | ⟨-, k, x, job, r, offset, g, gs, rest, -, hproc, -, rfl⟩
    · rw [hzero] at hid
      exact honce.known id hid
    · rcases (inserting hs honce hproc).2.2.1 with ⟨g₀, hg₀, hid₀, -⟩
      exact ⟨g₀, hg₀, hid₀⟩
  rcases hold with ⟨g, hg, rfl⟩
  rcases segment_kept hs.staged h hg with ⟨g', hg', hid', -⟩
  exact ⟨g', hg', hid'⟩

theorem marked_moved (hs : LiveOk s) (honce : LiveOnce n s) (h : Moved cfg s a s') {g : Segment}
    (hg : g ∈ s'.db.content.segments) (hmarked : g.transcribedAt.isSome = true) :
    n g.id + inserts g.id s a = 1 := by
  have hle := le_one_moved hs honce a g.id
  have hold : n g.id = 1 := by
    rcases moved_segments hs.staged h with ⟨heq, -⟩ | ⟨-, -, r, seq, d, e, -, -, -, heq⟩ |
      ⟨-, k, job, r, id, offset, ms, rest, -, hproc, heq⟩
    · exact honce.marked g (heq ▸ hg) hmarked
    · rw [heq] at hg
      rcases mem_insertSegment hg with ⟨old, hold, hid, -, hat, -⟩ | rfl
      · rw [hid]
        exact honce.marked old hold (hat ▸ hmarked)
      · cases hmarked
    · rw [heq] at hg
      rcases mem_markTranscribed hg with ⟨old, hold, hid, -, ⟨rfl, -⟩ | ⟨hid', -⟩⟩
      · exact honce.marked g hold hmarked
      · rw [hid, hid']
        exact honce.markable k job r id offset ms rest hproc
  omega

/-- A pass about to mark does so or waits. -/
theorem mark_kept (hs : LiveOk s) (hok : MarksInserted cfg s a) (h : Moved cfg s a s') {id : ℕ}
    {offset ms : ℤ} {rest : List Stmt}
    (hproc : s.procs i = .stage job (.liveMark r id offset ms :: rest)) :
    s'.procs i = .stage job (.liveMark r id offset ms :: rest) ∨
      s'.db.content = s.db.content.markTranscribed s.db.now id offset ms := by
  have hjob := hs.staged.body i job _ hproc _ List.mem_cons_self
  have hk : job.kind = .transcribeSegment := (Option.some.inj hjob.2).symm
  rcases pass_kept h hproc hk with hkept | ⟨x, rfl⟩ | rfl | ⟨error, rfl⟩
  · exact .inl hkept
  · right
    rcases step_pass hs.phased h hproc hk hjob.1 with hnone | ⟨body, -, hpass⟩
    · cases hnone
    · generalize s'.db.content = c' at hpass
      cases hpass
      rfl
  · exact absurd hproc (hok job r id offset ms rest)
  · exact absurd hproc (hok job r id offset ms rest)

theorem pending_moved (hs : LiveOk s) (honce : LiveOnce n s) (hok : MarksInserted cfg s a)
    (h : Moved cfg s a s') {g : Segment} (hg : g ∈ s'.db.content.segments)
    (hnone : g.transcribedAt = none) (hn : n g.id + inserts g.id s a ≠ 0) :
    ∃ i job offset ms rest,
      s'.procs i = .stage job (.liveMark g.recordingId g.id offset ms :: rest) := by
  rcases inserts_eq_zero_or g.id s a with
    hzero | ⟨-, k, x, job, r, offset, g₀, gs, rest, rfl, hproc, hx, hid⟩
  · -- the segment was inserted before, and a process is about to mark it
    have hold : ∃ old ∈ s.db.content.segments, g.id = old.id ∧
        g.recordingId = old.recordingId ∧ old.transcribedAt = none := by
      rcases moved_segments hs.staged h with ⟨heq, -⟩ | ⟨-, -, r, seq, d, e, -, -, -, heq⟩ |
        ⟨-, k, job, r, id, offset, ms, rest, -, hproc, heq⟩
      · exact ⟨g, heq ▸ hg, rfl, rfl, hnone⟩
      · rw [heq] at hg
        rcases mem_insertSegment hg with ⟨old, hold, hid, hr, hat, -⟩ | rfl
        · exact ⟨old, hold, hid, hr, hat ▸ hnone⟩
        · rw [hzero] at hn
          rcases honce.known _ hn with ⟨g', hg', hid'⟩
          have hlt := hs.segmented.id_lt g' hg'
          rw [hid'] at hlt
          exact absurd hlt (Nat.lt_irrefl _)
      · rw [heq] at hg
        rcases mem_markTranscribed hg with ⟨old, hold, hid, hr, ⟨rfl, -⟩ | ⟨-, hat, -⟩⟩
        · exact ⟨g, hold, rfl, rfl, hnone⟩
        · rw [hnone] at hat
          cases hat
    rcases hold with ⟨old, hmem, hid, hr, hnone'⟩
    rw [hzero, hid] at hn
    rcases honce.pending old hmem hnone' hn with ⟨i, job, offset, ms, rest, hproc⟩
    rw [hid, hr]
    rcases mark_kept hs hok h hproc with hkept | heq
    · exact ⟨i, job, offset, ms, rest, hkept⟩
    · rw [heq] at hg
      rcases mem_markTranscribed hg with ⟨old', -, hid', -, ⟨rfl, hne⟩ | ⟨-, hat, -⟩⟩
      · exact absurd hid hne
      · rw [hnone] at hat
        cases hat
  · have hjob := hs.staged.body k job _ hproc _ List.mem_cons_self
    have hk : job.kind = .transcribeSegment := (Option.some.inj hjob.2).symm
    have hr : g.recordingId = r := by
      rcases (inserting hs honce hproc).2.2.1 with ⟨old, hold, hid', hr', -⟩
      rcases segment_kept hs.staged h hold with ⟨g', hg', hid₁, hr₁⟩
      have hseg := segmented_moved hs.staged hs.segmented h
      rw [hseg.eq_of_id hg hg' (hid.symm.trans (hid₁.trans hid').symm), hr₁, hr']
    rcases step_pass hs.phased h hproc hk hjob.1 with hexec | ⟨body, hproc', hpass⟩
    · simp [Stmt.exec, hx] at hexec
    · generalize s'.db.content = c' at hpass
      cases hpass with
      | missing _ _ _ hx' => cases hx.symm.trans hx'
      | insert =>
        rw [hr, ← hid]
        exact ⟨k, job, _, _, _, hproc'⟩

theorem markable_moved (hs : LiveOk s) (hst' : Staged s') (honce : LiveOnce n s)
    (h : Moved cfg s a s') {id : ℕ} {offset ms : ℤ} {rest : List Stmt}
    (hproc : s'.procs i = .stage job (.liveMark r id offset ms :: rest)) :
    n id + inserts id s a = 1 := by
  have hjob := hst'.body i job _ hproc _ List.mem_cons_self
  have hk : job.kind = .transcribeSegment := (Option.some.inj hjob.2).symm
  have hle := le_one_moved hs honce a id
  rcases moved_pass hs.phased h hproc hk hjob.1 with ⟨hold, -⟩ | ⟨hbody, -⟩ | ⟨x, old, rfl, hold, hpass⟩
  · have hmark := honce.markable i job r id offset ms rest hold
    omega
  · cases hbody
  · generalize s'.db.content = c' at hpass
    cases hpass with
    | insert _ g gs hx =>
      rw [(inserting hs honce hold).2.1]
      simp [inserts, hold, hx]

/-- The words of a listed segment are inserted by the pass that listed it. -/
theorem inserts_own (hs : LiveOk s) (honce : LiveOnce n s) {id : ℕ} (hpass : Passing s r i)
    (hun : Untranscribed s r id) (hstep : ∀ x, a ≠ .step i x) : inserts id s a = 0 := by
  rcases inserts_eq_zero_or id s a with
    hzero | ⟨-, k, x, job, r', offset, g, gs, rest, rfl, hproc, -, rfl⟩
  · exact hzero
  · have hins := inserting hs honce hproc
    obtain rfl : r = r' := untranscribed_unique hs hun hins.2.2.1
    rw [hs.alone r i k hpass hins.1] at hstep
    exact absurd rfl (hstep x)

/-- Nothing that is still untranscribed when a pass lists it has been inserted before. -/
theorem listing (hs : LiveOk s) (honce : LiveOnce n s)
    (hproc : s.procs i = .stage job [.liveList r]) {g : Segment}
    (hg : g ∈ s.db.content.untranscribed r) : n g.id = 0 := by
  by_contra hn
  have hmem := mem_untranscribed.mp hg
  rcases honce.pending g hmem.1 hmem.2.2 hn with ⟨k, job', offset, ms, rest, hproc'⟩
  rw [hmem.2.1] at hproc'
  have hlist : Passing s r i := ⟨job, _, hproc, _, List.mem_cons_self, rfl⟩
  have hmark : Passing s r k := ⟨job', _, hproc', _, List.mem_cons_self, rfl⟩
  rw [hs.alone r i k hlist hmark, hproc'] at hproc
  cases hproc

theorem aheadOnce_moved (hs : LiveOk s) (honce : LiveOnce n s)
    (h : Moved cfg s a s') {body : List Stmt} (hproc : s'.procs i = .stage job body)
    (hk : job.kind = .transcribeSegment) (hr : job.recordingId = some r) {st : Stmt}
    (hst : st ∈ body) {g : Segment} (hg : g ∈ Stmt.ahead st) : n g.id + inserts g.id s a = 0 := by
  rcases moved_pass hs.phased h hproc hk hr with ⟨hold, hstep⟩ | ⟨rfl, -⟩ | ⟨x, old, rfl, hold, hpass⟩
  · have hun := (hs.listed.ahead i job body r hold hk hr st hst).2 g hg
    have hpass := passing_of_ahead hs.staged hold hr hst hg
    rw [honce.ahead i job body r hold hk hr st hst g hg, inserts_own hs honce hpass hun hstep]
  · rw [List.mem_singleton.mp hst] at hg
    cases hg
  · -- what was listed before the step
    have hzero := honce.ahead i job old r hold hk hr
    generalize s'.db.content = c' at hpass
    cases hpass with
    | leave | none | finish => cases hst
    | enter =>
      rw [List.mem_singleton.mp hst] at hg
      cases hg
    | some =>
      rw [List.mem_singleton.mp hst] at hg
      rw [listing hs honce hold hg]
      simp [inserts, hold]
    | offset segments =>
      rw [List.mem_singleton.mp hst] at hg
      rw [hzero _ List.mem_cons_self g hg]
      simp [inserts, hold]
    | missing offset g₀ gs hx =>
      rw [List.mem_singleton.mp hst] at hg
      rw [hzero _ List.mem_cons_self g (List.mem_cons_of_mem _ hg)]
      simp [inserts, hold, hx]
    | insert offset g₀ gs hx =>
      simp only [List.mem_cons, List.not_mem_nil, or_false] at hst
      rcases hst with rfl | rfl
      · cases hg
      · have hne : g₀.id ≠ g.id := by
          intro heq
          exact (inserting hs honce hold).2.2.2 (List.mem_map.mpr ⟨g, hg, heq.symm⟩)
        rw [hzero _ List.mem_cons_self g (List.mem_cons_of_mem _ hg)]
        simp [inserts, hold, hne]
    | mark id offset ms gs =>
      rw [List.mem_singleton.mp hst] at hg
      rw [hzero _ (List.mem_cons_of_mem _ List.mem_cons_self) g hg]
      simp [inserts, hold]

theorem liveOnce_start : LiveOnce (fun _ => 0) Sys.start where
  known _ h := absurd rfl h
  le_one _ := Nat.zero_le _
  marked _ h := nomatch h
  pending _ h := nomatch h
  ahead _ _ _ _ h := nomatch h
  markable _ _ _ _ _ _ _ h := nomatch h

theorem liveOnce_moved (hs : LiveOk s) (honce : LiveOnce n s) (hok : MarksInserted cfg s a)
    (h : Moved cfg s a s') : LiveOnce (fun id => n id + inserts id s a) s' where
  known _ := known_moved hs honce h
  le_one := le_one_moved hs honce a
  marked _ := marked_moved hs honce h
  pending _ := pending_moved hs honce hok h
  ahead _ _ _ _ hproc hk hr _ hst _ := aheadOnce_moved hs honce h hproc hk hr hst
  markable _ _ _ _ _ _ _ := markable_moved hs (staged_moved hs.staged h) honce h

/-- In every run in which no pass is cut short between an insert and its mark, the words of
each segment are inserted at most once, and those of a marked segment have been. -/
theorem inserted_once {tr : List Label} (h : Run (step cfg) (MarksInserted cfg) Sys.start tr s) :
    (∀ id, tally (step cfg) (inserts id) Sys.start tr ≤ 1) ∧
    ∀ g ∈ s.db.content.segments, g.transcribedAt.isSome = true →
      tally (step cfg) (inserts g.id) Sys.start tr = 1 := by
  have hinv : LiveOk s ∧ LiveOnce (fun id => tally (step cfg) (inserts id) Sys.start tr) s := by
    apply h.history (I := fun tr s => LiveOk s ∧
      LiveOnce (fun id => tally (step cfg) (inserts id) Sys.start tr) s)
    · exact ⟨liveOk_start, liveOnce_start⟩
    · intro tr s a s' hrun hs hok hstep
      have hmove := step_moved hstep
      refine ⟨liveOk_moved hs.1 hok.reapsDead hmove, ?_⟩
      simp only [hrun.tally_snoc hstep]
      exact liveOnce_moved hs.1 hs.2 hok hmove
  exact ⟨hinv.2.le_one, hinv.2.marked⟩

/-- A segment of recording 7 is uploaded and a live pass of it (process 2) goes as far as
the insert. -/
def toDecode : List Label :=
  [Label.request 0 (.create 7)] ++ steps 0 1 ++ [Label.request 1 (.putSegment 7 0 none none)] ++ steps 1 4 ++
    [Label.claim 2 1 [.transcribeSegment] 1] ++ steps 2 3

def decodes (i : ℕ) : List Label :=
  [.step i { utterances := [⟨none, 0, 900, "hi", []⟩], durationMs := 900 }]

/-- The reaper takes back the job of process 2, and process 4 goes as far. -/
def onceMore : List Label :=
  [Label.stop 2, .tick 45000001, .reaper 3] ++ steps 3 1 ++
    [Label.claim 4 2 [.transcribeSegment] 1] ++ steps 4 3

/-- The worker dies before the mark; its job is reaped and run again. -/
def twiceRun : List Label := toDecode ++ decodes 2 ++ onceMore ++ decodes 4

theorem not_inserted_once :
    ¬ ∀ (tr : List Label) (s : Sys), Run (step {}) anyStep Sys.start tr s →
      (∀ id, tally (step {}) (inserts id) Sys.start tr ≤ 1) ∧
      ∀ g ∈ s.db.content.segments, g.transcribedAt.isSome = true →
        tally (step {}) (inserts g.id) Sys.start tr = 1 := by
  intro h
  have htwice : tally (step {}) (inserts 1) Sys.start twiceRun = 2 := by decide +kernel
  have honce := (h twiceRun _ (run_of_isSome (by decide +kernel))).1 1
  omega

/-- A test that lets no pass of the first `n` processes stop or fail before a mark, nor a reap take
anything back from them. -/
def onward (n : ℕ) (s : Sys) : Label → Bool
  | .stop i | .stageErr i _ => match s.procs i with
    | .stage _ (.liveMark _ _ _ _ :: _) => false
    | _ => true
  | a => reapsStopped n s a

theorem marksInserted_of_onward {n : ℕ} (hs : s.Within n) (h : onward n s a = true) :
    MarksInserted {} s a := by
  cases a with
  | stop i | stageErr i _ =>
    intro job r id offset ms body hproc
    simp [onward, hproc] at h
  | step i x =>
    have hreap : reapsStopped n s (.step i x) = true := h
    exact reapsDead_of_reapsStopped hs hreap
  | _ => trivial

/-- The worker dies before it has decoded anything; its job is reaped and run to its end. -/
def markedRun : List Label := toDecode ++ onceMore ++ decodes 4 ++ steps 4 6

def markedState : Sys :=
  (exec (guarded (step {}) (amid 5 (onward 5))) Sys.start markedRun).get (by decide +kernel)

theorem inserted_once_markedState :
    (∃ g ∈ markedState.db.content.segments, g.transcribedAt.isSome = true) ∧
    tally (step {}) (inserts 1) Sys.start markedRun ≤ 1 ∧
    ∀ g ∈ markedState.db.content.segments, g.transcribedAt.isSome = true →
      tally (step {}) (inserts g.id) Sys.start markedRun = 1 := by
  have hrun : Run (step {}) (MarksInserted {}) Sys.start markedRun markedState :=
    run_of_amid (n := 5) _ fun _ _ => marksInserted_of_onward
  exact ⟨by decide +kernel, (inserted_once hrun).1 1, (inserted_once hrun).2⟩

end ScribeLocal.Server
