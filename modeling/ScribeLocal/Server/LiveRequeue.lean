import ScribeLocal.Server.LivePass

/-!
# The live self-requeue

After a live pass the worker counts what is still untranscribed and enqueues another
pass if anything is. A pass that finds every listed file missing succeeds without having
marked a segment, and is enqueued again for as long as the files stay missing.
-/
namespace ScribeLocal.Server
open Table Jobs Transition

variable {cfg : Config} {r : Uuid} {s s' : Sys} {a : Label} {x : Heard} {job : Job} {i : ℕ}
  {c : Cmd} {cs : List Cmd}

/-! ## What a pass has done -/

/-- The pass of process `i` finds the file of a segment it has listed. -/
def finds (i : ℕ) (s : Sys) : Label → Bool
  | .step k x => k == i && match s.procs k with
    | .stage _ (.liveInsert _ _ (_ :: _) :: _) => !x.missing
    | _ => false
  | _ => false

/-- The pass of process `i` marks a segment. -/
def marks (i : ℕ) (s : Sys) : Label → Bool
  | .step k _ => k == i && match s.procs k with
    | .stage _ (.liveMark _ _ _ _ :: _) => true
    | _ => false
  | _ => false

/-- The recording the step inserts a segment row for. -/
def addsSegment (s : Sys) : Label → Option Uuid
  | .step k _ => match s.procs k with
    | .todo (.content (.insertSegment r seq _ _) :: _) =>
      if s.db.content.segments.any fun g => g.recordingId == r && g.seq == seq then none else some r
    | _ => none
  | _ => none

/-- The command belongs to the end of a live pass of `r`. -/
def Cmd.inPass (r : Uuid) : Cmd → Bool
  | .completeJob job => job.kind == .transcribeSegment && job.recordingId == some r
  | .liveRequeue r' | .liveRequeueCount r' => r' == r
  | _ => false

/-- The process is in a live pass of `r`: from its claim to the count after it. -/
def Proc.inPass (r : Uuid) : Proc → Bool
  | .stage job _ => job.kind == .transcribeSegment && job.recordingId == some r
  | .todo cs => cs.any (Cmd.inPass r)
  | _ => false

/-- What is noted of the pass of each process: whether it has found a file, whether it has
marked a segment, and whether a segment row was inserted during it. -/
structure Ledger where
  found : ℕ → Bool
  marked : ℕ → Bool
  overtaken : ℕ → Bool

def Ledger.start : Ledger := ⟨fun _ => false, fun _ => false, fun _ => false⟩

def ledger (s : Sys) (a : Label) (l : Ledger) : Ledger where
  found i := l.found i || finds i s a
  marked i := l.marked i || marks i s a
  overtaken i := l.overtaken i || (addsSegment s a).any fun r => (s.procs i).inPass r

/-- A pass that has listed segments does not find all their files missing. -/
def FindsFile (p : Sys × Ledger) : Label → Prop
  | .step i _ => ∀ job r offset rest, p.1.procs i = .stage job (.liveInsert r offset [] :: rest) →
      p.2.found i = true
  | _ => True

variable {l : Ledger}

theorem finds_eq_true (h : finds i s a = true) : ∃ x job r offset g gs rest, a = .step i x ∧
    s.procs i = .stage job (.liveInsert r offset (g :: gs) :: rest) ∧ x.missing = false := by
  cases a with
  | step k x =>
    simp only [finds, Bool.and_eq_true, beq_iff_eq] at h
    rcases h with ⟨rfl, h⟩
    split at h
    · rename_i job r offset g gs rest hproc
      exact ⟨x, job, r, offset, g, gs, rest, rfl, hproc, by simpa using h⟩
    · cases h
  | _ => cases h

theorem marks_eq_true (h : marks i s a = true) : ∃ x job r id offset ms rest, a = .step i x ∧
    s.procs i = .stage job (.liveMark r id offset ms :: rest) := by
  cases a with
  | step k x =>
    simp only [marks, Bool.and_eq_true, beq_iff_eq] at h
    rcases h with ⟨rfl, h⟩
    split at h
    · rename_i job r id offset ms rest hproc
      exact ⟨x, job, r, id, offset, ms, rest, rfl, hproc⟩
    · cases h
  | _ => cases h

/-- Only a new row gives a recording an untranscribed segment it did not have. -/
theorem mem_untranscribed_moved (hst : Staged s) (h : Moved cfg s a s') {g : Segment}
    (hg : g ∈ s'.db.content.untranscribed r) (hno : addsSegment s a ≠ some r) :
    ∃ old ∈ s.db.content.untranscribed r, old.id = g.id := by
  have hmem := mem_untranscribed.mp hg
  rcases moved_segments hst h with ⟨heq, -⟩ | ⟨x, k, r', seq, d, e, rest, rfl, hproc, heq⟩ |
    ⟨x, k, job, r', id, offset, ms, rest, -, -, heq⟩
  · exact ⟨g, mem_untranscribed.mpr ⟨heq ▸ hmem.1, hmem.2⟩, rfl⟩
  · have hg' := hmem.1
    rw [heq] at hg'
    by_cases hkey : (s.db.content.segments.any fun g => g.recordingId == r' && g.seq == seq) = true
    · rw [Content.insertSegment, if_pos hkey] at hg'
      rcases mem_updateWhere.mp hg' with ⟨old, hold, hupd⟩
      refine ⟨old, mem_untranscribed.mpr ⟨hold, ?_, ?_⟩, ?_⟩
      · rw [← hmem.2.1, ← hupd]
        unfold updateRow
        split <;> rfl
      · rw [← hmem.2.2, ← hupd]
        unfold updateRow
        split <;> rfl
      · rw [← hupd]
        unfold updateRow
        split <;> rfl
    · rw [Content.insertSegment, if_neg hkey] at hg'
      rcases List.mem_append.mp hg' with hold | hnew
      · exact ⟨g, mem_untranscribed.mpr ⟨hold, hmem.2⟩, rfl⟩
      · have hr : r' = r := by
          rw [List.mem_singleton.mp hnew] at hmem
          exact hmem.2.1
        apply absurd _ hno
        simp only [addsSegment, hproc]
        rw [if_neg hkey, hr]
  · have hg' := hmem.1
    rw [heq] at hg'
    rcases mem_markTranscribed hg' with ⟨old, hold, -, -, ⟨rfl, -⟩ | ⟨-, hat, -⟩⟩
    · exact ⟨g, mem_untranscribed.mpr ⟨hold, hmem.2⟩, rfl⟩
    · rw [hmem.2.2] at hat
      cases hat

theorem untranscribed_nil_moved (hst : Staged s) (h : Moved cfg s a s')
    (hnil : s.db.content.untranscribed r = []) (hno : addsSegment s a ≠ some r) :
    s'.db.content.untranscribed r = [] := by
  apply List.eq_nil_iff_forall_not_mem.mpr
  intro g hg
  rcases mem_untranscribed_moved hst h hg hno with ⟨old, hold, -⟩
  rw [hnil] at hold
  cases hold

/-! ## Why a pass may be followed by another -/

/-- The pass of process `i` has marked a segment or was overtaken, or has left nothing. -/
def Excused (l : Ledger) (s : Sys) (i : ℕ) (r : Uuid) : Prop :=
  l.marked i = true ∨ l.overtaken i = true ∨ s.db.content.untranscribed r = []

/-- The pass of process `i` is over and the count after it still to come. -/
def Ended (s : Sys) (i : ℕ) (r : Uuid) : Prop :=
  (∃ job, job.kind = .transcribeSegment ∧ job.recordingId = some r ∧
    (s.procs i = .stage job [] ∨ ∃ cs, s.procs i = .todo cs ∧ .completeJob job ∈ cs)) ∨
  ∃ cs, s.procs i = .todo cs ∧ .liveRequeue r ∈ cs

structure Tracked (l : Ledger) (s : Sys) : Prop where
  idle : ∀ i, s.procs i = .idle → l.found i = false ∧ l.marked i = false
  found : ∀ i job body, s.procs i = .stage job body → l.found i = true →
    l.marked i = true ∨ ∃ r id offset ms rest, body = .liveMark r id offset ms :: rest
  ended : ∀ i r, Ended s i r → Excused l s i r ∨ Closed s r
  counted : ∀ i r cs, s.procs i = .todo cs → .liveRequeueCount r ∈ cs → Excused l s i r

theorem inPass_of_ended (h : Ended s i r) : (s.procs i).inPass r = true := by
  rcases h with ⟨job, hk, hr, hproc | ⟨cs, hproc, hmem⟩⟩ | ⟨cs, hproc, hmem⟩
  · simp [hproc, Proc.inPass, hk, hr]
  · rw [hproc]
    exact List.any_eq_true.mpr ⟨_, hmem, by simp [Cmd.inPass, hk, hr]⟩
  · rw [hproc]
    exact List.any_eq_true.mpr ⟨_, hmem, by simp [Cmd.inPass]⟩

theorem excused_kept (hst : Staged s) (h : Moved cfg s a s') (hpass : (s.procs i).inPass r = true)
    (hex : Excused l s i r) : Excused (ledger s a l) s' i r := by
  rcases hex with hmarked | hovertaken | hnil
  · exact .inl (by simp [ledger, hmarked])
  · exact .inr (.inl (by simp [ledger, hovertaken]))
  · by_cases hadd : addsSegment s a = some r
    · exact .inr (.inl (by simp [ledger, hadd, hpass]))
    · exact .inr (.inr (untranscribed_nil_moved hst h hnil hadd))

/-- Where a command on a process's list comes from. -/
theorem moved_mem_todo (h : Moved cfg s a s') {c' : Cmd} (hproc : s'.procs i = .todo cs)
    (hc : c' ∈ cs) :
    (∃ cs₀, s.procs i = .todo cs₀ ∧ c' ∈ cs₀) ∨
    (∃ x c rest, a = .step i x ∧ s.procs i = .todo (c :: rest) ∧ Follows cfg s.db c c') ∨
    (∃ job, s.procs i = .stage job [] ∧ c' = .completeJob job) ∨
    (∃ q : Request, c' = q.first) ∨ c' = .reapStuck ∨ (∃ job error, c' = .failSelect job error) ∨
      ∃ job delay, c' = .deferJob job delay := by
  have hfrom := moved_todo_told (P := fun i c' =>
    (∃ cs₀, s.procs i = .todo cs₀ ∧ c' ∈ cs₀) ∨
    (∃ x c rest, a = .step i x ∧ s.procs i = .todo (c :: rest) ∧ Follows cfg s.db c c') ∨
    (∃ job, s.procs i = .stage job [] ∧ c' = .completeJob job) ∨
    (∃ q : Request, c' = q.first) ∨ c' = .reapStuck ∨ (∃ job error, c' = .failSelect job error) ∨
      ∃ job delay, c' = .deferJob job delay) h
  apply hfrom _ _ _ _ _ _ _ i cs hproc c' hc
  · exact fun i cs hproc c hc => .inl ⟨cs, hproc, hc⟩
  · exact fun i x c rest c' ha hproc hfollow => .inr (.inl ⟨x, c, rest, ha, hproc, hfollow⟩)
  · exact fun i q _ => .inr (.inr (.inr (.inl ⟨q, rfl⟩)))
  · exact fun i => .inr (.inr (.inr (.inr (.inl rfl))))
  · exact fun i job hstage => .inr (.inr (.inl ⟨job, hstage, rfl⟩))
  · exact fun i job body error _ _ =>
      .inr (.inr (.inr (.inr (.inr (.inl ⟨job, error, rfl⟩)))))
  · exact fun i job body delay _ _ => .inr (.inr (.inr (.inr (.inr (.inr ⟨job, delay, rfl⟩)))))

theorem idle_of_moved (h : Moved cfg s a s') (hidle : s'.procs i = .idle) :
    s.procs i = .idle ∧ finds i s a = false ∧ marks i s a = false := by
  have hold : s.procs i = .idle := by
    by_cases hi : a.proc = some i
    · cases h with
      | tick => cases hi
      | heartbeat => exact hidle
      | @stop k =>
        cases hi
        rw [Sys.setProc_self] at hidle
        cases hproc : s.procs i <;> rw [hproc] at hidle <;> first | rfl | cases hidle
      | cmd =>
        cases hi
        rw [Sys.setProc_self] at hidle
        generalize (Cmd.exec cfg _ s.db _).2 = flow at hidle
        cases flow <;> cases hidle
      | _ =>
        cases hi
        rw [Sys.setProc_self] at hidle
        cases hidle
    · rwa [moved_procs_of_ne h hi] at hidle
  refine ⟨hold, ?_, ?_⟩
  · cases hf : finds i s a with
    | false => rfl
    | true =>
      rcases finds_eq_true hf with ⟨_, _, _, _, _, _, _, _, hproc, _⟩
      cases hold.symm.trans hproc
  · cases hm : marks i s a with
    | false => rfl
    | true =>
      rcases marks_eq_true hm with ⟨_, _, _, _, _, _, _, _, hproc⟩
      cases hold.symm.trans hproc

theorem found_moved (ht : Tracked l s) (h : Moved cfg s a s') {body : List Stmt}
    (hproc : s'.procs i = .stage job body) (hfound : (ledger s a l).found i = true) :
    (ledger s a l).marked i = true ∨
      ∃ r id offset ms rest, body = .liveMark r id offset ms :: rest := by
  have hold (hf : l.found i = true) {old : List Stmt} (hproc : s.procs i = .stage job old) :
      (ledger s a l).marked i = true ∨
        ∃ r id offset ms rest, old = .liveMark r id offset ms :: rest := by
    rcases ht.found i job old hproc hf with hmarked | hmark
    · exact .inl (by simp [ledger, hmarked])
    · exact .inr hmark
  rcases moved_stage h hproc with ⟨hsame, hstep⟩ | ⟨-, w, kinds, id, t, rfl, -⟩ |
    ⟨x, st, rest, c, sts, rfl, hstage, hexec, rfl, -⟩
  · have hno : finds i s a = false := by
      cases hf : finds i s a with
      | false => rfl
      | true =>
        rcases finds_eq_true hf with ⟨x, -, -, -, -, -, -, ha, -⟩
        exact absurd ha (hstep x)
    exact hold (by simpa [ledger, hno] using hfound) hsame
  · have hidle : s.procs i = .idle := by
      cases h with
      | claim hidle => exact hidle
    have hnone := (ht.idle i hidle).1
    simp [ledger, hnone, finds] at hfound
  · by_cases hf : l.found i = true
    · rcases hold hf hstage with hmarked | ⟨r, id, offset, ms, rest', heq⟩
      · exact .inl hmarked
      · left
        rw [List.cons.inj heq |>.1] at hstage
        simp [ledger, marks, hstage]
    · have hnow : finds i s (.step i x) = true := by simpa [ledger, hf] using hfound
      rcases finds_eq_true hnow with ⟨x', job', r, offset, g, gs, rest', ha, hproc', hx⟩
      cases ha
      cases hstage.symm.trans hproc'
      simp only [Stmt.exec, hx, Bool.false_eq_true, if_false, Option.some.injEq,
        Prod.mk.injEq] at hexec
      right
      rw [← hexec.2]
      exact ⟨_, _, _, _, _, rfl⟩

theorem passEnded_moved (hst : Staged s) (hphased : Phased s) (ht : Tracked l s)
    (hok : FindsFile (s, l) a) (h : Moved cfg s a s') (hended : Ended s' i r) :
    Excused (ledger s a l) s' i r ∨ Closed s' r := by
  have hkept (hold : Ended s i r) : Excused (ledger s a l) s' i r ∨ Closed s' r :=
    (ht.ended i r hold).imp (excused_kept hst h (inPass_of_ended hold)) (closed_moved h)
  rcases hended with ⟨job, hk, hr, hproc | ⟨cs, hproc, hmem⟩⟩ | ⟨cs, hproc, hmem⟩
  · rcases moved_pass hphased h hproc hk hr with
      ⟨hold, -⟩ | ⟨hbody, -⟩ | ⟨x, old, rfl, hold, hpass⟩
    · exact hkept (.inl ⟨job, hk, hr, .inl hold⟩)
    · cases hbody
    · generalize hc : s'.db.content = c' at hpass
      cases hpass with
      | leave hst' hno =>
        right
        have hclosed : Closed s r := ⟨by simp [hst'], by simpa [hst'] using hno⟩
        exact closed_moved h hclosed
      | none hnil =>
        left
        exact .inr (.inr (hc ▸ hnil))
      | finish offset =>
        left
        have hfound : l.found i = true := hok job r offset [] hold
        rcases ht.found i job _ hold hfound with hmarked | ⟨_, _, _, _, _, heq⟩
        · exact .inl (by simp [ledger, hmarked])
        · cases heq
  · rcases moved_mem_todo h hproc hmem with ⟨cs₀, hold, hmem'⟩ | ⟨x, c, rest, -, -, hfollow⟩ |
      ⟨job', hstage, heq⟩ | ⟨q, heq⟩ | heq | ⟨_, _, heq⟩ | ⟨_, _, heq⟩
    · exact hkept (.inl ⟨job, hk, hr, .inr ⟨cs₀, hold, hmem'⟩⟩)
    · cases hfollow
    · cases heq
      exact hkept (.inl ⟨job, hk, hr, .inl hstage⟩)
    · cases q <;> cases heq
    all_goals cases heq
  · rcases moved_mem_todo h hproc hmem with ⟨cs₀, hold, hmem'⟩ | ⟨x, c, rest, -, hold, hfollow⟩ |
      ⟨job', hstage, heq⟩ | ⟨q, heq⟩ | heq | ⟨_, _, heq⟩ | ⟨_, _, heq⟩
    · exact hkept (.inr ⟨cs₀, hold, hmem'⟩)
    · cases hfollow with
      | drain hr hk => exact hkept (.inl ⟨_, hk, hr, .inr ⟨_, hold, List.mem_cons_self⟩⟩)
    · cases heq
    · cases q <;> cases heq
    all_goals cases heq

theorem recounted_moved (hst : Staged s) (ht : Tracked l s) (h : Moved cfg s a s')
    (hproc : s'.procs i = .todo cs) (hmem : .liveRequeueCount r ∈ cs) :
    Excused (ledger s a l) s' i r := by
  rcases moved_mem_todo h hproc hmem with ⟨cs₀, hold, hmem'⟩ | ⟨x, c, rest, -, hold, hfollow⟩ |
    ⟨job', hstage, heq⟩ | ⟨q, heq⟩ | heq | ⟨_, _, heq⟩ | ⟨_, _, heq⟩
  · apply excused_kept hst h _ (ht.counted i r cs₀ hold hmem')
    rw [hold]
    exact List.any_eq_true.mpr ⟨_, hmem', by simp [Cmd.inPass]⟩
  · cases hfollow with
    | recount hup =>
      have hended : Ended s i r := .inr ⟨_, hold, List.mem_cons_self⟩
      rcases ht.ended i r hended with hex | hclosed
      · exact excused_kept hst h (inPass_of_ended hended) hex
      · exact absurd hup hclosed.2
  · cases heq
  · cases q <;> cases heq
  all_goals cases heq

theorem tracked_start : Tracked Ledger.start Sys.start where
  idle _ _ := ⟨rfl, rfl⟩
  found _ _ _ h := nomatch h
  ended := by
    rintro i r (⟨job, -, -, hproc | ⟨cs, hproc, -⟩⟩ | ⟨cs, hproc, -⟩) <;> cases hproc
  counted _ _ _ h := nomatch h

theorem tracked_moved (hst : Staged s) (hphased : Phased s) (ht : Tracked l s)
    (hok : FindsFile (s, l) a) (h : Moved cfg s a s') : Tracked (ledger s a l) s' where
  idle i hidle := by
    rcases idle_of_moved h hidle with ⟨hold, hf, hm⟩
    have hnone := ht.idle i hold
    simp [ledger, hf, hm, hnone]
  found _ _ _ := found_moved ht h
  ended _ _ := passEnded_moved hst hphased ht hok h
  counted _ _ _ := recounted_moved hst ht h

/-! ## How much is left -/

theorem length_untranscribed_moved (hs : LiveOk s) (h : Moved cfg s a s')
    (hseg : Segmented s'.db.content) (hno : addsSegment s a ≠ some r) :
    (s'.db.content.untranscribed r).length ≤ (s.db.content.untranscribed r).length := by
  have hsub : (s'.db.content.untranscribed r).map Segment.id ⊆
      (s.db.content.untranscribed r).map Segment.id := by
    intro id hid
    rcases List.mem_map.mp hid with ⟨g, hg, rfl⟩
    rcases mem_untranscribed_moved hs.staged h hg hno with ⟨old, hold, heq⟩
    exact List.mem_map.mpr ⟨old, hold, heq⟩
  simpa using (List.subperm_of_subset (untranscribed_nodup hseg) hsub).length_le

/-- A mark leaves one segment less. -/
theorem length_untranscribed_mark (hs : LiveOk s) (h : Moved cfg s (.step i x) s')
    (hseg : Segmented s'.db.content) {id : ℕ} {offset ms : ℤ} {rest : List Stmt}
    (hproc : s.procs i = .stage job (.liveMark r id offset ms :: rest)) :
    (s'.db.content.untranscribed r).length < (s.db.content.untranscribed r).length := by
  have hjob := hs.staged.body i job _ hproc _ List.mem_cons_self
  have hk : job.kind = .transcribeSegment := (Option.some.inj hjob.2).symm
  have hcontent : s'.db.content = s.db.content.markTranscribed s.db.now id offset ms := by
    rcases step_pass hs.phased h hproc hk hjob.1 with hnone | ⟨body, -, hpass⟩
    · cases hnone
    · generalize s'.db.content = c' at hpass
      cases hpass
      rfl
  have hno : addsSegment s (.step i x) ≠ some r := by simp [addsSegment, hproc]
  have hgone : id ∉ (s'.db.content.untranscribed r).map Segment.id := by
    intro hid
    rcases List.mem_map.mp hid with ⟨g, hg, rfl⟩
    have hmem := mem_untranscribed.mp hg
    rw [hcontent] at hmem
    rcases mem_markTranscribed hmem.1 with ⟨old, -, hid', -, ⟨rfl, hne⟩ | ⟨-, hat, -⟩⟩
    · exact hne rfl
    · rw [hmem.2.2] at hat
      cases hat
  have hsub : id :: (s'.db.content.untranscribed r).map Segment.id ⊆
      (s.db.content.untranscribed r).map Segment.id := by
    intro id' hid
    rcases List.mem_cons.mp hid with rfl | hid
    · rcases (hs.listed.mark i job r id' offset ms rest hproc).1 with ⟨g, hg, hid, hr, hat⟩
      exact List.mem_map.mpr ⟨g, mem_untranscribed.mpr ⟨hg, hr, hat⟩, hid⟩
    · rcases List.mem_map.mp hid with ⟨g, hg, rfl⟩
      rcases mem_untranscribed_moved hs.staged h hg hno with ⟨old, hold, heq⟩
      exact List.mem_map.mpr ⟨old, hold, heq⟩
  have hnodup := List.nodup_cons.mpr ⟨hgone, untranscribed_nodup hseg⟩
  simpa using (List.subperm_of_subset hnodup hsub).length_le

/-! ## The bound -/

/-- The worker's own enqueue of a live pass of `r`, where it inserts a job. -/
def requeues (r : Uuid) (s : Sys) : Label → ℕ
  | .step i _ => match s.procs i with
    | .todo (.insertJob r' .transcribeSegment _ true :: _) =>
      if r' = r ∧ (s.db.status r).isSome = true ∧
        s.db.jobs.has r .transcribeSegment Job.isLive = false then 1 else 0
    | _ => 0
  | _ => 0

/-- No further segment is uploaded, no live pass is given up, and what the worker counted
still holds when it enqueues. -/
def Winding (cfg : Config) (r : Uuid) (s : Sys) (a : Label) : Prop :=
  addsSegment s a ≠ some r ∧
  (requeues r s a = 1 → s.db.status r = some .uploading ∧ s.db.content.untranscribed r ≠ []) ∧
  ∀ i x, a = .step i x →
    (∀ job error n rest, s.procs i = .todo (.failUpdate job error n :: rest) →
      job.recordingId = some r → job.kind = .transcribeSegment → n < cfg.maxAttempts) ∧
    (∀ rest, s.procs i = .todo (.reapStuck :: rest) → ∀ row ∈ s.db.jobs.rows,
      row.recordingId = some r → row.kind = .transcribeSegment →
      stuck s.db.now cfg.lease row = true → exhausted cfg.maxAttempts row = false)

/-- Of `most` segments that were left, `n` enqueues of the worker have each used one up, but
for the last: its job has still to mark a segment. -/
structure Wound (most n : ℕ) (r : Uuid) (l : Ledger) (s : Sys) : Prop where
  le : n ≤ most
  sum : n + (s.db.content.untranscribed r).length ≤ most + 1
  unpaid : n + (s.db.content.untranscribed r).length = most + 1 → Open s r →
    s.db.content.untranscribed r ≠ [] → Live s r .transcribeSegment ∧
      ∀ i job, Holds s i job → job.kind = .transcribeSegment → job.recordingId = some r →
        l.marked i = false ∧ s.procs i ≠ .stage job [] ∧
        ∀ rest, s.procs i ≠ .todo (.completeJob job :: rest)

theorem requeues_eq_zero_or (r : Uuid) (s : Sys) (a : Label) : requeues r s a = 0 ∨
    requeues r s a = 1 ∧ ∃ i x payload rest, a = .step i x ∧
      s.procs i = .todo (.insertJob r .transcribeSegment payload true :: rest) ∧
      (s.db.status r).isSome = true ∧ ¬ Live s r .transcribeSegment := by
  cases a with
  | step i x =>
    simp only [requeues]
    split
    · rename_i r' payload rest hproc
      split
      · rename_i hcond
        obtain ⟨rfl, hsome, hlive⟩ := hcond
        exact .inr ⟨rfl, i, x, payload, rest, rfl, hproc, hsome, by simp [Live, hlive]⟩
      · exact .inl rfl
    · exact .inl rfl
  | _ => exact .inl rfl

/-- While the recording uploads, who holds a live pass of it keeps its job live. -/
theorem live_of_holds (hs : LiveOk s) (hopen : Open s r) (hhold : Holds s i job)
    (hk : job.kind = .transcribeSegment) (hr : job.recordingId = some r) :
    Live s r .transcribeSegment := by
  rcases hs.present r hopen i job hhold hr with ⟨row, hrow⟩
  have hcols := hs.snapshot.columns i job row hhold hrow
  have hlease := hs.leased.held i job row hhold hrow
  exact has_iff.mpr ⟨row, (row_eq_some.mp hrow).1, ⟨hcols.2.trans hr, hcols.1.trans hk⟩,
    Job.isLive_of_running hlease.1⟩

variable {most n : ℕ}

/-- The worker's enqueue uses up one of what is left. -/
theorem wound_requeue (hs : LiveOk s) (hw : Wound most n r l s) (hok : Winding cfg r s (.step i x))
    (h : Moved cfg s (.step i x) s') (hseg : Segmented s'.db.content) {payload : Payload}
    {rest : List Cmd}
    (hproc : s.procs i = .todo (.insertJob r .transcribeSegment payload true :: rest))
    (hone : requeues r s (.step i x) = 1) (hlive : ¬ Live s r .transcribeSegment) :
    Wound most (n + 1) r (ledger s (.step i x) l) s' := by
  rcases hok.2.1 hone with ⟨hup, hne⟩
  have hle := length_untranscribed_moved hs h hseg hok.1
  have hpos : 0 < (s.db.content.untranscribed r).length := List.length_pos_iff.mpr hne
  -- the job of the enqueue before is gone, so it has been paid for
  have hpaid : n + (s.db.content.untranscribed r).length ≤ most := by
    have hsum := hw.sum
    by_contra hmore
    exact hlive (hw.unpaid (by omega) (.inr hup) hne).1
  refine ⟨by omega, by omega, fun _ _ _ => ⟨?_, ?_⟩⟩
  · obtain rfl := next_of_todo h hproc
    have hsome : (s.db.status r).isSome = true := by simp [hup]
    rcases exec_insertJob cfg x .transcribeSegment payload true hsome with ⟨cs, hexec⟩
    have hins : JobsFrame r s.db.jobs
        (s.db.jobs.insert s.db.now r .transcribeSegment payload 0).2 (fun _ => False) ∧ _ :=
      jobsFrame_insert
    rw [Live, Sys.setProc_db]
    simp only [hexec]
    exact hins.2
  · intro k job hhold hk hr
    rcases moved_job hs.snapshot h hhold with hold | ⟨_, _, _, ha, -⟩
    · exact absurd (live_of_holds hs (.inr hup) hold hk hr) hlive
    · cases ha

/-- Whoever holds a live pass has still to mark a segment, as long as nothing was marked. -/
theorem unpaid_holds (hs : LiveOk s) (ht : Tracked l s) (hfile : FindsFile (s, l) a)
    (h : Moved cfg s a s') (hopen : Open s r) (hne : s.db.content.untranscribed r ≠ [])
    (hnomark : ∀ x job id offset ms rest, a = .step i x →
      s.procs i ≠ .stage job (.liveMark r id offset ms :: rest))
    (hold : ∀ job, Holds s i job → job.kind = .transcribeSegment → job.recordingId = some r →
      l.marked i = false ∧ s.procs i ≠ .stage job [] ∧
      ∀ rest, s.procs i ≠ .todo (.completeJob job :: rest))
    (hhold : Holds s' i job) (hk : job.kind = .transcribeSegment)
    (hr : job.recordingId = some r) :
    (ledger s a l).marked i = false ∧ s'.procs i ≠ .stage job [] ∧
      ∀ rest, s'.procs i ≠ .todo (.completeJob job :: rest) := by
  rcases moved_job hs.snapshot h hhold with hheld | ⟨w, kinds, t, rfl, hclaim⟩
  · rcases hold job hheld hk hr with ⟨hmarked, hbody, hcomplete⟩
    refine ⟨?_, fun hproc => ?_, fun rest hproc => ?_⟩
    · cases hm : marks i s a with
      | false => simp [ledger, hmarked, hm]
      | true =>
        rcases marks_eq_true hm with ⟨x, job', r', id, offset, ms, rest, ha, hproc⟩
        have hsame : job' = job := by
          have hjob : (s.procs i).job? = some job := hheld
          rw [hproc] at hjob
          exact Option.some.inj hjob
        have hrec := (hs.staged.body i job' _ hproc _ List.mem_cons_self).1
        rw [hsame, hr] at hrec
        have hr' : r = r' := Option.some.inj hrec
        rw [← hr'] at hproc
        exact absurd hproc (hnomark x job' id offset ms rest ha)
    · rcases moved_pass hs.phased h hproc hk hr with
        ⟨hsame, -⟩ | ⟨hstart, -⟩ | ⟨x, old, rfl, hstage, hpass⟩
      · exact hbody hsame
      · cases hstart
      · generalize s'.db.content = c' at hpass
        cases hpass with
        | leave hst hno =>
          rcases hopen with hnone | hup
          · cases hst.symm.trans hnone
          · exact hno (Option.some.inj (hst.symm.trans hup))
        | none hnil => exact hne hnil
        | finish offset =>
          rcases ht.found i job _ hstage (hfile job r offset [] hstage) with
            hm | ⟨_, _, _, _, _, heq⟩
          · rw [hmarked] at hm
            cases hm
          · cases heq
    · rcases moved_complete hs.snapshot h hproc with hsame | ⟨x, -, hstage⟩
      · exact hcomplete rest hsame
      · exact hbody hstage
  · cases h with
    | claim hidle hone =>
      have hnone := (ht.idle i hidle).2
      refine ⟨by simp [ledger, hnone, marks], ?_, ?_⟩
      · rw [Sys.setProc_self]
        intro hproc
        rcases Proc.stage.inj hproc with ⟨rfl, hbody⟩
        simp [jobBody, hr, hk, stageBody] at hbody
      · rw [Sys.setProc_self]
        intro rest hproc
        cases hproc

/-- Any other step leaves the account as it is, or pays. -/
theorem wound_other (hs : LiveOk s) (ht : Tracked l s) (hw : Wound most n r l s)
    (hfile : FindsFile (s, l) a) (hok : Winding cfg r s a) (h : Moved cfg s a s')
    (hseg : Segmented s'.db.content) : Wound most n r (ledger s a l) s' := by
  have hle := length_untranscribed_moved hs h hseg hok.1
  refine ⟨hw.le, (Nat.add_le_add_left hle n).trans hw.sum, ?_⟩
  · intro hsum hopen' hne'
    have hopen := open_of_moved h hopen'
    have hsame : (s'.db.content.untranscribed r).length =
        (s.db.content.untranscribed r).length := by
      have hsum' := hw.sum
      omega
    have hne : s.db.content.untranscribed r ≠ [] := by
      intro hnil
      rw [hnil] at hsame
      exact hne' (List.eq_nil_of_length_eq_zero hsame)
    rcases hw.unpaid (by omega) hopen hne with ⟨hlive, hhold⟩
    constructor
    · rcases moved_live hs.snapshot h hlive with hkept | ⟨i, x, c, rest, rfl, hproc, hends⟩
      · exact hkept
      · rcases hok.2.2 i x rfl with ⟨hpark, hreap⟩
        cases hends with
        | @complete job hr hk =>
          have hheld : Holds s i job := by
            rw [Holds, hproc]
            rfl
          exact absurd hproc ((hhold i job hheld hk hr).2.2 rest)
        | park hr hk hn =>
          have hlt := hpark _ _ _ rest hproc hr hk
          omega
        | reap hrow hr hk hstuck hex =>
          have hno := hreap rest hproc _ hrow hr hk hstuck
          rw [hex] at hno
          cases hno
        | reset hreset =>
          obtain rfl := next_of_todo h hproc
          rcases reset_status cfg x s.db hreset with heq | hst
          · rw [Live, Sys.setProc_db]
            change (c.exec cfg x s.db).1.jobs.has r _ _ = true
            rwa [heq]
          · rcases hopen' with hopen' | hopen' <;> cases hst.symm.trans hopen'
    · intro i job hhold' hk hr
      apply unpaid_holds hs ht hfile h hopen hne _ (hhold i) hhold' hk hr
      rintro x job' id offset ms rest rfl hproc
      have hlt := length_untranscribed_mark hs h hseg hproc
      omega

theorem wound_moved (hs : LiveOk s) (ht : Tracked l s) (hw : Wound most n r l s)
    (hfile : FindsFile (s, l) a) (hok : Winding cfg r s a) (h : Moved cfg s a s')
    (hseg : Segmented s'.db.content) : Wound most (n + requeues r s a) r (ledger s a l) s' := by
  rcases requeues_eq_zero_or r s a with
    hzero | ⟨hone, i, x, payload, rest, rfl, hproc, -, hlive⟩
  · rw [hzero]
    exact wound_other hs ht hw hfile hok h hseg
  · rw [hone]
    exact wound_requeue hs hw hok h hseg hproc hone hlive

theorem wound_start : Wound (s.db.content.untranscribed r).length 0 r l s where
  le := Nat.zero_le _
  sum := by omega
  unpaid h := by omega

/-- In every run in which no pass finds all the files it has listed missing, a pass after
which the worker enqueues another one has marked a segment or was overtaken by one; and from
any state of it, with no further uploads, the worker's enqueues insert at most as many jobs
as segments were left. -/
theorem requeues_le {tr : List Label} {p : Sys × Ledger}
    (h : Run (withNotes (step cfg) ledger) (fun p a => FindsFile p a ∧ ReapsDead cfg p.1 a)
      (Sys.start, Ledger.start) tr p) :
    (∀ i r rest, p.1.procs i = .todo (.liveRequeueCount r :: rest) →
      p.1.db.content.untranscribed r ≠ [] → p.2.marked i = true ∨ p.2.overtaken i = true) ∧
    ∀ r tr' p', Run (withNotes (step cfg) ledger)
      (fun p a => (FindsFile p a ∧ ReapsDead cfg p.1 a) ∧ Winding cfg r p.1 a) p tr' p' →
      tally (withNotes (step cfg) ledger) (fun p => requeues r p.1) p tr' ≤
        (p.1.db.content.untranscribed r).length := by
  have hstep (p : Sys × Ledger) (a : Label) (p' : Sys × Ledger)
      (hp : LiveOk p.1 ∧ Tracked p.2 p.1) (hok : FindsFile p a ∧ ReapsDead cfg p.1 a)
      (hs : withNotes (step cfg) ledger p a = some p') : LiveOk p'.1 ∧ Tracked p'.2 p'.1 := by
    rcases withNotes_eq_some.mp hs with ⟨hstep, hnote⟩
    have hmove := step_moved hstep
    rw [hnote]
    exact ⟨liveOk_moved hp.1 hok.2 hmove,
      tracked_moved hp.1.staged hp.1.phased hp.2 hok.1 hmove⟩
  have hinv : LiveOk p.1 ∧ Tracked p.2 p.1 :=
    h.invariant (I := fun p => LiveOk p.1 ∧ Tracked p.2 p.1) ⟨liveOk_start, tracked_start⟩ hstep
  constructor
  · intro i r rest hproc hne
    rcases hinv.2.counted i r _ hproc List.mem_cons_self with hmarked | hovertaken | hnil
    · exact .inl hmarked
    · exact .inr hovertaken
    · exact absurd hnil hne
  · intro r tr' p' hrun
    have hwound : (LiveOk p'.1 ∧ Tracked p'.2 p'.1) ∧
        Wound (p.1.db.content.untranscribed r).length
          (tally (withNotes (step cfg) ledger) (fun p => requeues r p.1) p tr') r p'.2 p'.1 := by
      apply hrun.history (I := fun tr p' => (LiveOk p'.1 ∧ Tracked p'.2 p'.1) ∧
        Wound (p.1.db.content.untranscribed r).length
          (tally (withNotes (step cfg) ledger) (fun p => requeues r p.1) p tr) r p'.2 p'.1)
      · exact ⟨hinv, wound_start⟩
      · intro tr p₁ a p₂ hrun₁ hp hok hs
        have hnext := hstep p₁ a p₂ hp.1 hok.1 hs
        refine ⟨hnext, ?_⟩
        rcases withNotes_eq_some.mp hs with ⟨hone, hnote⟩
        rw [hrun₁.tally_snoc hs, hnote]
        exact wound_moved hp.1.1 hp.1.2 hp.2 hok.1.1 hok.2 (step_moved hone) hnext.1.segmented
    exact hwound.2.le

/-- A segment of recording 7 is uploaded; the live pass (process 2) finds its file missing. -/
def missingRun : List Label :=
  [Label.request 0 (.create 7)] ++ steps 0 1 ++ [Label.request 1 (.putSegment 7 0 none none)] ++ steps 1 4 ++
    [Label.claim 2 1 [.transcribeSegment] 1] ++ steps 2 3 ++ [Label.step 2 { missing := true }] ++ steps 2 4

def missingState : Sys × Ledger :=
  (exec (withNotes (step {}) ledger) (Sys.start, Ledger.start) missingRun).get (by decide +kernel)

theorem not_requeues_le :
    ¬ ∀ (tr : List Label) (p : Sys × Ledger),
      Run (withNotes (step {}) ledger) anyStep (Sys.start, Ledger.start) tr p →
      ∀ i r rest, p.1.procs i = .todo (.liveRequeueCount r :: rest) →
        p.1.db.content.untranscribed r ≠ [] → p.2.marked i = true ∨ p.2.overtaken i = true := by
  intro h
  have hstate : missingState.1.procs 2 = .todo [.liveRequeueCount 7] ∧
      missingState.1.db.content.untranscribed 7 ≠ [] ∧ missingState.2.marked 2 = false ∧
      missingState.2.overtaken 2 = false := by decide +kernel
  rcases h missingRun missingState (run_of_isSome _) 2 7 [] hstate.1 hstate.2.1 with hm | ho
  · rw [hstate.2.2.1] at hm
    cases hm
  · rw [hstate.2.2.2] at ho
    cases ho

/-- A test that lets a reap through only when it takes nothing back. -/
def reapsNothing (s : Sys) : Label → Bool
  | .step i _ => match s.procs i with
    | .todo (.reapStuck :: _) => s.db.jobs.rows.all fun j => !stuck s.db.now (Config.lease {}) j
    | _ => true
  | _ => true

theorem reapsDead_of_reapsNothing {a : Label} (h : reapsNothing s a = true) :
    ReapsDead {} s a := by
  cases a with
  | step i x =>
    intro rest hproc row hrow hstuck
    simp only [reapsNothing, hproc, List.all_eq_true, Bool.not_eq_true'] at h
    simp [h row hrow] at hstuck
  | _ => trivial

/-- A test that lets through runs in which a pass with segments has found one and nothing is
reaped. -/
def findsOne (p : Sys × Ledger) : Label → Bool
  | .step i x => reapsNothing p.1 (.step i x) && match p.1.procs i with
    | .stage _ (.liveInsert _ _ [] :: _) => p.2.found i
    | _ => true
  | _ => true

theorem findsFile_of_findsOne {p : Sys × Ledger} (h : findsOne p a = true) :
    FindsFile p a ∧ ReapsDead {} p.1 a := by
  cases a with
  | step i x =>
    simp only [findsOne, Bool.and_eq_true] at h
    refine ⟨?_, reapsDead_of_reapsNothing h.1⟩
    intro job r offset rest hproc
    simpa [hproc] using h.2
  | _ => trivial

/-- A test that lets through runs in which no segment row of `r` is added, what the worker
counted still holds when it enqueues, and no job is parked or reaped. -/
def windsDown (r : Uuid) (s : Sys) (a : Label) : Bool :=
  addsSegment s a != some r &&
    (s.db.status r == some .uploading && !(s.db.content.untranscribed r).isEmpty ||
      requeues r s a == 0) &&
    match a with
    | .step i _ => match s.procs i with
      | .todo (.failUpdate _ _ _ :: _) | .todo (.reapStuck :: _) => false
      | _ => true
    | _ => true

theorem winding_of_windsDown (h : windsDown r s a = true) : Winding {} r s a := by
  simp only [windsDown, Bool.and_eq_true, Bool.or_eq_true, bne_iff_ne, beq_iff_eq] at h
  rcases h with ⟨⟨hadd, hcount⟩, hquiet⟩
  refine ⟨hadd, fun hone => ?_, ?_⟩
  · rcases hcount with hcount | hzero
    · exact ⟨hcount.1, by simpa using hcount.2⟩
    · omega
  · rintro i x rfl
    constructor
    · intro job error n rest hproc
      simp [hproc] at hquiet
    · intro rest hproc
      simp [hproc] at hquiet

/-- A second segment is uploaded during the live pass, which finds the first one's file. -/
def overtakenRun : List Label :=
  [Label.request 0 (.create 7)] ++ steps 0 1 ++ [Label.request 1 (.putSegment 7 0 none none)] ++ steps 1 4 ++
    [Label.claim 2 1 [.transcribeSegment] 1] ++ steps 2 2 ++
    [Label.request 3 (.putSegment 7 1 none none)] ++ steps 3 5 ++ steps 2 7

def overtakenState : Sys × Ledger :=
  (exec (guarded (withNotes (step {}) ledger) findsOne) (Sys.start, Ledger.start)
    overtakenRun).get (by decide +kernel)

/-- The worker counts the second segment and enqueues another pass for it. -/
def requeuedState : Sys × Ledger :=
  (exec (guarded (withNotes (step {}) ledger) fun p a => findsOne p a && windsDown 7 p.1 a)
    overtakenState (steps 2 2)).get (by decide +kernel)

theorem requeues_le_overtakenState :
    (overtakenState.2.marked 2 = true ∨ overtakenState.2.overtaken 2 = true) ∧
    requeuedState.1.db.jobs.has 7 .transcribeSegment Job.isLive = true ∧
    tally (withNotes (step {}) ledger) (fun p => requeues 7 p.1) overtakenState (steps 2 2) ≤
      (overtakenState.1.db.content.untranscribed 7).length := by
  have hrun : Run (withNotes (step {}) ledger) (fun p a => FindsFile p a ∧ ReapsDead {} p.1 a)
      (Sys.start, Ledger.start) overtakenRun overtakenState :=
    run_of_guarded _ fun _ _ => findsFile_of_findsOne
  have hrun' : Run (withNotes (step {}) ledger)
      (fun p a => (FindsFile p a ∧ ReapsDead {} p.1 a) ∧ Winding {} 7 p.1 a)
      overtakenState (steps 2 2) requeuedState := by
    apply run_of_guarded
    intro p a h
    rcases Bool.and_eq_true_iff.mp h with ⟨hfinds, hwinds⟩
    exact ⟨findsFile_of_findsOne hfinds, winding_of_windsDown hwinds⟩
  have hstate : overtakenState.1.procs 2 = .todo [.liveRequeueCount 7] ∧
      overtakenState.1.db.content.untranscribed 7 ≠ [] ∧
      requeuedState.1.db.jobs.has 7 .transcribeSegment Job.isLive = true := by decide +kernel
  have hbound := requeues_le hrun
  exact ⟨hbound.1 2 7 [] hstate.1 hstate.2.1, hstate.2.2, hbound.2 7 (steps 2 2) _ hrun'⟩

end ScribeLocal.Server
