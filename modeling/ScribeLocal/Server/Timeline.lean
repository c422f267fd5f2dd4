import ScribeLocal.Server.LiveOnce

/-!
# The provisional timeline

A pass starts where the transcribed segments end, read from columns that an upload
writes too, and places one segment after another. As long as no upload lowers that
end and no offset wraps, no segment is ever placed on an earlier one.
-/
namespace ScribeLocal.Server
open MachineInt Table Jobs Transition

variable {cfg : Config} {r : Uuid} {s s' : Sys} {a : Label} {x : Heard} {job : Job} {i : ℕ}
  {c c' : Content}

/-- Where a pass has placed a segment, and the words it has placed there. -/
structure Span where
  recording : Uuid
  id : ℕ
  start : ℤ
  ms : ℕ
  words : List NewUtterance

def Span.stop (p : Span) : ℤ := p.start + p.ms

/-- The words of the span lie within its segment. -/
def Span.Inside (p : Span) : Prop := ∀ u ∈ p.words, p.start ≤ u.startMs ∧ u.endMs ≤ p.stop

/-- The span the step adds to a timeline. -/
def spanOf (s : Sys) : Label → List Span
  | .step i x => match s.procs i with
    | .stage _ (.liveInsert r offset (g :: _) :: _) =>
      if x.missing then [] else [⟨r, g.id, offset, x.durationMs, x.utterances⟩]
    | _ => []
  | _ => []

/-- Every span so far, in order. -/
def placed (s : Sys) (a : Label) (b : List Span) : List Span := b ++ spanOf s a

/-- Where the last of the transcribed segments ends. -/
def lastEnd (c : Content) (r : Uuid) : ℤ := (c.transcribedEnds r).max?.getD 0

/-- An upload that replaces the times of a segment does not lower the end of the
transcribed ones. -/
def KeepsEnd (s : Sys) : Label → Prop
  | .step i _ => ∀ r seq d e rest, s.procs i = .todo (.content (.insertSegment r seq d e) :: rest) →
      lastEnd s.db.content r ≤ lastEnd (s.db.content.insertSegment r seq d e) r
  | _ => True

/-- A pass that has segments left after the one it inserts does not wrap the offset. -/
def OffsetFits (s : Sys) : Label → Prop
  | .step i x => ∀ job r offset g gs rest,
      s.procs i = .stage job (.liveInsert r offset (g :: gs) :: rest) → x.missing = false →
        gs ≠ [] → FitsI64 (offset + x.durationMs)
  | _ => True

theorem spanOf_eq (s : Sys) (a : Label) : spanOf s a = [] ∨ ∃ k x job r offset g gs rest,
    a = .step k x ∧ s.procs k = .stage job (.liveInsert r offset (g :: gs) :: rest) ∧
      x.missing = false ∧ spanOf s a = [⟨r, g.id, offset, x.durationMs, x.utterances⟩] := by
  cases a with
  | step k x =>
    simp only [spanOf]
    split
    · rename_i job r offset g gs rest hproc
      cases hx : x.missing with
      | true => exact .inl rfl
      | false => exact .inr ⟨k, x, job, r, offset, g, gs, rest, rfl, hproc, hx, rfl⟩
    · exact .inl rfl
  | _ => exact .inl rfl

/-! ## Where the transcribed segments end -/

theorem le_lastEnd {g : Segment} (hg : g ∈ c.segments) (hr : g.recordingId = r)
    (hat : g.transcribedAt.isSome = true) :
    g.startMs.getD 0 + g.durationMs.getD 0 ≤ lastEnd c r := by
  have hmem : g.startMs.getD 0 + g.durationMs.getD 0 ∈ c.transcribedEnds r :=
    List.mem_map.mpr ⟨g, List.mem_filter.mpr ⟨hg, by simp [hr, hat]⟩, rfl⟩
  unfold lastEnd
  cases hmax : (c.transcribedEnds r).max? with
  | none =>
    rw [List.max?_eq_none_iff.mp hmax] at hmem
    cases hmem
  | some m => exact (List.max?_eq_some_iff.mp hmax).2 _ hmem

theorem lastEnd_congr
    (h : (c'.segments.filter fun g => g.recordingId == r && g.transcribedAt.isSome) =
      c.segments.filter fun g => g.recordingId == r && g.transcribedAt.isSome) :
    lastEnd c' r = lastEnd c r := by
  rw [lastEnd, Content.transcribedEnds, h]
  rfl

/-- What a pass reads, unless the query fails. -/
theorem getD_maxTranscribedEnd {last : Option ℤ} (h : c.maxTranscribedEnd r = some last) :
    last.getD 0 = lastEnd c r := by
  unfold Content.maxTranscribedEnd at h
  split at h
  · cases h
    rfl
  · cases h

/-- An upload leaves the timelines of other recordings alone. -/
theorem lastEnd_insertSegment {r' : Uuid} {seq : ℤ} {d e : Option ℤ} (hr : r' ≠ r) :
    lastEnd (c.insertSegment r' seq d e) r = lastEnd c r := by
  apply lastEnd_congr
  unfold Content.insertSegment
  split
  · apply filter_updateWhere_of_neg
    intro g _ hp
    have hrec : g.recordingId = r' := eq_of_beq (Bool.and_eq_true_iff.mp hp).1
    simp [hrec, hr]
  · rw [List.filter_append]
    simp

/-- A mark leaves the timelines of other recordings alone. -/
theorem lastEnd_markTranscribed (hs : LiveOk s) {r' : Uuid} {id : ℕ} {offset ms : ℤ}
    (hun : Untranscribed s r' id) (hr : r' ≠ r) :
    lastEnd (s.db.content.markTranscribed s.db.now id offset ms) r = lastEnd s.db.content r := by
  apply lastEnd_congr
  apply filter_updateWhere_of_neg
  intro g hg hp
  rcases hun with ⟨g', hg', hid, hr', -⟩
  have hrec : g.recordingId = r' := by
    rw [hs.segmented.eq_of_id hg hg' ((eq_of_beq hp).trans hid.symm), hr']
  simp [hrec, hr]

/-- A mark puts the end of its segment on the timeline. -/
theorem le_markTranscribed {id : ℕ} {offset ms : ℤ} (hun : Untranscribed s r id) : offset + ms ≤
    lastEnd (s.db.content.markTranscribed s.db.now id offset ms) r := by
  rcases hun with ⟨g, hg, hid, hr, -⟩
  have hmarked : ∃ g' ∈ (s.db.content.markTranscribed s.db.now id offset ms).segments,
      g'.id = g.id ∧ g'.recordingId = g.recordingId ∧
      (g' = g ∧ g.id ≠ id ∨ g.id = id ∧ g'.transcribedAt = some s.db.now ∧
        g'.startMs = some offset ∧ g'.durationMs = some ms) := mem_segments_markTranscribed hg
  rcases hmarked with ⟨g', hg', -, hr', ⟨-, hne⟩ | ⟨-, hat, hstart, hms⟩⟩
  · exact absurd hid hne
  · have hle := le_lastEnd (r := r) hg' (hr'.trans hr) (by simp [hat])
    simpa [hstart, hms] using hle

/-! ## One segment after another -/

/-- Where a statement of a pass takes the spans so far to end. -/
def edge : Stmt → Option ℤ
  | .liveInsert _ offset (_ :: _) => some offset
  | .liveMark _ _ offset ms => some (offset + ms)
  | _ => none

theorem pastCheck_of_edge {st : Stmt} {e : ℤ} (h : edge st = some e) :
    Stmt.pastCheck st.recording st := by
  unfold edge at h
  split at h
  · rfl
  · rfl
  · cases h

/-- The spans so far lie before everything that is still to be placed. -/
structure Timeline (b : List Span) (s : Sys) : Prop where
  ordered : b.Pairwise fun p q => p.recording = q.recording → p.stop ≤ q.start
  ended : ∀ p ∈ b, p.stop ≤ lastEnd s.db.content p.recording ∨
    ∃ i job rest, s.procs i = .stage job (.liveMark p.recording p.id p.start p.ms :: rest)
  beyond : ∀ i job body st e, s.procs i = .stage job body → st ∈ body → edge st = some e →
    ∀ p ∈ b, p.recording = st.recording → p.stop ≤ e

variable {b : List Span}

/-- A span that is on the timeline stays there. -/
theorem ended_kept (hs : LiveOk s) (ht : Timeline b s) (hok : KeepsEnd s a)
    (h : Moved cfg s a s') {p : Span} (hp : p ∈ b)
    (hend : p.stop ≤ lastEnd s.db.content p.recording) :
    p.stop ≤ lastEnd s'.db.content p.recording := by
  rcases moved_segments hs.staged h with ⟨heq, -⟩ | ⟨x, k, r, seq, d, e, rest, rfl, hproc, heq⟩ |
    ⟨x, k, job, r, id, offset, ms, rest, rfl, hproc, heq⟩
  · rwa [lastEnd_congr (c := s.db.content) (by rw [heq])]
  · rw [heq]
    by_cases hr : r = p.recording
    · rw [← hr] at hend ⊢
      exact hend.trans (hok r seq d e rest hproc)
    · rwa [lastEnd_insertSegment hr]
  · rw [heq]
    have hun := (hs.listed.mark k job r id offset ms rest hproc).1
    by_cases hr : r = p.recording
    · have hle := ht.beyond k job _ _ _ hproc List.mem_cons_self rfl p hp hr.symm
      rw [← hr]
      exact hle.trans (le_markTranscribed hun)
    · rwa [lastEnd_markTranscribed hs hun hr]

theorem ended_moved (hs : LiveOk s) (ht : Timeline b s)
    (hok : MarksInserted cfg s a) (hkeep : KeepsEnd s a) (h : Moved cfg s a s') {p : Span}
    (hp : p ∈ placed s a b) : p.stop ≤ lastEnd s'.db.content p.recording ∨
      ∃ i job rest, s'.procs i = .stage job (.liveMark p.recording p.id p.start p.ms :: rest) := by
  rcases List.mem_append.mp hp with hp | hp
  · rcases ht.ended p hp with hend | ⟨i, job, rest, hproc⟩
    · exact .inl (ended_kept hs ht hkeep h hp hend)
    · rcases mark_kept hs hok h hproc with hkept | heq
      · exact .inr ⟨i, job, rest, hkept⟩
      · left
        rw [heq]
        exact le_markTranscribed (hs.listed.mark i job _ _ _ _ rest hproc).1
  · rcases spanOf_eq s a with hnil | ⟨k, x, job, r, offset, g, gs, rest, rfl, hproc, hx, hspan⟩
    · rw [hnil] at hp
      cases hp
    · rw [hspan, List.mem_singleton] at hp
      subst hp
      have hjob := hs.staged.body k job _ hproc _ List.mem_cons_self
      rcases step_pass hs.phased h hproc (Option.some.inj hjob.2).symm hjob.1 with
        hexec | ⟨body, hproc', hpass⟩
      · simp [Stmt.exec, hx] at hexec
      · generalize s'.db.content = c' at hpass
        cases hpass with
        | missing _ _ _ hx' => cases hx.symm.trans hx'
        | insert => exact .inr ⟨k, job, _, hproc'⟩

/-- A pass that starts now starts after every span. -/
theorem start_beyond (hs : LiveOk s) (ht : Timeline b s) {gs : List Segment}
    (hproc : s.procs i = .stage job [.liveOffset r gs]) {p : Span} (hp : p ∈ b)
    (hr : p.recording = r) : p.stop ≤ lastEnd s.db.content r := by
  rcases ht.ended p hp with hend | ⟨k, job', rest, hproc'⟩
  · rwa [hr] at hend
  · rw [hr] at hproc'
    have hstart : Passing s r i := ⟨job, _, hproc, _, List.mem_cons_self, rfl⟩
    have hmark : Passing s r k := ⟨job', _, hproc', _, List.mem_cons_self, rfl⟩
    rw [hs.alone r i k hstart hmark, hproc'] at hproc
    cases hproc

theorem beyond_moved (hs : LiveOk s) (hst' : Staged s') (ht : Timeline b s) (hfits : OffsetFits s a)
    (h : Moved cfg s a s') {body : List Stmt} {st : Stmt} {e : ℤ}
    (hproc : s'.procs i = .stage job body) (hmem : st ∈ body) (he : edge st = some e) {p : Span}
    (hp : p ∈ placed s a b) (hrec : p.recording = st.recording) : p.stop ≤ e := by
  have hjob := hst'.body i job _ hproc _ hmem
  have hk : job.kind = .transcribeSegment := by
    have hstage := hjob.2
    rw [(pastCheck_stage (pastCheck_of_edge he)).2] at hstage
    exact (Option.some.inj hstage).symm
  obtain ⟨r, hr⟩ : ∃ r, st.recording = r := ⟨_, rfl⟩
  rw [hr] at hjob hrec
  rcases moved_pass hs.phased h hproc hk hjob.1 with
    ⟨hold, hstep⟩ | ⟨rfl, -⟩ | ⟨x, old, rfl, hold, hpass⟩
  · rcases List.mem_append.mp hp with hp | hp
    · exact ht.beyond i job body st e hold hmem he p hp (hrec.trans hr.symm)
    · rcases spanOf_eq s a with hnil | ⟨k, x, job', r', offset', g, gs', rest, rfl, hproc', -, hspan⟩
      · rw [hnil] at hp
        cases hp
      · rw [hspan, List.mem_singleton] at hp
        subst hp
        obtain rfl : r' = r := hrec
        have hpass : Passing s r' i := ⟨job, body, hold, st, hmem, hr ▸ pastCheck_of_edge he⟩
        have hins : Passing s r' k := ⟨job', _, hproc', _, List.mem_cons_self, rfl⟩
        rw [hs.alone r' i k hpass hins] at hstep
        exact absurd rfl (hstep x)
  · rw [List.mem_singleton.mp hmem] at he
    cases he
  · -- what was placed before, and nothing new
    have hbefore (hnil : spanOf s (.step i x) = []) : p ∈ b := by
      rcases List.mem_append.mp hp with hp | hp
      · exact hp
      · rw [hnil] at hp
        cases hp
    generalize s'.db.content = c' at hpass
    cases hpass with
    | leave | none | finish => cases hmem
    | enter | some =>
      rw [List.mem_singleton.mp hmem] at he
      cases he
    | offset segments hlast =>
      rw [List.mem_singleton.mp hmem] at he
      cases segments with
      | nil => cases he
      | cons g gs =>
        cases he
        rw [getD_maxTranscribedEnd hlast]
        exact start_beyond hs ht hold (hbefore (by simp [spanOf, hold])) hrec
    | missing offset' g gs' hx =>
      rw [List.mem_singleton.mp hmem] at he
      cases gs' with
      | nil => cases he
      | cons g' gs' =>
        cases he
        exact ht.beyond i job _ _ _ hold List.mem_cons_self rfl p
          (hbefore (by simp [spanOf, hold, hx])) hrec
    | insert offset' g gs' hx =>
      have hle : p.stop ≤ offset' + x.durationMs := by
        rcases List.mem_append.mp hp with hp | hp
        · have hle := ht.beyond i job _ _ _ hold List.mem_cons_self rfl p hp hrec
          omega
        · simp only [spanOf, hold, hx, Bool.false_eq_true, if_false, List.mem_singleton] at hp
          subst hp
          exact le_rfl
      simp only [List.mem_cons, List.not_mem_nil, or_false] at hmem
      rcases hmem with rfl | rfl
      · cases he
        exact hle
      · cases gs' with
        | nil => cases he
        | cons g' gs' =>
          cases he
          rw [(hfits job r offset' g _ _ hold hx (List.cons_ne_nil _ _)).i64_eq]
          exact hle
    | mark id offset' ms gs' =>
      rw [List.mem_singleton.mp hmem] at he
      exact ht.beyond i job _ _ e hold (List.mem_cons_of_mem _ List.mem_cons_self) he p
        (hbefore (by simp [spanOf, hold])) hrec

theorem ordered_moved (ht : Timeline b s) (a : Label) :
    (placed s a b).Pairwise fun p q => p.recording = q.recording → p.stop ≤ q.start := by
  rw [placed, List.pairwise_append]
  refine ⟨ht.ordered, ?_, ?_⟩
  · rcases spanOf_eq s a with hnil | ⟨k, x, job, r, offset, g, gs, rest, -, -, -, hspan⟩
    · rw [hnil]
      exact .nil
    · rw [hspan]
      exact List.pairwise_singleton _ _
  · intro p hp q hq hrec
    rcases spanOf_eq s a with hnil | ⟨k, x, job, r, offset, g, gs, rest, -, hproc, -, hspan⟩
    · rw [hnil] at hq
      cases hq
    · rw [hspan, List.mem_singleton] at hq
      subst hq
      exact ht.beyond k job _ _ _ hproc List.mem_cons_self rfl p hp hrec

theorem timeline_start : Timeline [] Sys.start where
  ordered := .nil
  ended _ h := nomatch h
  beyond _ _ _ _ _ h := nomatch h

theorem timeline_moved (hs : LiveOk s) (ht : Timeline b s)
    (hok : MarksInserted cfg s a) (hkeep : KeepsEnd s a) (hfits : OffsetFits s a)
    (h : Moved cfg s a s') : Timeline (placed s a b) s' where
  ordered := ordered_moved ht a
  ended _ := ended_moved hs ht hok hkeep h
  beyond _ _ _ _ _ hproc hmem he _ :=
    beyond_moved hs (staged_moved hs.staged h) ht hfits h hproc hmem he

/-- In every run in which no upload lowers the end of the transcribed segments, no offset wraps and
no pass is cut short between an insert and its mark, each segment is placed after all those placed
before it, and no utterance on top of an earlier one. -/
theorem placed_in_order {tr : List Label}
    (h : Run (step cfg) (fun s a => MarksInserted cfg s a ∧ KeepsEnd s a ∧ OffsetFits s a)
      Sys.start tr s) :
    (notes (step cfg) placed Sys.start [] tr).Pairwise fun p q => p.recording = q.recording →
      p.stop ≤ q.start ∧
      (p.Inside → q.Inside → ∀ u ∈ p.words, ∀ v ∈ q.words, u.endMs ≤ v.startMs) := by
  have hinv : LiveOk s ∧ Timeline (notes (step cfg) placed Sys.start [] tr) s := by
    apply h.noted (I := fun b s => LiveOk s ∧ Timeline b s)
    · exact ⟨liveOk_start, timeline_start⟩
    · rintro b s a s' ⟨hs, ht⟩ ⟨hok, hkeep, hfits⟩ hstep
      have hmove := step_moved hstep
      exact ⟨liveOk_moved hs hok.reapsDead hmove, timeline_moved hs ht hok hkeep hfits hmove⟩
  apply hinv.2.ordered.imp
  intro p q hle hrec
  refine ⟨hle hrec, fun hp hq u hu v hv => ?_⟩
  have hu' := (hp u hu).2
  have hv' := (hq v hv).1
  have hpq := hle hrec
  omega

/-- After its pass a client puts segment 0 of recording 7 again, without the timing headers,
and then segment 1. -/
def replacedRun : List Label :=
  toDecode ++ decodes 2 ++ steps 2 6 ++
    [Label.request 3 (.putSegment 7 0 none none)] ++ steps 3 4 ++
    [Label.request 4 (.putSegment 7 1 none none)] ++ steps 4 5 ++
    [Label.claim 5 1 [.transcribeSegment] 2] ++ steps 5 3 ++
    [Label.step 5 { utterances := [⟨none, 0, 700, "there", []⟩], durationMs := 700 }]

theorem not_placed_in_order :
    ¬ ∀ (tr : List Label) (s : Sys), Run (step {}) (MarksInserted {}) Sys.start tr s →
      (notes (step {}) placed Sys.start [] tr).Pairwise fun p q => p.recording = q.recording →
        p.stop ≤ q.start := by
  intro h
  have hspans : (notes (step {}) placed Sys.start [] replacedRun).map
      (fun p => (p.recording, p.start, p.stop)) = [(7, 0, 900), (7, 0, 700)] := by decide +kernel
  have hrun : Run (step {}) (MarksInserted {}) Sys.start replacedRun _ :=
    run_of_amid (n := 6) (b := onward 6) (by decide +kernel) fun _ _ => marksInserted_of_onward
  have hordered : ((notes (step {}) placed Sys.start [] replacedRun).map
      fun p => (p.recording, p.start, p.stop)).Pairwise
        fun p q => p.1 = q.1 → p.2.2 ≤ q.2.1 :=
    List.pairwise_map.mpr (h replacedRun _ hrun)
  rw [hspans] at hordered
  simp at hordered

/-- A test that also lets no upload lower the end of the transcribed segments, and no offset
wrap. -/
def onwardKeeping (n : ℕ) (s : Sys) (a : Label) : Bool :=
  onward n s a && match a with
    | .step i x => match s.procs i with
      | .todo (.content (.insertSegment r seq d e) :: _) =>
        decide (lastEnd s.db.content r ≤ lastEnd (s.db.content.insertSegment r seq d e) r)
      | .stage _ (.liveInsert _ offset (_ :: gs) :: _) =>
        x.missing || gs.isEmpty || decide (FitsI64 (offset + x.durationMs))
      | _ => true
    | _ => true

theorem keepsEnd_of_onwardKeeping {n : ℕ} (hs : s.Within n) (h : onwardKeeping n s a = true) :
    MarksInserted {} s a ∧ KeepsEnd s a ∧ OffsetFits s a := by
  rcases Bool.and_eq_true_iff.mp h with ⟨honward, hkeep⟩
  refine ⟨marksInserted_of_onward hs honward, ?_, ?_⟩
  · cases a with
    | step i x =>
      intro r seq d e rest hproc
      simpa [hproc] using hkeep
    | _ => trivial
  · cases a with
    | step i x =>
      intro job r offset g gs rest hproc hx hgs
      simpa [hproc, hx, hgs] using hkeep
    | _ => trivial

/-- The client puts segment 0 again with its times, and then segments 1 and 2; a second pass
places both. -/
def followedRun : List Label :=
  toDecode ++ decodes 2 ++ steps 2 6 ++
    [Label.request 3 (.putSegment 7 0 (some 0) (some 900))] ++ steps 3 4 ++
    [Label.request 4 (.putSegment 7 1 none none)] ++ steps 4 5 ++
    [Label.request 5 (.putSegment 7 2 none none)] ++ steps 5 5 ++
    [Label.claim 6 1 [.transcribeSegment] 2] ++ steps 6 3 ++
    [Label.step 6 { utterances := [⟨none, 900, 1600, "there", []⟩], durationMs := 700 }] ++
    steps 6 1 ++
    [Label.step 6 { utterances := [⟨none, 1600, 1800, "now", []⟩], durationMs := 200 }]

example : (notes (step {}) placed Sys.start [] followedRun).map
    (fun p => (p.recording, p.start, p.stop)) = [(7, 0, 900), (7, 900, 1600), (7, 1600, 1800)] := by
  decide +kernel

theorem placed_in_order_followedRun :
    (notes (step {}) placed Sys.start [] followedRun).Pairwise fun p q =>
      p.recording = q.recording → p.stop ≤ q.start ∧
      (p.Inside → q.Inside → ∀ u ∈ p.words, ∀ v ∈ q.words, u.endMs ≤ v.startMs) :=
  placed_in_order (run_of_amid (n := 7) (b := onwardKeeping 7) (by decide +kernel) fun _ _ =>
    keepsEnd_of_onwardKeeping)

end ScribeLocal.Server
