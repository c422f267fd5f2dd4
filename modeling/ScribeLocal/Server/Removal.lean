import ScribeLocal.Server.Drain

/-! # Removing a speaker

`DELETE` of a speaker removes what they said and enqueues the two stages that were built
from it. The enqueue does nothing while a job of the kind is live, and that job may have
read the utterances already.
-/
namespace ScribeLocal.Server
open Table Jobs Transition

variable {cfg : Config} {r : Uuid} {s s' : Sys} {a : Label} {x : Heard} {db : Db} {c : Cmd}
  {i j : ℕ} {k : JobKind} {job : Job} {st : Stmt} {body : List Stmt} {rest cs : List Cmd}

/-- The two stages a removal has made again. -/
def Rebuilt (k : JobKind) : Prop := k = .embed ∨ k = .summarize

instance : Decidable (Rebuilt k) := inferInstanceAs (Decidable (_ ∨ _))

/-! ## Notes -/

/-- When the speakers of a recording were removed, and when its stages read. -/
structure Removals where
  /-- How many removals have been executed. -/
  count : ℕ
  speakers : List ℤ
  /-- How many removals came before the stage of each process read the utterances. -/
  reads : ℕ → ℕ
  /-- How many removals came before the read that each summary is built from. -/
  summary : String → ℕ

def Removals.start : Removals := ⟨0, [], fun _ => 0, fun _ => 0⟩

/-- Keep track of the removals from `r`. -/
def removals (r : Uuid) (s : Sys) (a : Label) (b : Removals) : Removals :=
  match a with
  | .step i _ =>
    match s.procs i with
    | .todo (.content (.deleteSpeaker r' idx) :: _) =>
      if r' = r ∧ (s.db.content.speakers.any fun p =>
          p.recordingId == r' && p.localIdx == idx) = true then
        { b with count := b.count + 1, speakers := idx :: b.speakers }
      else b
    | .stage _ (.embedRead r' :: _) | .stage _ (.summarizeRead r' :: _) =>
      if r' = r then { b with reads := Function.update b.reads i b.count } else b
    | .stage _ (.upsertSummary r' template :: _) =>
      if r' = r then { b with summary := Function.update b.summary template (b.reads i) } else b
    | _ => b
  | _ => b

/-- The stage of process `i` has read since the last removal. -/
def Removals.Recent (b : Removals) (i : ℕ) : Prop := b.reads i = b.count ∧ 0 < b.count

/-! ## The condition -/

def Stmt.reads : Stmt → Bool
  | .embedRead _ | .summarizeRead _ => true
  | _ => false

/-- The process runs a stage of kind `k` that has read what it works on, or is about to
complete it. -/
def Proc.spent (r : Uuid) (k : JobKind) : Proc → Prop
  | .stage job body => job.recordingId = some r ∧ job.kind = k ∧ ∀ st ∈ body, Stmt.reads st = false
  | .todo (.completeJob job :: _) => job.recordingId = some r ∧ job.kind = k
  | _ => False

/-- The stage has read before the last removal. -/
def Stale (r : Uuid) (k : JobKind) (s : Sys) (b : Removals) (i : ℕ) : Prop :=
  (s.procs i).spent r k ∧ b.reads i < b.count

def Cmd.removes (r : Uuid) : Cmd → Prop
  | .deleteSpeakerRead r' _ | .content (.deleteSpeaker r' _) => r' = r
  | _ => False

def Cmd.inserts (r : Uuid) (k : JobKind) : Cmd → Prop
  | .insertJob r' k' _ strict => r' = r ∧ k' = k ∧ strict = true
  | _ => False

/-- The process is past its removal, if it has one, and is going to enqueue a job. -/
def Proc.rebuilds (r : Uuid) (k : JobKind) : Proc → Prop
  | .todo cs => (∀ c ∈ cs, ¬ c.removes r) ∧ ∃ c ∈ cs, c.inserts r k
  | _ => False

/-- The transactions that start a new run of the pipeline, and what leads to them. -/
def Cmd.restarts (r : Uuid) : Cmd → Prop
  | .reprocessRead r' | .resetForReprocess r' | .rediarizeRead r' | .resetForRediarize r' => r' = r
  | _ => False

/-- A statement of a stage that writes utterances. -/
def Stmt.rewrites (r : Uuid) : Stmt → Prop
  | .clearUtterances r' | .insertMerged r' | .liveInsert r' _ _ => r' = r
  | _ => False

instance : Decidable (c.removes r) := by
  rcases c with ⟨⟨⟩⟩ | _ <;> unfold Cmd.removes <;> infer_instance

instance : Decidable (c.inserts r k) := by
  rcases c <;> unfold Cmd.inserts <;> infer_instance

instance : Decidable (c.restarts r) := by
  rcases c <;> unfold Cmd.restarts <;> infer_instance

instance {p : Proc} : Decidable (p.rebuilds r k) := by
  rcases p <;> unfold Proc.rebuilds <;> infer_instance

instance {p : Proc} : Decidable (p.spent r k) := by
  rcases p with _ | _ | ⟨_ | ⟨⟨⟩, _⟩⟩ | _ <;> unfold Proc.spent <;> infer_instance

instance {b : Removals} : Decidable (Stale r k s b i) := inferInstanceAs (Decidable (_ ∧ _))

instance : Decidable (Stmt.rewrites r st) := by
  rcases st <;> unfold Stmt.rewrites <;> infer_instance

/-- Enqueues of the two stages are executed, and then no stage is at work that has read
before the last removal, unless a further enqueue is still to come; no job of the two
kinds is parked, no live worker loses its lease, summaries are made of the configured
template only, and after a removal nothing but a removal changes the utterances. -/
def Rebuilding (cfg : Config) (r : Uuid) (p : Sys × Removals) : Label → Prop
  | .request _ q => ¬ q.first.restarts r
  | .claim _ _ _ id => ∀ row, p.1.db.jobs.row id = some row → row.recordingId = some r →
      row.kind = .summarize → summarizeTemplate cfg row.payload = cfg.summaryTemplate
  | .stop i => ∀ k, Rebuilt k → ¬ (p.1.procs i).rebuilds r k
  | .step i x =>
    (∀ c rest, p.1.procs i = .todo (c :: rest) → (∀ cs, (c.exec cfg x p.1.db).2 ≠ .next cs) →
      ∀ k, Rebuilt k → ¬ (p.1.procs i).rebuilds r k) ∧
    (∀ k payload strict rest, p.1.procs i = .todo (.insertJob r k payload strict :: rest) →
      Rebuilt k → (∀ j, ¬ Stale r k p.1 p.2 j) ∨ ∃ j ≠ i, (p.1.procs j).rebuilds r k) ∧
    (∀ job error n rest, p.1.procs i = .todo (.failUpdate job error n :: rest) →
      job.recordingId = some r → Rebuilt job.kind → n < cfg.maxAttempts) ∧
    (∀ rest, p.1.procs i = .todo (.reapStuck :: rest) → ∀ row ∈ p.1.db.jobs.rows,
      stuck p.1.db.now cfg.lease row = true → (∀ j job, Holds p.1 j job → job.id ≠ row.id) ∧
        (row.recordingId = some r → Rebuilt row.kind →
          exhausted cfg.maxAttempts row = false)) ∧
    (∀ job st body, p.1.procs i = .stage job (st :: body) → 0 < p.2.count →
      ¬ Stmt.rewrites r st)
  | _ => True

theorem Rebuilding.reapsDead {b : Removals} (h : Rebuilding cfg r (s, b) a) :
    ReapsDead cfg s a := by
  cases a with
  | step i x => exact fun rest hproc row hrow hstuck => (h.2.2.2.1 rest hproc row hrow hstuck).1
  | _ => trivial

/-! ## The lists -/

/-- The lists of commands a process can be left with, as far as removals from `r` go. -/
inductive Remover (r : Uuid) : List Cmd → Prop
  | plain {cs : List Cmd} (h : ∀ c ∈ cs, ¬ c.removes r) : Remover r cs
  | ask {idx : ℤ} : Remover r [.deleteSpeakerRead r idx]
  | remove {idx : ℤ} : Remover r [.content (.deleteSpeaker r idx), enqueue r .embed {},
      enqueue r .summarize {}, .reply 200]

theorem follows_removes {c' : Cmd} (h : Follows cfg db c c') (hc : ¬ c.removes r) :
    ¬ c'.removes r := by
  cases h with
  | @content st st' hrec hst hsome =>
    intro hr
    cases st' with
    | deleteSpeaker => cases hsome
    | _ => exact hr
  | _ =>
    intro hr
    first
    | exact hr
    | exact hc hr

theorem remover_next (h : Remover r (c :: rest)) (hflow : (c.exec cfg x db).2 = .next cs) :
    Remover r (cs ++ rest) := by
  generalize hlist : c :: rest = l at h
  cases h with
  | plain hplain =>
    subst hlist
    refine .plain fun c' hc' => ?_
    rcases List.mem_append.mp hc' with hc' | hc'
    · exact follows_removes (exec_follows hflow hc') (hplain c List.mem_cons_self)
    · exact hplain c' (List.mem_cons_of_mem _ hc')
  | ask =>
    cases hlist
    simp only [Cmd.exec, fetched] at hflow
    split at hflow
    · cases hflow
    · cases hflow
      exact .remove
  | @remove idx =>
    cases hlist
    refine .plain fun c' hc' => ?_
    simp only [Cmd.exec, Stmt.exec] at hflow
    split at hflow
    · cases hflow
    · rename_i hexec
      split at hexec <;> cases hexec
      cases hflow
      simp only [List.map_nil, List.nil_append, List.mem_cons, List.not_mem_nil, or_false] at hc'
      rcases hc' with rfl | rfl | rfl <;> exact id

theorem remover_moved (hold : ∀ i cs, s.procs i = .todo cs → Remover r cs)
    (h : Moved cfg s a s') (hproc : s'.procs i = .todo cs) : Remover r cs := by
  have hone {c : Cmd} (hc : ¬ c.removes r) : Remover r [c] := by
    refine .plain fun c' hc' => ?_
    rwa [List.mem_singleton.mp hc']
  by_cases hi : a.proc = some i
  · cases h with
    | tick => cases hi
    | heartbeat => exact hold i cs hproc
    | request q =>
      cases hi
      rw [Sys.setProc_self] at hproc
      cases hproc
      cases q with
      | deleteSpeaker r' idx =>
        by_cases hr : r' = r
        · rw [hr]
          exact .ask
        · exact hone hr
      | _ => exact hone id
    | claim | stmt =>
      cases hi
      rw [Sys.setProc_self] at hproc
      cases hproc
    | reaper | stmtErr | stageErr | windowClosed | bodyDone =>
      cases hi
      rw [Sys.setProc_self] at hproc
      cases hproc
      exact hone id
    | stop =>
      cases hi
      rw [Sys.setProc_self] at hproc
      cases hk : s.procs i <;> rw [hk] at hproc <;> cases hproc
    | @cmd _ c rest x hk =>
      cases hi
      rw [Sys.setProc_self] at hproc
      cases hflow : (c.exec cfg x s.db).2 with
      | reply | abort => simp [hflow, advance] at hproc
      | next cs' =>
        rw [hflow] at hproc
        cases hproc
        exact remover_next (hold i _ hk) hflow
  · rw [moved_procs_of_ne h hi] at hproc
    exact hold i cs hproc

theorem restarts_moved (hold : ∀ i cs, s.procs i = .todo cs → ∀ c ∈ cs, ¬ c.restarts r)
    (h : Moved cfg s a s') (hreq : ∀ i q, a = .request i q → ¬ q.first.restarts r) :
    ∀ i cs, s'.procs i = .todo cs → ∀ c ∈ cs, ¬ c.restarts r := by
  apply moved_todo (P := fun c => ¬ c.restarts r) h hold _ hreq
  · exact id
  · exact fun _ _ _ => id
  · exact fun _ _ _ _ _ _ => id
  · exact fun _ _ _ _ _ => id
  · intro i x c rest c' _ hproc hfollow hr
    have hc := hold i _ hproc c List.mem_cons_self
    cases hfollow <;> first | exact hr | exact hc hr

/-- A process that is going to enqueue does so, or is still going to. -/
theorem rebuilds_moved {b : Removals} (hlists : ∀ i cs, s.procs i = .todo cs → Remover r cs)
    (hok : Rebuilding cfg r (s, b) a) (h : Moved cfg s a s') (hk : Rebuilt k)
    (hi : (s.procs i).rebuilds r k) :
    (s'.procs i).rebuilds r k ∨ ∃ x payload rest, a = .step i x ∧
      s.procs i = .todo (.insertJob r k payload true :: rest) ∧ Live s' r k := by
  by_cases hmove : a.proc = some i
  · cases h with
    | tick => cases hmove
    | heartbeat => exact .inl hi
    | request _ hproc | reaper hproc | claim hproc | stmt _ hproc | stmtErr _ hproc
    | bodyDone _ hproc | stageErr _ hproc | windowClosed _ hproc =>
      cases hmove
      rw [hproc] at hi
      exact hi.elim
    | stop =>
      cases hmove
      exact absurd hi (hok k hk)
    | @cmd _ c rest x hproc =>
      cases hmove
      have hgoes := hok.1 c rest hproc
      have hlist := hlists i _ hproc
      rw [hproc] at hi
      cases hflow : (c.exec cfg x s.db).2 with
      | reply | abort =>
        exact absurd (hproc ▸ hi) (hgoes (by simp [hflow]) k hk)
      | next cs =>
        rcases hi.2 with ⟨c', hc', hins⟩
        rcases List.mem_cons.mp hc' with rfl | hc'
        · right
          cases c' with
          | insertJob r' k' payload strict =>
            obtain ⟨rfl, rfl, rfl⟩ := hins
            refine ⟨x, payload, rest, rfl, hproc, ?_⟩
            cases hsome : (s.db.status r').isSome with
            | true =>
              rcases exec_insertJob cfg x k' payload true hsome with ⟨cs', hexec⟩
              rw [Live, Sys.setProc_db, hexec]
              have hins : JobsFrame r' s.db.jobs
                  (s.db.jobs.insert s.db.now r' k' payload 0).2 (fun _ => False) ∧
                  (s.db.jobs.insert s.db.now r' k' payload 0).2.has r' k' Job.isLive = true :=
                jobsFrame_insert
              exact hins.2
            | false =>
              have hnone : s.db.status r' = none := by simpa using hsome
              simp [Cmd.exec, hnone] at hflow
          | _ => exact hins.elim
        · left
          rw [Sys.setProc_self]
          simp only [advance]
          refine ⟨?_, c', List.mem_append_right _ hc', hins⟩
          intro d hd
          rcases List.mem_append.mp hd with hd | hd
          · exact follows_removes (exec_follows hflow hd) (hi.1 c List.mem_cons_self)
          · exact hi.1 d (List.mem_cons_of_mem _ hd)
  · rw [moved_procs_of_ne h hmove]
    exact .inl hi

theorem reads_jobBody (hr : job.recordingId = some r) (hk : Rebuilt job.kind) :
    ∃ st ∈ jobBody cfg job, Stmt.reads st = true := by
  unfold jobBody
  rw [hr]
  rcases hk with hk | hk <;> rw [hk]
  · exact ⟨_, List.mem_cons_self, rfl⟩
  · exact ⟨_, List.mem_cons_self, rfl⟩

/-- A stage is spent because it was before, or because it has just read. -/
theorem spent_moved (hs : Snapshot s) (h : Moved cfg s a s') (hk : Rebuilt k)
    (hspent : (s'.procs j).spent r k) :
    (s.procs j).spent r k ∨ ∃ x job st body c sts, a = .step j x ∧
      s.procs j = .stage job (st :: body) ∧ Stmt.reads st = true ∧
      job.recordingId = some r ∧ job.kind = k ∧
      st.exec s.db.now s.db.status x s.db.content = some (c, sts) := by
  cases hproc : s'.procs j with
  | idle | ended => simp [hproc, Proc.spent] at hspent
  | stage job body =>
    rw [hproc] at hspent
    obtain ⟨hr, hjk, hno⟩ := hspent
    rcases moved_stage h hproc with ⟨hold, -⟩ | ⟨rfl, -⟩ |
      ⟨x, st, rest, c, sts, ha, hold, hexec, rfl, -⟩
    · left
      rw [hold]
      exact ⟨hr, hjk, hno⟩
    · have hreads : ∃ st ∈ jobBody cfg job, Stmt.reads st = true := reads_jobBody hr (hjk ▸ hk)
      rcases hreads with ⟨st, hst, hread⟩
      simp [hno st hst] at hread
    · cases hread : Stmt.reads st with
      | true => exact .inr ⟨x, job, st, rest, c, sts, ha, hold, hread, hr, hjk, hexec⟩
      | false =>
        left
        rw [hold]
        refine ⟨hr, hjk, fun st' hst' => ?_⟩
        rcases List.mem_cons.mp hst' with rfl | hst'
        · exact hread
        · exact hno st' (List.mem_append_right _ hst')
  | todo cs =>
    cases cs with
    | nil => simp [hproc, Proc.spent] at hspent
    | cons c rest =>
      cases c with
      | completeJob job =>
        rw [hproc] at hspent
        left
        rcases moved_complete hs h hproc with hold | ⟨x, -, hold⟩
        · rw [hold]
          exact hspent
        · rw [hold]
          exact ⟨hspent.1, hspent.2, fun _ hst => nomatch hst⟩
      | _ => simp [hproc, Proc.spent] at hspent

/-! ## What the two stages write -/

variable {b b' : Removals} {content content' : Content}

/-- Every chunk of `r` is one of those that the utterances of now make. -/
def ChunksFresh (r : Uuid) (content : Content) : Prop :=
  ∀ k ∈ content.chunks, k.recordingId = r →
    k.toNewChunk ∈ Embed.buildChunks (content.listUtterances r)

/-- Every summary of `r` was built from a read after the last removal. -/
def SummariesFresh (r : Uuid) (b : Removals) (content : Content) : Prop :=
  ∀ y ∈ content.summaries, y.recordingId = r → b.summary y.template = b.count

/-- What a stage of kind `k` makes is up to date. -/
def UpToDate (r : Uuid) (b : Removals) (content : Content) : JobKind → Prop
  | .embed => ChunksFresh r content
  | .summarize => SummariesFresh r b content
  | _ => True

/-- Nothing that a stage of kind `k` works on or makes is new. -/
def Steady (r : Uuid) (b b' : Removals) (content content' : Content) : JobKind → Prop
  | .embed => content'.utterancesOf r = content.utterancesOf r ∧
      ∀ k ∈ content'.chunks, k.recordingId = r → k ∈ content.chunks
  | .summarize => b'.summary = b.summary ∧
      ∀ y ∈ content'.summaries, y.recordingId = r → y ∈ content.summaries
  | _ => True

theorem upToDate_steady (hcount : b'.count = b.count) (h : Steady r b b' content content' k)
    (hup : UpToDate r b content k) : UpToDate r b' content' k := by
  cases k with
  | embed =>
    intro c hc hr
    have hmem := hup c (h.2 c hc hr) hr
    rw [Content.listUtterances] at hmem ⊢
    rwa [h.1]
  | summarize =>
    intro y hy hr
    rw [h.1, hcount]
    exact hup y (h.2 y hy hr) hr
  | _ => trivial

/-- How far an embed or summarize stage of process `i` has come. If it has read since the
last removal, what it has written and is going to write is up to date. -/
inductive Remaking (cfg : Config) (r : Uuid) (b : Removals) (content : Content) (i : ℕ) :
    JobKind → List Stmt → Prop
  | embedRead : Remaking cfg r b content i .embed [.embedRead r]
  | embedClear : Remaking cfg r b content i .embed [.deleteChunks r]
  | embedReplace {new : List NewChunk} (hnew : b.Recent i → ∀ k ∈ new,
      k ∈ Embed.buildChunks (content.listUtterances r)) :
      Remaking cfg r b content i .embed [.deleteChunks r, .insertChunks r new]
  | embedInsert {new : List NewChunk} (hnew : b.Recent i → ∀ k ∈ new,
      k ∈ Embed.buildChunks (content.listUtterances r))
      (hup : b.Recent i → ChunksFresh r content) :
      Remaking cfg r b content i .embed [.insertChunks r new]
  | embedDone (hup : b.Recent i → ChunksFresh r content) : Remaking cfg r b content i .embed []
  | summarizeRead : Remaking cfg r b content i .summarize
      [.summarizeRead r, .upsertSummary r cfg.summaryTemplate]
  | summarizeWrite : Remaking cfg r b content i .summarize [.upsertSummary r cfg.summaryTemplate]
  | summarizeDone (hup : b.Recent i → SummariesFresh r b content) :
      Remaking cfg r b content i .summarize []

/-- A stage that has read before the last removal promises nothing. -/
theorem remaking_aged (h : Remaking cfg r b content i k body) (hno : ¬ b'.Recent i) :
    Remaking cfg r b' content' i k body := by
  cases h with
  | embedRead => exact .embedRead
  | embedClear => exact .embedClear
  | embedReplace => exact .embedReplace fun h => absurd h hno
  | embedInsert => exact .embedInsert (fun h => absurd h hno) fun h => absurd h hno
  | embedDone => exact .embedDone fun h => absurd h hno
  | summarizeRead => exact .summarizeRead
  | summarizeWrite => exact .summarizeWrite
  | summarizeDone => exact .summarizeDone fun h => absurd h hno

theorem remaking_steady (h : Remaking cfg r b content i k body) (hcount : b'.count = b.count)
    (hreads : b'.reads i = b.reads i) (hsteady : Steady r b b' content content' k) :
    Remaking cfg r b' content' i k body := by
  have hrecent (hb' : b'.Recent i) : b.Recent i := by
    rwa [Removals.Recent, hreads, hcount] at hb'
  cases h with
  | embedRead => exact .embedRead
  | embedClear => exact .embedClear
  | embedReplace hnew =>
    refine .embedReplace fun hb' => ?_
    rw [Content.listUtterances, hsteady.1]
    exact hnew (hrecent hb')
  | embedInsert hnew hup =>
    refine .embedInsert (fun hb' => ?_) fun hb' => ?_
    · rw [Content.listUtterances, hsteady.1]
      exact hnew (hrecent hb')
    · exact upToDate_steady (k := .embed) hcount hsteady (hup (hrecent hb'))
  | embedDone hup =>
    exact .embedDone fun hb' => upToDate_steady (k := .embed) hcount hsteady (hup (hrecent hb'))
  | summarizeRead => exact .summarizeRead
  | summarizeWrite => exact .summarizeWrite
  | summarizeDone hup =>
    exact .summarizeDone fun hb' =>
      upToDate_steady (k := .summarize) hcount hsteady (hup (hrecent hb'))

theorem upToDate_of_remaking (h : Remaking cfg r b content i k []) (hb : b.Recent i) :
    UpToDate r b content k := by
  cases h with
  | embedDone hup => exact hup hb
  | summarizeDone hup => exact hup hb

/-! ## The invariant -/

/-- What holds of the removals from `r` while each is followed up. -/
structure Swept (cfg : Config) (r : Uuid) (b : Removals) (s : Sys) : Prop where
  lists : ∀ i cs, s.procs i = .todo cs → Remover r cs
  noRestart : ∀ i cs, s.procs i = .todo cs → ∀ c ∈ cs, ¬ c.restarts r
  present : Present r s
  gone : ∀ u ∈ s.db.content.utterancesOf r, ∀ idx ∈ b.speakers, u.localIdx ≠ some idx
  none : b.count = 0 → b.speakers = []
  reads_le : ∀ i, b.reads i ≤ b.count
  template : ∀ y ∈ s.db.content.summaries, y.recordingId = r → y.template = cfg.summaryTemplate
  making : ∀ i job body, s.procs i = .stage job body → job.recordingId = some r →
    Rebuilt job.kind → Remaking cfg r b s.db.content i job.kind body
  made : ∀ i job rest, s.procs i = .todo (.completeJob job :: rest) →
    job.recordingId = some r → b.Recent i → UpToDate r b s.db.content job.kind
  followed : ∀ k, Rebuilt k → (∃ i, (s.procs i).rebuilds r k) ∨ ∀ i, ¬ Stale r k s b i
  owed : ∀ k, Rebuilt k → b.count = 0 ∨ UpToDate r b s.db.content k ∨
    (∃ i, (s.procs i).rebuilds r k) ∨ Live s r k

theorem swept_start : Swept cfg r Removals.start Sys.start where
  lists _ _ h := nomatch h
  noRestart _ _ h := nomatch h
  present _ _ h := nomatch h
  gone _ h := nomatch h
  none _ := rfl
  reads_le _ := le_rfl
  template _ h := nomatch h
  making _ _ _ h := nomatch h
  made _ _ _ h := nomatch h
  followed _ _ := .inr fun _ h => nomatch h.1
  owed _ _ := .inl rfl

/-- Either an enqueue is still to come, or no stage that has read too early is at work. -/
theorem followed_moved (hswept : Swept cfg r b s)
    (hok : Rebuilding cfg r (s, b) a) (h : Moved cfg s a s') (hk : Rebuilt k)
    (hcount : b'.count = b.count)
    (hreads : ∀ i, (s'.procs i).spent r k →
      ((s.procs i).spent r k ∧ b'.reads i = b.reads i) ∨ b'.reads i = b'.count) :
    (∃ i, (s'.procs i).rebuilds r k) ∨ ∀ i, ¬ Stale r k s' b' i := by
  have hfresh (hno : ∀ i, ¬ Stale r k s b i) (i : ℕ) : ¬ Stale r k s' b' i := by
    rintro ⟨hspent, hlt⟩
    rcases hreads i hspent with ⟨hold, heq⟩ | heq
    · exact hno i ⟨hold, by rwa [heq, hcount] at hlt⟩
    · omega
  rcases hswept.followed k hk with ⟨i, hi⟩ | hno
  · rcases rebuilds_moved hswept.lists hok h hk hi with hkept | ⟨x, payload, rest, rfl, hproc, -⟩
    · exact .inl ⟨i, hkept⟩
    · rcases hok.2.1 k payload true rest hproc hk with hno | ⟨j, hj, hother⟩
      · exact .inr (hfresh hno)
      · rcases rebuilds_moved hswept.lists hok h hk hother with hkept | ⟨_, _, _, ha, -⟩
        · exact .inl ⟨j, hkept⟩
        · exact absurd (Label.step.inj ha).1.symm hj
  · exact .inr (hfresh hno)

/-- What is not up to date is still to be enqueued, or there is a live job for it. -/
theorem owed_moved (hs : Snapshot s) (hswept : Swept cfg r b s)
    (hok : Rebuilding cfg r (s, b) a) (h : Moved cfg s a s') (hk : Rebuilt k)
    (hup : b.count = 0 ∨ UpToDate r b s.db.content k → b'.count = 0 ∨
      UpToDate r b' s'.db.content k ∨ ∃ i, (s.procs i).rebuilds r k) :
    b'.count = 0 ∨ UpToDate r b' s'.db.content k ∨ (∃ i, (s'.procs i).rebuilds r k) ∨
      Live s' r k := by
  have hgoing (hi : ∃ i, (s.procs i).rebuilds r k) :
      (∃ i, (s'.procs i).rebuilds r k) ∨ Live s' r k := by
    rcases hi with ⟨i, hi⟩
    rcases rebuilds_moved hswept.lists hok h hk hi with hkept | ⟨_, _, _, -, -, hlive⟩
    · exact .inl ⟨i, hkept⟩
    · exact .inr hlive
  have hnow (hdone : b.count = 0 ∨ UpToDate r b s.db.content k) : b'.count = 0 ∨
      UpToDate r b' s'.db.content k ∨ (∃ i, (s'.procs i).rebuilds r k) ∨ Live s' r k := by
    rcases hup hdone with hzero | hup | hi
    · exact .inl hzero
    · exact .inr (.inl hup)
    · exact .inr (.inr (hgoing hi))
  rcases hswept.owed k hk with hzero | hdone | hi | hlive
  · exact hnow (.inl hzero)
  · exact hnow (.inr hdone)
  · exact .inr (.inr (hgoing hi))
  · rcases moved_live hs h hlive with hkept | ⟨i, x, c, rest, rfl, hproc, hends⟩
    · exact .inr (.inr (.inr hkept))
    · cases hends with
      | @complete job hr hjk =>
        by_cases hrecent : b.Recent i
        · exact hnow (.inr (hjk ▸ hswept.made i job rest hproc hr hrecent))
        · by_cases hzero : b.count = 0
          · exact hnow (.inl hzero)
          · -- the stage has read too early, so an enqueue is still to come
            have hstale : Stale r k s b i := by
              have hle := hswept.reads_le i
              refine ⟨by rw [hproc]; exact ⟨hr, hjk⟩, ?_⟩
              rw [Removals.Recent] at hrecent
              omega
            have hi := (hswept.followed k hk).resolve_right fun hno => hno i hstale
            exact .inr (.inr (hgoing hi))
      | @park job error n hr hjk hn =>
        have hlt := hok.2.2.1 job error n rest hproc hr (hjk ▸ hk)
        omega
      | @reap row hrow hr hjk hstuck hex =>
        have hno := (hok.2.2.2.1 rest hproc row hrow hstuck).2 hr (hjk ▸ hk)
        simp [hex] at hno
      | reset hreset =>
        have hno := hswept.noRestart i _ hproc c List.mem_cons_self
        cases c <;> first | exact hreset.elim | exact absurd hreset hno

theorem not_resets (hswept : Swept cfg r b s) (hproc : s.procs i = .todo (c :: rest)) :
    ¬ c.resets r := by
  have hno := hswept.noRestart i _ hproc c List.mem_cons_self
  cases c <;> first | exact id | exact hno

/-- The claimed stages start at their beginning. -/
theorem remaking_jobBody (hr : job.recordingId = some r) (hk : Rebuilt job.kind)
    (ht : job.kind = .summarize → summarizeTemplate cfg job.payload = cfg.summaryTemplate) :
    Remaking cfg r b content i job.kind (jobBody cfg job) := by
  unfold jobBody
  rw [hr]
  rcases hk with hk | hk
  · rw [hk]
    exact .embedRead
  · rw [ht hk, hk]
    exact .summarizeRead

theorem remaking_claim {w : WorkerId} {kinds : List JobKind} {id : JobId} {t : Jobs}
    (hok : Rebuilding cfg r (s, b) (.claim i w kinds id))
    (hclaim : s.db.jobs.claimOne s.db.now w kinds id = some (job, t))
    (hr : job.recordingId = some r) (hk : Rebuilt job.kind) :
    Remaking cfg r b' content j job.kind (jobBody cfg job) := by
  rcases claimOne_eq_some hclaim with ⟨row, hrow, -, hj, -⟩
  change job = claimed s.db.now w row at hj
  subst hj
  exact remaking_jobBody hr hk (hok row hrow hr)

/-- A step that neither removes a speaker nor runs one of the two stages. -/
theorem swept_quiet (hs : Snapshot s) (hswept : Swept cfg r b s)
    (hok : Rebuilding cfg r (s, b) a) (h : Moved cfg s a s')
    (hother : ∀ i x job st body c sts, a = .step i x → s.procs i = .stage job (st :: body) →
      st.exec s.db.now s.db.status x s.db.content = some (c, sts) →
      job.recordingId = some r → ¬ Rebuilt job.kind)
    (hsteady : b.count = 0 ∨ s'.db.content.utterancesOf r = s.db.content.utterancesOf r)
    (hchunks : ∀ k ∈ s'.db.content.chunks, k.recordingId = r → k ∈ s.db.content.chunks)
    (hsummaries : ∀ y ∈ s'.db.content.summaries, y.recordingId = r →
      y ∈ s.db.content.summaries) : Swept cfg r b s' := by
  have hkeep {k : JobKind} (hne : b.count ≠ 0) : Steady r b b s.db.content s'.db.content k := by
    cases k with
    | embed => exact ⟨hsteady.resolve_left hne, hchunks⟩
    | summarize => exact ⟨rfl, hsummaries⟩
    | _ => trivial
  have hrecent {i : ℕ} (hb : b.Recent i) : b.count ≠ 0 := Nat.pos_iff_ne_zero.mp hb.2
  constructor
  · exact fun i cs hproc => remover_moved hswept.lists h hproc
  · apply restarts_moved hswept.noRestart h
    rintro i q rfl
    exact hok
  · exact present_moved hs hswept.present h fun _ _ _ _ _ hproc => not_resets hswept hproc
  · intro u hu idx hidx
    rcases hsteady with hzero | hsame
    · rw [hswept.none hzero] at hidx
      cases hidx
    · exact hswept.gone u (hsame ▸ hu) idx hidx
  · exact hswept.none
  · exact hswept.reads_le
  · exact fun y hy hr => hswept.template y (hsummaries y hy hr) hr
  · intro i job body hproc hr hk
    rcases moved_stage h hproc with ⟨hold, -⟩ | ⟨rfl, w, kinds, id, t, rfl, hclaim⟩ |
      ⟨x, st, rest, c, sts, ha, hold, hexec, -⟩
    · have hmaking := hswept.making i job body hold hr hk
      by_cases hzero : b.count = 0
      · exact remaking_aged hmaking fun hb => hrecent hb hzero
      · exact remaking_steady hmaking rfl rfl (hkeep hzero)
    · exact remaking_claim hok hclaim hr hk
    · exact absurd hk (hother i x job st rest c sts ha hold hexec hr)
  · intro i job rest hproc hr hb
    rcases moved_complete hs h hproc with hold | ⟨x, -, hold⟩
    · exact upToDate_steady rfl (hkeep (hrecent hb)) (hswept.made i job rest hold hr hb)
    · by_cases hk : Rebuilt job.kind
      · exact upToDate_steady rfl (hkeep (hrecent hb))
          (upToDate_of_remaking (hswept.making i job [] hold hr hk) hb)
      · cases hjk : job.kind <;> first | trivial | exact absurd (by simp [Rebuilt, hjk]) hk
  · intro k hk
    apply followed_moved hswept hok h hk rfl
    intro i hspent
    rcases spent_moved hs h hk hspent with hold |
      ⟨x, job, st, rest, c, sts, ha, hold, -, hr, hjk, hexec⟩
    · exact .inl ⟨hold, rfl⟩
    · exact absurd (hjk ▸ hk) (hother i x job st rest c sts ha hold hexec hr)
  · intro k hk
    apply owed_moved hs hswept hok h hk
    intro hdone
    by_cases hzero : b.count = 0
    · exact .inl hzero
    · exact .inr (.inl (upToDate_steady rfl (hkeep hzero) (hdone.resolve_left hzero)))

/-- A step of one of the two stages. -/
theorem swept_write (hs : Snapshot s) (hl : Leased s) (hswept : Swept cfg r b s)
    (hok : Rebuilding cfg r (s, b) (.step i x)) (hproc : s.procs i = .stage job (st :: body))
    (hexec : st.exec s.db.now s.db.status x s.db.content = some (content', sts))
    (hr : job.recordingId = some r) (hk : Rebuilt job.kind)
    (hcount : b'.count = b.count) (hspeakers : b'.speakers = b.speakers)
    (hreads : ∀ j ≠ i, b'.reads j = b.reads j)
    (hread : b'.reads i = b.reads i ∧ Stmt.reads st = false ∨ b'.reads i = b.count)
    (hutterances : content'.utterancesOf r = s.db.content.utterancesOf r)
    (htemplate : ∀ y ∈ content'.summaries, y.recordingId = r → y.template = cfg.summaryTemplate)
    (hothers : ∀ k, Rebuilt k → k ≠ job.kind → Steady r b b' s.db.content content' k)
    (hself : Remaking cfg r b' content' i job.kind (sts ++ body))
    (hup : Steady r b b' s.db.content content' job.kind ∨
      (s.procs i).spent r job.kind ∧ (b.Recent i → UpToDate r b' content' job.kind)) :
    Swept cfg r b' (({ s with db := { s.db with content := content' } } : Sys).setProc i
      (.stage job (sts ++ body))) := by
  have hmoved : Moved cfg s (.step i x) (({ s with db := { s.db with content := content' } } :
      Sys).setProc i (.stage job (sts ++ body))) := .stmt x hproc hexec
  have hholds : Holds s i job := by
    rw [Holds, hproc]
    rfl
  -- no other process runs a stage of the same kind
  have hkind {j : ℕ} {job' : Job} (hj : Holds s j job') (hr' : job'.recordingId = some r)
      (hji : j ≠ i) : job'.kind ≠ job.kind := by
    intro hsame
    rcases hswept.present i job hholds hr with ⟨row, hrow⟩
    rcases hswept.present j job' hj hr' with ⟨row', hrow'⟩
    exact hji (holder_unique hs hl hj hholds hr' hr hsame hrow' hrow)
  have hrecent {j : ℕ} (hji : j ≠ i) (hb : b'.Recent j) : b.Recent j := by
    rwa [Removals.Recent, hreads j hji, hcount] at hb
  constructor
  · exact fun j cs hj => remover_moved hswept.lists hmoved hj
  · exact restarts_moved hswept.noRestart hmoved (by intro _ _ ha; cases ha)
  · exact present_moved hs hswept.present hmoved fun _ _ _ _ _ hproc => not_resets hswept hproc
  · intro u hu idx hidx
    rw [hspeakers] at hidx
    exact hswept.gone u (hutterances ▸ hu) idx hidx
  · rw [hcount, hspeakers]
    exact hswept.none
  · intro j
    rw [hcount]
    by_cases hji : j = i
    · subst hji
      rcases hread with ⟨heq, -⟩ | heq
      · rw [heq]
        exact hswept.reads_le j
      · exact heq.le
    · rw [hreads j hji]
      exact hswept.reads_le j
  · exact htemplate
  · intro j job' body' hj hr' hk'
    by_cases hji : j = i
    · subst hji
      rw [Sys.setProc_self] at hj
      cases hj
      exact hself
    · rw [Sys.setProc_of_ne hji] at hj
      have hjob : Holds s j job' := by
        rw [Holds, show s.procs j = _ from hj]
        rfl
      exact remaking_steady (hswept.making j job' body' hj hr' hk') hcount (hreads j hji)
        (hothers _ hk' (hkind hjob hr' hji))
  · intro j job' rest' hj hr' hb
    by_cases hji : j = i
    · subst hji
      rw [Sys.setProc_self] at hj
      cases hj
    · rw [Sys.setProc_of_ne hji] at hj
      have hjob : Holds s j job' := by
        rw [Holds, show s.procs j = _ from hj]
        rfl
      by_cases hk' : Rebuilt job'.kind
      · exact upToDate_steady hcount (hothers _ hk' (hkind hjob hr' hji))
          (hswept.made j job' rest' hj hr' (hrecent hji hb))
      · cases hjk : job'.kind <;> first | trivial | exact absurd (by simp [Rebuilt, hjk]) hk'
  · intro k' hk'
    apply followed_moved hswept hok hmoved hk' hcount
    intro j hspent
    by_cases hji : j = i
    · subst hji
      rcases hread with ⟨heq, hno⟩ | heq
      · rcases spent_moved hs hmoved hk' hspent with hold | ⟨x', job', st', rest', c, sts', ha, hold, hyes, -⟩
        · exact .inl ⟨hold, heq⟩
        · cases hproc.symm.trans hold
          simp [hno] at hyes
      · exact .inr (heq.trans hcount.symm)
    · left
      rw [Sys.setProc_of_ne hji] at hspent
      exact ⟨hspent, hreads j hji⟩
  · intro k' hk'
    apply owed_moved hs hswept hok hmoved hk'
    intro hdone
    by_cases hzero : b.count = 0
    · exact .inl (hcount.trans hzero)
    · have hold := hdone.resolve_left hzero
      by_cases hkk : k' = job.kind
      · subst hkk
        rcases hup with hsteady | ⟨hspent, hup⟩
        · exact .inr (.inl (upToDate_steady hcount hsteady hold))
        · by_cases hb : b.Recent i
          · exact .inr (.inl (hup hb))
          · have hstale : Stale r job.kind s b i := by
              have hle := hswept.reads_le i
              refine ⟨hspent, ?_⟩
              rw [Removals.Recent] at hb
              omega
            have hi := (hswept.followed _ hk).resolve_right fun hno => hno i hstale
            exact .inr (.inr hi)
      · exact .inr (.inl (upToDate_steady hcount (hothers _ hk' hkk) hold))

/-- The other statements of a stage are not noted. -/
theorem removals_stage (hproc : s.procs i = .stage job (st :: body)) (hembed : st ≠ .embedRead r)
    (hsummarize : st ≠ .summarizeRead r) (hwrite : ∀ template, st ≠ .upsertSummary r template) :
    removals r s (.step i x) b = b := by
  cases st with
  | embedRead r' =>
    have hr : r' ≠ r := fun h => hembed (by rw [h])
    simp only [removals, hproc, if_neg hr]
  | summarizeRead r' =>
    have hr : r' ≠ r := fun h => hsummarize (by rw [h])
    simp only [removals, hproc, if_neg hr]
  | upsertSummary r' template =>
    have hr : r' ≠ r := fun h => hwrite template (by rw [h])
    simp only [removals, hproc, if_neg hr]
  | _ => simp only [removals, hproc]

theorem chunksFresh_clear : ChunksFresh r { content with
    chunks := deleteWhere (fun k => k.recordingId == r) content.chunks } := by
  intro c hc hr
  have hno := (mem_deleteWhere.mp hc).2
  simp [hr] at hno

/-- A stage reads what it works from. -/
theorem swept_read (hs : Snapshot s) (hl : Leased s) (hswept : Swept cfg r b s)
    (hok : Rebuilding cfg r (s, b) (.step i x)) (hproc : s.procs i = .stage job (st :: body))
    (hexec : st.exec s.db.now s.db.status x s.db.content = some (s.db.content, sts))
    (hr : job.recordingId = some r) (hk : Rebuilt job.kind)
    (hself : Remaking cfg r { b with reads := Function.update b.reads i b.count } s.db.content i
      job.kind (sts ++ body)) :
    Swept cfg r { b with reads := Function.update b.reads i b.count }
      (s.setProc i (.stage job (sts ++ body))) := by
  have hsteady (k : JobKind) (hk' : Rebuilt k) : Steady r b
      { b with reads := Function.update b.reads i b.count } s.db.content s.db.content k := by
    rcases hk' with rfl | rfl
    · exact ⟨rfl, fun _ hc _ => hc⟩
    · exact ⟨rfl, fun _ hy _ => hy⟩
  apply swept_write hs hl hswept hok hproc hexec hr hk
  · rfl
  · rfl
  · exact fun j hji => Function.update_of_ne hji _ _
  · exact .inr (Function.update_self ..)
  · rfl
  · exact hswept.template
  · exact fun k hk' _ => hsteady k hk'
  · exact hself
  · exact .inl (hsteady job.kind hk)

/-- A stage clears the chunks before it makes new ones. -/
theorem swept_clear (hs : Snapshot s) (hl : Leased s) (hswept : Swept cfg r b s)
    (hok : Rebuilding cfg r (s, b) (.step i x))
    (hproc : s.procs i = .stage job (.deleteChunks r :: body))
    (hexec : (Stmt.deleteChunks r).exec s.db.now s.db.status x s.db.content =
      some (content', sts))
    (hr : job.recordingId = some r) (hk : Rebuilt job.kind)
    (hself : Remaking cfg r b content' i job.kind (sts ++ body)) :
    Swept cfg r (removals r s (.step i x) b)
      (({ s with db := { s.db with content := content' } } : Sys).setProc i
        (.stage job (sts ++ body))) := by
  rw [removals_stage hproc (by simp) (by simp) (by simp)]
  have hsteady (k : JobKind) (hk' : Rebuilt k) : Steady r b b s.db.content content' k := by
    cases hexec
    rcases hk' with rfl | rfl
    · exact ⟨rfl, fun _ hc _ => (mem_deleteWhere.mp hc).1⟩
    · exact ⟨rfl, fun _ hy _ => hy⟩
  have hkept : content'.utterancesOf r = s.db.content.utterancesOf r ∧
      content'.summaries = s.db.content.summaries := by
    cases hexec
    exact ⟨rfl, rfl⟩
  apply swept_write hs hl hswept hok hproc hexec hr hk
  · rfl
  · rfl
  · exact fun _ _ => rfl
  · exact .inl ⟨rfl, rfl⟩
  · exact hkept.1
  · rw [hkept.2]
    exact hswept.template
  · exact fun k hk' _ => hsteady k hk'
  · exact hself
  · exact .inl (hsteady job.kind hk)

theorem swept_own (hs : Snapshot s) (hl : Leased s) (hswept : Swept cfg r b s)
    (hok : Rebuilding cfg r (s, b) (.step i x)) (hproc : s.procs i = .stage job (st :: body))
    (hexec : st.exec s.db.now s.db.status x s.db.content = some (content', sts))
    (hr : job.recordingId = some r) (hk : Rebuilt job.kind) :
    Swept cfg r (removals r s (.step i x) b)
      (({ s with db := { s.db with content := content' } } : Sys).setProc i
        (.stage job (sts ++ body))) := by
  have hmaking := hswept.making i job _ hproc hr hk
  generalize hjk : job.kind = k at hmaking
  generalize hbody : st :: body = l at hmaking
  have hspent (hno : ∀ st' ∈ l, Stmt.reads st' = false) : (s.procs i).spent r job.kind := by
    rw [hproc, hbody]
    exact ⟨hr, rfl, hno⟩
  cases hmaking with
  | embedRead =>
    cases hbody
    have hnote : removals r s (.step i x) b =
        { b with reads := Function.update b.reads i b.count } := by
      simp only [removals, hproc, if_pos]
    rw [hnote]
    have hcontent : content' = s.db.content ∧ (sts = [.deleteChunks r] ∨
        sts = [.deleteChunks r, .insertChunks r
          (Embed.buildChunks (s.db.content.listUtterances r))]) := by
      simp only [Stmt.exec] at hexec
      split at hexec
      · cases hexec
        exact ⟨rfl, .inl rfl⟩
      · rename_i hchunks
        cases hexec
        rw [hchunks]
        exact ⟨rfl, .inr rfl⟩
    obtain ⟨rfl, hsts⟩ := hcontent
    apply swept_read hs hl hswept hok hproc hexec hr hk
    rw [hjk]
    rcases hsts with rfl | rfl
    · exact .embedClear
    · exact .embedReplace fun _ _ hc => hc
  | embedClear =>
    cases hbody
    cases hexec
    apply swept_clear hs hl hswept hok hproc rfl hr hk
    rw [hjk]
    exact .embedDone fun _ => chunksFresh_clear
  | @embedReplace new hnew =>
    cases hbody
    cases hexec
    apply swept_clear hs hl hswept hok hproc rfl hr hk
    rw [hjk]
    exact .embedInsert hnew fun _ => chunksFresh_clear
  | @embedInsert new hnew hup =>
    cases hbody
    cases hexec
    rw [removals_stage hproc (by simp) (by simp) (by simp)]
    have hfresh (hb : b.Recent i) : ChunksFresh r { s.db.content with
        chunks := s.db.content.chunks ++ new.map fun k => { k with recordingId := r } } := by
      intro c hc hcr
      rcases List.mem_append.mp hc with hc | hc
      · exact hup hb c hc hcr
      · rcases List.mem_map.mp hc with ⟨n, hn, rfl⟩
        exact hnew hb n hn
    apply swept_write hs hl hswept hok hproc rfl hr hk rfl rfl (fun _ _ => rfl) (.inl ⟨rfl, rfl⟩) rfl
      hswept.template
    · intro k' hk' hne
      rcases hk' with rfl | rfl
      · exact absurd hjk.symm hne
      · exact ⟨rfl, fun _ hy _ => hy⟩
    · rw [hjk]
      exact .embedDone hfresh
    · right
      refine ⟨hspent (by simp [Stmt.reads]), ?_⟩
      rw [hjk]
      exact hfresh
  | summarizeRead =>
    cases hbody
    cases hexec
    have hnote : removals r s (.step i x) b =
        { b with reads := Function.update b.reads i b.count } := by
      simp only [removals, hproc, if_pos]
    rw [hnote]
    apply swept_read hs hl hswept hok hproc rfl hr hk
    rw [hjk]
    exact .summarizeWrite
  | summarizeWrite =>
    cases hbody
    have hnote : removals r s (.step i x) b =
        { b with summary := Function.update b.summary cfg.summaryTemplate (b.reads i) } := by
      simp only [removals, hproc, if_pos]
    rw [hnote]
    have htemplate (y : Summary) (hy : y ∈ content'.summaries) (hyr : y.recordingId = r) :
        y.template = cfg.summaryTemplate := by
      rcases exec_summaries hexec hy with ⟨hold, -⟩ | heq
      · exact hswept.template y hold hyr
      · exact (Stmt.upsertSummary.inj heq).2.symm
    have hfresh (hb : b.Recent i) : SummariesFresh r
        { b with summary := Function.update b.summary cfg.summaryTemplate (b.reads i) }
        content' := by
      intro y hy hyr
      rw [htemplate y hy hyr]
      exact (Function.update_self ..).trans hb.1
    cases hexec
    apply swept_write hs hl hswept hok hproc rfl hr hk
    · rfl
    · rfl
    · exact fun _ _ => rfl
    · exact .inl ⟨rfl, rfl⟩
    · rfl
    · exact htemplate
    · intro k' hk' hne
      rcases hk' with rfl | rfl
      · exact ⟨rfl, fun _ hc _ => hc⟩
      · exact absurd hjk.symm hne
    · rw [hjk]
      exact .summarizeDone fun hb => hfresh hb
    · right
      refine ⟨hspent (by simp [Stmt.reads]), ?_⟩
      rw [hjk]
      exact hfresh
  | embedDone | summarizeDone => cases hbody

/-- A removal: nothing that was read before it is recent any more, and both enqueues follow. -/
theorem swept_remove (hs : Snapshot s) (hswept : Swept cfg r b s) {idx : ℤ}
    (hproc : s.procs i = .todo (.content (.deleteSpeaker r idx) :: rest))
    (hspeaker : (s.db.content.speakers.any fun p =>
      p.recordingId == r && p.localIdx == idx) = true) :
    Swept cfg r { b with count := b.count + 1, speakers := idx :: b.speakers }
      (s.after cfg x i (.content (.deleteSpeaker r idx)) rest) := by
  have hmoved : Moved cfg s (.step i x) (s.after cfg x i (.content (.deleteSpeaker r idx)) rest) :=
    .cmd x hproc
  have hexec : (Cmd.content (.deleteSpeaker r idx)).exec cfg x s.db = ({ s.db with
      content := { s.db.content with
        utterances := deleteWhere (fun u => u.recordingId == r && u.localIdx == some idx)
          s.db.content.utterances
        speakers := deleteWhere (fun p => p.recordingId == r && p.localIdx == idx)
          s.db.content.speakers } }, .next []) := by
    simp [Cmd.exec, Stmt.exec, hspeaker]
  have hlist : rest = [enqueue r .embed {}, enqueue r .summarize {}, .reply 200] := by
    have hremover := hswept.lists i _ hproc
    generalize hl : Cmd.content (.deleteSpeaker r idx) :: rest = l at hremover
    cases hremover with
    | plain h =>
      subst hl
      exact absurd rfl (h _ List.mem_cons_self)
    | ask => cases hl
    | remove => exact (List.cons.inj hl).2
  have hrebuilds (k : JobKind) (hk : Rebuilt k) :
      ∃ j, ((s.after cfg x i (.content (.deleteSpeaker r idx)) rest).procs j).rebuilds r k := by
    refine ⟨i, ?_⟩
    rw [after_procs_self, hexec, hlist]
    constructor
    · intro c hc
      simp only [List.nil_append, List.mem_cons, List.not_mem_nil, or_false] at hc
      rcases hc with rfl | rfl | rfl <;> exact id
    · rcases hk with rfl | rfl
      · exact ⟨_, List.mem_cons_self, rfl, rfl, rfl⟩
      · exact ⟨_, List.mem_cons_of_mem _ List.mem_cons_self, rfl, rfl, rfl⟩
  have hold (j : ℕ) : ¬ Removals.Recent
      { b with count := b.count + 1, speakers := idx :: b.speakers } j := by
    rintro ⟨heq, -⟩
    have hle := hswept.reads_le j
    simp only at heq
    omega
  constructor
  · exact fun j cs hj => remover_moved hswept.lists hmoved hj
  · exact restarts_moved hswept.noRestart hmoved (by intro _ _ ha; cases ha)
  · exact present_moved hs hswept.present hmoved fun _ _ _ _ _ hproc => not_resets hswept hproc
  · intro u hu idx' hidx'
    rw [after_db, hexec] at hu
    have hmem := List.mem_filter.mp hu
    have hkept := mem_deleteWhere.mp hmem.1
    rcases List.mem_cons.mp hidx' with rfl | hidx'
    · have hr : (u.recordingId == r) = true := hmem.2
      simpa [hr] using hkept.2
    · exact hswept.gone u (List.mem_filter.mpr ⟨hkept.1, hmem.2⟩) idx' hidx'
  · intro hzero
    simp at hzero
  · exact fun j => Nat.le_succ_of_le (hswept.reads_le j)
  · intro y hy hyr
    rw [after_db, hexec] at hy
    exact hswept.template y hy hyr
  · intro j job body hj hr hk
    rcases moved_stage hmoved hj with ⟨hsame, -⟩ | ⟨-, _, _, _, _, ha, -⟩ |
      ⟨_, _, _, _, _, ha, hstage, -⟩
    · exact remaking_aged (hswept.making j job body hsame hr hk) (hold j)
    · cases ha
    · cases (Label.step.inj ha).1
      cases hproc.symm.trans hstage
  · exact fun j _ _ _ _ hb => absurd hb (hold j)
  · exact fun k hk => .inl (hrebuilds k hk)
  · exact fun k hk => .inr (.inr (.inl (hrebuilds k hk)))

/-- A command that removes no speaker of `r` leaves what was built from it. -/
theorem kept_cmd (hst : Staged s) (hswept : Swept cfg r b s)
    (hproc : s.procs i = .todo (c :: rest))
    (hno : ¬ ∃ idx, c = .content (.deleteSpeaker r idx) ∧
      (s.db.content.speakers.any fun p => p.recordingId == r && p.localIdx == idx) = true)
    (hwrites : c.Writes x s.db content') :
    content'.utterancesOf r = s.db.content.utterancesOf r ∧
      (∀ k ∈ content'.chunks, k.recordingId = r → k ∈ s.db.content.chunks) ∧
      ∀ y ∈ content'.summaries, y.recordingId = r → y ∈ s.db.content.summaries := by
  have hrestart := hswept.noRestart i _ hproc c List.mem_cons_self
  have hreset {r' : Uuid} (hr : r' ≠ r) :
      (s.db.content.resetForRediarize r').utterancesOf r = s.db.content.utterancesOf r ∧
      (∀ k ∈ (s.db.content.resetForRediarize r').chunks, k.recordingId = r →
        k ∈ s.db.content.chunks) ∧
      ∀ y ∈ (s.db.content.resetForRediarize r').summaries, y.recordingId = r →
        y ∈ s.db.content.summaries :=
    ⟨reset_utterances hr, fun _ hc _ => (mem_deleteWhere.mp hc).1,
      fun _ hy _ => (mem_deleteWhere.mp hy).1⟩
  cases hwrites with
  | nothing | participants => exact ⟨rfl, fun _ hc _ => hc, fun _ hy _ => hy⟩
  | reprocess | rediarize => exact hreset hrestart
  | @content st _ sts hexec =>
    have hstage := hst.handler i _ hproc st List.mem_cons_self
    refine ⟨?_, fun c hc _ => ?_, fun y hy _ => ?_⟩
    · have hnot (idx : ℤ) : st ≠ .deleteSpeaker r idx := by
        rintro rfl
        simp only [Stmt.exec] at hexec
        split at hexec
        · rename_i hspeaker
          exact hno ⟨idx, rfl, hspeaker⟩
        · cases hexec
      rcases exec_utterances hexec hnot with ⟨hsame, -⟩ | ⟨rfl, -⟩ | ⟨rfl, -⟩ | ⟨_, _, rfl, -⟩
      · exact hsame
      all_goals cases hstage
    · rcases exec_chunks hexec hc with hold | ⟨new, rfl, -⟩
      · exact hold
      · cases hstage
    · rcases exec_summaries hexec hy with ⟨hold, -⟩ | rfl
      · exact hold
      · cases hstage

theorem swept_moved (hs : Snapshot s) (hl : Leased s) (hst : Staged s) (hswept : Swept cfg r b s)
    (hok : Rebuilding cfg r (s, b) a) (h : Moved cfg s a s') :
    Swept cfg r (removals r s a b) s' := by
  have hquiet (hnote : removals r s a b = b) (hcontent : s'.db.content = s.db.content)
      (hno : ∀ i x job st body c sts, a = .step i x → s.procs i = .stage job (st :: body) →
        st.exec s.db.now s.db.status x s.db.content = some (c, sts) → False) :
      Swept cfg r (removals r s a b) s' := by
    rw [hnote]
    apply swept_quiet hs hswept hok h
    · intro i x job st body c sts ha hproc hexec
      exact (hno i x job st body c sts ha hproc hexec).elim
    · exact .inr (by rw [hcontent])
    · rw [hcontent]
      exact fun _ hc _ => hc
    · rw [hcontent]
      exact fun _ hy _ => hy
  have hstep := h
  cases h with
  | @stmt i job st body content' sts x hproc hexec =>
    have hhead := hst.body i job _ hproc st List.mem_cons_self
    by_cases hmine : job.recordingId = some r ∧ Rebuilt job.kind
    · exact swept_own hs hl hswept hok hproc hexec hmine.1 hmine.2
    · -- a statement of the two stages would make the stage one of them
      have hnot (hr : st.recording = r) (k : JobKind) (hk : Rebuilt k) : st.stage ≠ some k := by
        intro hstage
        have hkind := Option.some.inj (hstage.symm.trans hhead.2)
        exact hmine ⟨by rw [hhead.1, hr], hkind ▸ hk⟩
      have hnote : removals r s (.step i x) b = b := by
        apply removals_stage hproc
        · rintro rfl
          exact hnot rfl .embed (.inl rfl) rfl
        · rintro rfl
          exact hnot rfl .summarize (.inr rfl) rfl
        · rintro template rfl
          exact hnot rfl .summarize (.inr rfl) rfl
      rw [hnote]
      apply swept_quiet hs hswept hok hstep
      · intro i' x' job' st' body' c sts' ha hproc' _ hr hk
        cases ha
        cases hproc.symm.trans hproc'
        exact hmine ⟨hr, hk⟩
      · have hno (idx : ℤ) : st ≠ .deleteSpeaker r idx := by
          rintro rfl
          cases hhead.2
        have hrewrites (hrew : Stmt.rewrites r st) : b.count = 0 := by
          by_contra hne
          exact hok.2.2.2.2 job st body hproc (Nat.pos_of_ne_zero hne) hrew
        rcases exec_utterances hexec hno with ⟨hsame, -⟩ | ⟨rfl, -⟩ | ⟨rfl, -⟩ | ⟨_, _, rfl, -⟩
        · exact .inr hsame
        all_goals exact .inl (hrewrites rfl)
      · intro c hc hr
        rcases exec_chunks hexec hc with hold | ⟨new, rfl, -⟩
        · exact hold
        · exact absurd rfl (hnot hr .embed (.inl rfl))
      · intro y hy hr
        rcases exec_summaries hexec hy with ⟨hold, -⟩ | rfl
        · exact hold
        · exact absurd rfl (hnot hr .summarize (.inr rfl))
  | @cmd i c rest x hproc =>
    by_cases hremove : ∃ idx, c = .content (.deleteSpeaker r idx) ∧
        (s.db.content.speakers.any fun p => p.recordingId == r && p.localIdx == idx) = true
    · rcases hremove with ⟨idx, rfl, hspeaker⟩
      have hnote : removals r s (.step i x) b =
          { b with count := b.count + 1, speakers := idx :: b.speakers } := by
        simp only [removals, hproc, hspeaker, and_self, if_true]
      rw [hnote]
      exact swept_remove hs hswept hproc hspeaker
    · have hnote : removals r s (.step i x) b = b := by
        simp only [removals, hproc]
        split
        · rename_i heq
          rw [if_neg]
          rintro ⟨rfl, hspeaker⟩
          exact hremove ⟨_, (List.cons.inj (Proc.todo.inj heq)).1, hspeaker⟩
        -- the process is not at a stage
        all_goals first | rfl | (rename_i heq; cases heq)
      rw [hnote]
      have hkept := kept_cmd hst hswept hproc hremove (exec_writes cfg x s.db c)
      apply swept_quiet hs hswept hok hstep
      · intro i' x' job st body c' sts ha hproc' _
        cases ha
        cases hproc.symm.trans hproc'
      · exact .inr hkept.1
      · exact hkept.2.1
      · exact hkept.2.2
  | stmtErr x hproc hexec =>
    apply hquiet _ rfl
    · intro i x' job st body c sts ha hproc' hexec'
      cases ha
      cases hproc.symm.trans hproc'
      simp [hexec] at hexec'
    · apply removals_stage hproc
      · rintro rfl
        simp only [Stmt.exec] at hexec
        split at hexec <;> cases hexec
      · rintro rfl
        cases hexec
      · rintro template rfl
        cases hexec
  | bodyDone x hproc =>
    apply hquiet (by simp only [removals, hproc]) rfl
    intro i x' job st body c sts ha hproc' _
    cases ha
    cases hproc.symm.trans hproc'
  | _ => exact hquiet rfl rfl (by intro _ _ _ _ _ _ _ ha; cases ha)

theorem swept_run {tr : List Label} {p : Sys × Removals}
    (h : Run (withNotes (step cfg) (removals r)) (Rebuilding cfg r) (Sys.start, Removals.start) tr p) :
    Snapshot p.1 ∧ Leased p.1 ∧ Staged p.1 ∧ Swept cfg r p.2 p.1 := by
  apply h.invariant (I := fun p => Snapshot p.1 ∧ Leased p.1 ∧ Staged p.1 ∧ Swept cfg r p.2 p.1)
  · exact ⟨snapshot_start, leased_start, staged_start, swept_start⟩
  · rintro ⟨s, b⟩ a ⟨s', b'⟩ ⟨hs, hl, hst, hswept⟩ hok hstep
    have hboth := withNotes_eq_some.mp hstep
    have hmoved := step_moved hboth.1
    refine ⟨snapshot_moved hs hmoved, leased_moved hs hl hok.reapsDead hmoved,
      staged_moved hst hmoved, ?_⟩
    rw [hboth.2]
    exact swept_moved hs hl hst hswept hok hmoved

/-- What a removal is to leave of the speakers it removed. -/
structure Forgotten (r : Uuid) (b : Removals) (content : Content) : Prop where
  /-- Chunks are made of the utterances that are left. -/
  built : ∀ k ∈ content.chunks, k.recordingId = r →
    k.toNewChunk ∈ Embed.buildChunks (content.listUtterances r)
  index : ∀ idx ∈ b.speakers, ∀ k ∈ content.chunks, k.recordingId = r → k.localIdx ≠ some idx
  summary : ∀ y ∈ content.summaries, y.recordingId = r → b.summary y.template = b.count

/-- In every run in which each removal is followed up, once no removal is between its
statements and no embed or summarize job is live, the removed speakers are forgotten. -/
theorem forgotten_of_rebuilding {tr : List Label} {p : Sys × Removals}
    (h : Run (withNotes (step cfg) (removals r)) (Rebuilding cfg r) (Sys.start, Removals.start) tr p)
    (hremoved : 0 < p.2.count) (hlive : ∀ k, Rebuilt k → ¬ Live p.1 r k)
    (hpending : ∀ i k, Rebuilt k → ¬ (p.1.procs i).rebuilds r k) :
    Forgotten r p.2 p.1.db.content := by
  have hswept := (swept_run h).2.2.2
  have hup (k : JobKind) (hk : Rebuilt k) : UpToDate r p.2 p.1.db.content k := by
    rcases hswept.owed k hk with hzero | hup | ⟨i, hi⟩ | hl
    · omega
    · exact hup
    · exact absurd hi (hpending i k hk)
    · exact absurd hl (hlive k hk)
  have hchunks : ChunksFresh r p.1.db.content := hup .embed (.inl rfl)
  refine ⟨hchunks, fun idx hidx k hk hr hlocal => ?_, hup .summarize (.inr rfl)⟩
  rcases localIdx_of_mem_buildChunks (hchunks k hk hr) with ⟨u, hu, heq⟩
  have hmem : u ∈ p.1.db.content.utterancesOf r := by
    rwa [Content.listUtterances, List.mem_insertionSort] at hu
  exact hswept.gone u hmem idx hidx (heq.symm.trans hlocal)

/-- A recording with two speakers goes through the pipeline as far as its merge. -/
def mergedRun : List Label :=
  [Label.request 0 (.create 7)] ++ steps 0 1 ++ [Label.request 1 (.complete 7 none none)] ++ steps 1 4 ++
  [Label.claim 2 1 [.transcode] 1] ++ steps 2 8 ++
  [Label.claim 3 1 [.transcribe] 3, .claim 4 2 [.diarize] 2] ++ steps 3 4 ++ steps 4 1 ++
  [Label.step 4 { turns := [⟨0, 0, 900⟩, ⟨1, 900, 1800⟩] }] ++ steps 4 8 ++
  [Label.claim 5 1 [.merge] 4] ++ steps 5 3 ++
  [Label.step 5 { utterances := [⟨some 0, 0, 900, "hi", []⟩, ⟨some 1, 900, 1800, "yes", []⟩] }] ++
  steps 5 6

/-- The embed stage has read when speaker 0 is removed; both enqueues meet live jobs. -/
def droppedRun : List Label :=
  mergedRun ++ [Label.claim 6 1 [.embed] 5] ++ steps 6 1 ++
  [Label.request 8 (.deleteSpeaker 7 0)] ++ steps 8 7 ++ steps 6 5 ++
  [Label.claim 7 1 [.summarize] 6] ++ steps 7 6

def droppedState : Sys × Removals :=
  (exec (withNotes (step {}) (removals 7)) (Sys.start, Removals.start) droppedRun).get
    (by decide +kernel)

theorem not_forgotten :
    ¬ ∀ (tr : List Label) (p : Sys × Removals) (r : Uuid),
      Run (withNotes (step {}) (removals r)) anyStep (Sys.start, Removals.start) tr p →
      0 < p.2.count → (∀ k, ¬ Live p.1 r k) → (∀ i k, ¬ (p.1.procs i).rebuilds r k) →
      Forgotten r p.2 p.1.db.content := by
  intro h
  have hstate : droppedState.2.speakers = [0] ∧ 0 < droppedState.2.count ∧
      (droppedState.1.db.content.chunks.any fun k => k.recordingId == 7 && k.localIdx == some 0) ∧
      ∀ k ∈ JobKind.all, droppedState.1.db.jobs.has 7 k Job.isLive = false := by decide +kernel
  have hlive (k : JobKind) : ¬ Live droppedState.1 7 k := by
    rw [Live, hstate.2.2.2 k (by cases k <;> decide)]
    exact Bool.false_ne_true
  have hprocs (i : ℕ) (k : JobKind) : ¬ (droppedState.1.procs i).rebuilds 7 k := by
    have hnone : ∀ k ∈ JobKind.all, ∀ i < 9, ¬ (droppedState.1.procs i).rebuilds 7 k := by
      decide +kernel
    by_cases hi : i < 9
    · exact hnone k (by cases k <;> decide) i hi
    · rcases Nat.exists_eq_add_of_le' (Nat.le_of_not_lt hi) with ⟨n, rfl⟩
      exact id
  have hforgotten := h droppedRun droppedState 7 (run_of_isSome _) hstate.2.1 hlive hprocs
  rcases List.any_eq_true.mp hstate.2.2.1 with ⟨k, hk, hof⟩
  rw [Bool.and_eq_true, beq_iff_eq, beq_iff_eq] at hof
  exact hforgotten.index 0 (by rw [hstate.1]; exact List.mem_cons_self) k hk hof.1 hof.2

/-- The same removal when the pipeline is done: both stages run again. -/
def sweptRun : List Label :=
  mergedRun ++ [Label.claim 6 1 [.embed] 5] ++ steps 6 6 ++ [Label.claim 7 1 [.summarize] 6] ++ steps 7 6 ++
  [Label.request 8 (.deleteSpeaker 7 0)] ++ steps 8 5 ++
  [Label.claim 9 1 [.embed] 7] ++ steps 9 6 ++ [Label.claim 10 1 [.summarize] 8] ++ steps 10 6

def Flow.isNext : Flow → Bool
  | .next _ => true
  | _ => false

/-- The test of a removal that is followed up, looking at the first `n` processes. -/
def followsUp (n : ℕ) (r : Uuid) (p : Sys × Removals) : Label → Bool
  | .request _ q => !q.first.restarts r
  | .claim _ _ _ id => (p.1.db.jobs.row id).all fun row => row.payload.template.isNone
  | .step i x =>
    match p.1.procs i with
    | .todo (.insertJob r' k payload strict :: _) =>
      ((Cmd.insertJob r' k payload strict).exec {} x p.1.db).2.isNext &&
        (List.range n).all fun j => !Stale r k p.1 p.2 j
    | .todo (.failUpdate _ _ _ :: _) | .todo (.reapStuck :: _) => false
    | .todo (c :: _) => (c.exec {} x p.1.db).2.isNext ||
        [JobKind.embed, .summarize].all fun k => !(p.1.procs i).rebuilds r k
    | .stage _ (st :: _) => p.2.count == 0 || !Stmt.rewrites r st
    | _ => true
  | .stop _ => false
  | _ => true

theorem rebuilding_of_followsUp {n : ℕ} {p : Sys × Removals} (hs : p.1.Within n)
    (h : followsUp n r p a = true) : Rebuilding {} r p a := by
  cases a with
  | request i q =>
    have hno : ¬ q.first.restarts r := by simpa [followsUp] using h
    exact hno
  | claim i w kinds id =>
    intro row hrow _ _
    simp only [followsUp, hrow, Option.all_some, Option.isNone_iff_eq_none] at h
    rw [summarizeTemplate, h]
    rfl
  | stop i => cases h
  | step i x =>
    refine ⟨?_, ?_, ?_, ?_, ?_⟩
    · intro c rest hproc hflow k hk hrebuilds
      have hnext : (c.exec {} x p.1.db).2.isNext = false := by
        cases hf : (c.exec {} x p.1.db).2 with
        | next cs => exact absurd hf (hflow cs)
        | _ => rfl
      have hno : ∀ k ∈ [JobKind.embed, .summarize], ¬ (p.1.procs i).rebuilds r k := by
        cases c <;> simp only [followsUp, hproc, hnext, Bool.false_and, Bool.false_or,
        Bool.false_eq_true] at h <;> simpa [hproc] using h
      rcases hk with rfl | rfl
      · exact hno _ (by simp) hrebuilds
      · exact hno _ (by simp) hrebuilds
    · intro k payload strict rest hproc _
      left
      rintro j hstale
      simp only [followsUp, hproc, Bool.and_eq_true, List.all_eq_true, List.mem_range] at h
      by_cases hj : j < n
      · simpa [hstale] using h.2 j hj
      · rw [Stale, hs j (by omega)] at hstale
        exact hstale.1
    · intro job error m rest hproc
      simp [followsUp, hproc] at h
    · intro rest hproc
      simp [followsUp, hproc] at h
    · intro job st body hproc hpos
      simpa [followsUp, hproc, Nat.pos_iff_ne_zero.mp hpos] using h
  | _ => trivial

def sweptState : Sys × Removals :=
  (exec (guarded (withNotes (step {}) (removals 7)) (amid 11 (followsUp 11 7)))
    (Sys.start, Removals.start) sweptRun).get (by decide +kernel)

theorem run_sweptState : Run (withNotes (step {}) (removals 7)) (Rebuilding {} 7)
    (Sys.start, Removals.start) sweptRun sweptState ∧ sweptState.1.Within 11 :=
  run_of_amid_notes _ fun _ _ => rebuilding_of_followsUp

theorem forgotten_of_rebuilding_sweptState :
    sweptState.1.db.content.chunks.length = 1 ∧
      Forgotten 7 sweptState.2 sweptState.1.db.content := by
  have hstate : (0 < sweptState.2.count ∧ sweptState.1.db.content.chunks.length = 1) ∧
      (∀ k ∈ JobKind.all, sweptState.1.db.jobs.has 7 k Job.isLive = false) ∧
      ∀ k ∈ JobKind.all, ∀ i < 11, ¬ (sweptState.1.procs i).rebuilds 7 k := by decide +kernel
  have hall (k : JobKind) : k ∈ JobKind.all := by cases k <;> decide
  refine ⟨hstate.1.2, forgotten_of_rebuilding run_sweptState.1 hstate.1.1 (fun k _ => ?_)
    fun i k _ => ?_⟩
  · rw [Live, hstate.2.1 k (hall k)]
    exact Bool.false_ne_true
  · by_cases hi : i < 11
    · exact hstate.2.2 k (hall k) i hi
    · rw [run_sweptState.2 i (Nat.le_of_not_lt hi)]
      exact id

end ScribeLocal.Server
