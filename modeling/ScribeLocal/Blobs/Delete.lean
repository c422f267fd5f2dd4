import ScribeLocal.Blobs.Upload

/-!
# What a delete leaves on disk

A delete removes the folder before it deletes the row, so that no audio is left without a
row. An upload and a transcode make the folder anew where it is missing, and can do so
between the two.
-/
namespace ScribeLocal.Blobs
open FileSystem Pipeline Transition

variable {sha256 : Bytes → Bytes} {blobs : Path} {r : Uuid} {s s' : Store} {a : Label}
  {tr : List Label}

/-- The recording's row is gone, or a delete has removed the folder and is about to delete it. -/
def Doomed (s : Store) : Prop := s.recorded = false ∨ ∃ j, s.procs j = .deleteRow

/-- The path lies in the recording's folder. -/
def Inside (blobs : Path) (r : Uuid) (p : Path) : Prop :=
  recordingDir blobs r <+: p ∧ p ≠ recordingDir blobs r

/-- There is no file in the recording's folder. -/
def NoAudio (blobs : Path) (r : Uuid) (s : Store) : Prop :=
  ∀ p, Inside blobs r p → s.fs.files p = none

/-- A process other than `i` is going to take the file away. -/
def Others (blobs : Path) (r : Uuid) (s : Store) (i : ℕ) (p : Path) : Prop :=
  ∃ j, j ≠ i ∧ (s.procs j).Takes blobs r p

/-- Once the recording is doomed nobody brings a file into the folder, or leaves one there, that
no process is going to take away. -/
def LeftAlone (blobs : Path) (r : Uuid) (s : Store) (a : Label) : Prop :=
  Doomed s →
    match a with
    | .step i =>
      match s.procs i with
      | .putRename u _ => s.fs.files (tmpPath blobs r u.seq u.ext) = none ∨
        ∃ j, s.procs j = .deleteDir
      | .ffmpeg c _ => Inside blobs r c.out →
        s.fs.create c.out = none ∨ ∃ j, (s.procs j).Takes blobs r c.out
      | _ => True
    | .writeErr i _ removed =>
      match s.procs i with
      | .putStream u _ _ _ => removed = true ∨ s.fs.files (tmpPath blobs r u.seq u.ext) = none ∨
        Others blobs r s i (tmpPath blobs r u.seq u.ext)
      | .callList c => Inside blobs r (listPath c.out) → Others blobs r s i (listPath c.out)
      | _ => True
    | .fail i => ∀ p, Inside blobs r p → (s.procs i).Takes blobs r p →
      (s.procs i).failed.Takes blobs r p ∨ s.fs.files p = none ∨ Others blobs r s i p
    | .stop i => ∀ p, Inside blobs r p → (s.procs i).Takes blobs r p →
      s.fs.files p = none ∨ Others blobs r s i p
    | _ => True

/-! ## What is there is going to be taken away -/

def Swept (blobs : Path) (r : Uuid) (s : Store) : Prop :=
  ∀ p, Inside blobs r p → s.fs.files p ≠ none → ∃ j, (s.procs j).Takes blobs r p

/-- A step of process `i`: what is new in the folder, and what the process was going to take
away, is still seen to. -/
theorem Swept.of_step (h : Swept blobs r s) {i : ℕ} {q : Proc} {s₁ : Store}
    (hprocs : s₁.procs = s.procs)
    (hleft : ∀ p, Inside blobs r p → s₁.fs.files p ≠ none →
      s.fs.files p = none ∨ (s.procs i).Takes blobs r p → q.Takes blobs r p ∨ Others blobs r s i p) :
    Swept blobs r (s₁.setProc i q) := by
  intro p hp hsome
  have hseen (hseen : q.Takes blobs r p ∨ Others blobs r s i p) :
      ∃ j, ((s₁.setProc i q).procs j).Takes blobs r p := by
    rcases hseen with hq | ⟨j, hj, htakes⟩
    · exact ⟨i, by rwa [Store.setProc_self]⟩
    · exact ⟨j, by rwa [Store.setProc_of_ne hj, hprocs]⟩
  by_cases hold : s.fs.files p = none
  · exact hseen (hleft p hp hsome (.inl hold))
  · rcases h p hp hold with ⟨j, hj⟩
    by_cases hji : j = i
    · exact hseen (hleft p hp hsome (.inr (hji ▸ hj)))
    · exact hseen (.inr ⟨j, hji, hj⟩)

/-- No file is new, and what the process was going to take away it still does, or it is gone. -/
theorem Swept.of_files (h : Swept blobs r s) {i : ℕ} {q : Proc} {s₁ : Store}
    (hprocs : s₁.procs = s.procs) (hfiles : ∀ p, s₁.fs.files p = s.fs.files p)
    (htakes : ∀ p, Inside blobs r p → (s.procs i).Takes blobs r p →
      q.Takes blobs r p ∨ s.fs.files p = none ∨ Others blobs r s i p) :
    Swept blobs r (s₁.setProc i q) := by
  apply h.of_step hprocs
  intro p hp hsome hor
  rw [hfiles] at hsome
  rcases hor with hnone | hi
  · exact absurd hnone hsome
  · rcases htakes p hp hi with hq | hnone | hothers
    · exact .inl hq
    · exact absurd hnone hsome
    · exact .inr hothers

/-- The file at `p₀` is removed, which is all that the process no longer takes away. -/
theorem Swept.of_remove (h : Swept blobs r s) {i : ℕ} {q : Proc} {p₀ : Path} {s₁ : Store}
    (hprocs : s₁.procs = s.procs) (hgone : s₁.fs.files p₀ = none)
    (hother : ∀ p, p ≠ p₀ → s₁.fs.files p = s.fs.files p)
    (htakes : ∀ p, p ≠ p₀ → (s.procs i).Takes blobs r p → q.Takes blobs r p) :
    Swept blobs r (s₁.setProc i q) := by
  apply h.of_step hprocs
  intro p hp hsome hor
  have hne : p ≠ p₀ := fun heq => hsome (heq ▸ hgone)
  rw [hother p hne] at hsome
  rcases hor with hnone | hi
  · exact absurd hnone hsome
  · exact .inl (htakes p hne hi)

theorem files_create {fs fs' : Fs String UInt8} {p q : Path} {n : FileId}
    (h : fs.create q = some (fs', n)) (hp : p ≠ q) : fs'.files p = fs.files p :=
  ((Fs.create_eq_some h).2.2.2.1 p hp).1

/-- The process opens the file at `p₀` for writing, and it or another is going to remove it. -/
theorem Swept.of_create (h : Swept blobs r s) {i : ℕ} {q : Proc} {p₀ : Path} {s₁ : Store}
    {fs : Fs String UInt8} {n : FileId} (hcreate : s.fs.create p₀ = some (fs, n))
    (hfs : s₁.fs.files = fs.files) (hprocs : s₁.procs = s.procs)
    (htakes : ∀ p, (s.procs i).Takes blobs r p → q.Takes blobs r p)
    (hnew : Inside blobs r p₀ → q.Takes blobs r p₀ ∨ Others blobs r s i p₀) :
    Swept blobs r (s₁.setProc i q) := by
  apply h.of_step hprocs
  intro p hp hsome hor
  by_cases hne : p = p₀
  · subst hne
    exact hnew hp
  · rw [hfs, files_create hcreate hne] at hsome
    rcases hor with hnone | hi
    · exact absurd hnone hsome
    · exact .inl (htakes p hi)

/-- Another process is about to remove the folder. -/
theorem Swept.of_deleteDir {i j : ℕ} {q : Proc} {s₁ : Store} (hprocs : s₁.procs = s.procs)
    (hj : s.procs j = .deleteDir) (hji : j ≠ i) : Swept blobs r (s₁.setProc i q) := by
  intro p _ _
  refine ⟨j, ?_⟩
  rw [Store.setProc_of_ne hji, hprocs, hj]
  trivial

theorem swept_deleteDir {i : ℕ} {q : Proc} :
    Swept blobs r (({ s with fs := (s.fs.removeDirAll (recordingDir blobs r)).getD s.fs } :
      Store).setProc i q) := by
  intro p hp hsome
  rw [Store.setProc_fs] at hsome
  cases hremove : s.fs.removeDirAll (recordingDir blobs r) with
  | none =>
    rw [hremove] at hsome
    exact absurd (Fs.files_of_removeDirAll_eq_none hremove hp.1 hp.2) hsome
  | some fs =>
    rw [hremove] at hsome
    exact absurd (Fs.files_removeDirAll hremove hp.1) hsome

/-- Only the removal of the folder dooms a recording. -/
theorem doomed_moved (hmoved : Moved sha256 blobs r s a s') (h : Doomed s') :
    Doomed s ∨ ∃ i, a = .step i ∧ s.procs i = .deleteDir := by
  have hset {i : ℕ} {q : Proc} {s₁ : Store} (hprocs : s₁.procs = s.procs)
      (hrecorded : s₁.recorded = s.recorded) (hq : q ≠ .deleteRow)
      (h : Doomed (s₁.setProc i q)) : Doomed s := by
    rcases h with hgone | ⟨j, hj⟩
    · exact .inl (hrecorded ▸ hgone)
    · have hji : j ≠ i := by
        rintro rfl
        rw [Store.setProc_self] at hj
        exact hq hj
      rw [Store.setProc_of_ne hji, hprocs] at hj
      exact .inr ⟨j, hj⟩
  have hafter {c : Transcode} {waited ok : Bool} : afterFfmpeg c waited ok ≠ .deleteRow := by
    unfold afterFfmpeg
    split <;> exact nofun
  cases hmoved with
  | deleteDir hproc => exact .inr ⟨_, rfl, hproc⟩
  | deleteRow hproc => exact .inl (.inr ⟨_, hproc⟩)
  | @turn i q hturn =>
    left
    refine hset rfl rfl ?_ h
    generalize s.procs i = p at hturn
    cases hturn <;> exact nofun
  | @cut i a q hcut =>
    left
    by_cases hdelete : s.procs i = .deleteRow
    · exact .inr ⟨i, hdelete⟩
    · refine hset rfl rfl ?_ h
      rintro rfl
      cases hproc : s.procs i with
      | ffmpeg c waited => simp [hproc, Proc.failed, Proc.stopped, hafter.symm] at hcut
      | ffmpegOut c n waited => simp [hproc, Proc.failed, Proc.stopped, hafter.symm] at hcut
      | _ => simp [hproc, Proc.failed, Proc.stopped] at hcut
  | ffmpegErr | output => exact .inl (hset rfl rfl hafter h)
  | putDir | putCreate | putStream | putRename | putRow | putErr | callDir | callList | callErr
  | ffmpegOut | callClean | wavClean | put | transcode | delete =>
    left
    refine hset ?_ ?_ ?_ h
    · rfl
    · rfl
    · exact nofun

/-- A turn takes over what was to be taken away, save for files that are not there. -/
theorem takes_turn {p q : Proc} {x : Path} (h : Turn blobs r s p q)
    (hrename : ∀ u sent, p ≠ .putRename u sent) (hp : p.Takes blobs r x) :
    q.Takes blobs r x ∨ s.fs.files x = none := by
  cases h with
  | found | known => exact hp.elim
  | flushed | spawned | decoded => exact .inl hp
  | checked => exact .inl hp.2
  | kept htemp =>
    rw [hp.1] at htemp
    cases htemp
  | @unchecked c ok hout =>
    cases ok with
    | false => exact hp.elim
    | true => exact .inr (hp.2 ▸ hout rfl)
  | refused _ htakes =>
    rcases htakes with hnothing | ⟨u, sent, heq⟩
    · exact absurd hp (hnothing x)
    · exact absurd heq (hrename u sent)

theorem takes_afterFfmpeg {c : Transcode} {n : FileId} {waited : Bool} {x : Path}
    (h : (Proc.ffmpegOut c n waited).Takes blobs r x) :
    (afterFfmpeg c waited true).Takes blobs r x := by
  cases waited
  · exact h.elim
  · exact h

/-- A delete leaves nothing in the folder. -/
theorem swept_moved_deleteDir {i : ℕ} (h : Moved sha256 blobs r s (.step i) s')
    (hdelete : s.procs i = .deleteDir) : Swept blobs r s' := by
  have hwrong {p : Proc} (hproc : s.procs i = p) (hp : p ≠ .deleteDir) : Swept blobs r s' :=
    absurd (hproc.symm.trans hdelete) hp
  cases h with
  | deleteDir => exact swept_deleteDir
  | turn hturn =>
    rw [hdelete] at hturn
    cases hturn with
    | refused _ htakes =>
      rcases htakes with hnothing | ⟨u, sent, heq⟩
      · exact absurd trivial (hnothing [])
      · cases heq
  | cut hcut => simp at hcut
  | putDir hproc | putCreate hproc | putStream hproc | putRename hproc | putRow hproc
  | callDir hproc | callList hproc | ffmpegOut hproc | ffmpegErr hproc | callClean hproc
  | wavClean hproc | deleteRow hproc => exact hwrong hproc nofun

theorem swept_moved (h : Doomed s → Swept blobs r s) (hok : LeftAlone blobs r s a)
    (hmoved : Moved sha256 blobs r s a s') (hdoomed' : Doomed s') : Swept blobs r s' := by
  rcases doomed_moved hmoved hdoomed' with hdoomed | ⟨i, rfl, hdelete⟩
  · have hswept := h hdoomed
    have hleft := hok hdoomed
    have hnothing {i : ℕ} {p : Proc} (hproc : s.procs i = p)
        (hp : ∀ x, ¬ p.Takes blobs r x) (x : Path) : ¬ (s.procs i).Takes blobs r x := by
      rw [hproc]
      exact hp x
    cases hmoved with
    | put _ hidle | transcode _ hidle | delete hidle =>
      refine hswept.of_files rfl (fun _ => rfl) fun x _ hx => ?_
      exact absurd hx (hnothing hidle (fun _ => id) x)
    | @turn i q hturn =>
      by_cases hrename : ∃ u sent, s.procs i = .putRename u sent
      · rcases hrename with ⟨u, sent, hproc⟩
        simp only [hproc] at hleft
        refine hswept.of_files rfl (fun _ => rfl) fun x _ hx => ?_
        rw [hproc] at hx
        rcases hleft with hnone | ⟨j, hj⟩
        · exact .inr (.inl (hx ▸ hnone))
        · refine .inr (.inr ⟨j, ?_, by rw [hj]; trivial⟩)
          rintro rfl
          simp [hproc] at hj
      · push Not at hrename
        refine hswept.of_files rfl (fun _ => rfl) fun x _ hx => ?_
        exact (takes_turn hturn hrename hx).imp id .inl
    | cut hcut =>
      refine hswept.of_files rfl (fun _ => rfl) fun x hx htakes => ?_
      rcases hcut with ⟨rfl, rfl⟩ | ⟨rfl, rfl⟩
      · exact hleft x hx htakes
      · exact .inr (hleft x hx htakes)
    | putDir hproc hfs | callDir hproc hfs =>
      refine hswept.of_files rfl (fun p => ?_) fun x _ hx => ?_
      · exact congrFun (Fs.files_createDirAll hfs).1 p
      · exact absurd hx (hnothing hproc (fun _ => id) x)
    | putCreate hproc hfs =>
      refine hswept.of_create hfs rfl rfl ?_ ?_
      · exact fun x hx => absurd hx (hnothing hproc (fun _ => id) x)
      · exact fun _ => .inl rfl
    | putStream hproc =>
      refine hswept.of_files rfl (fun _ => rfl) fun x _ hx => ?_
      exact .inl (by rwa [hproc] at hx)
    | @putRename i u sent fs hproc hfs =>
      simp only [hproc] at hleft
      rcases hleft with hnone | ⟨j, hj⟩
      · have hsome := (Fs.rename_eq_some hfs).1
        simp [hnone] at hsome
      · refine Swept.of_deleteDir rfl hj ?_
        rintro rfl
        simp [hproc] at hj
    | putRow hproc _ | deleteRow hproc =>
      refine hswept.of_files rfl (fun _ => rfl) fun x _ hx => ?_
      exact absurd hx (hnothing hproc (fun _ => id) x)
    | @putErr i k u n sent chunk rest removed fs hproc hfs =>
      simp only [hproc] at hleft
      rcases hfs with ⟨rfl, hremoved⟩ | hfs
      · refine hswept.of_files rfl (fun _ => rfl) fun x _ hx => ?_
        rw [hproc] at hx
        cases hx
        exact .inr (hleft.elim (fun hyes => .inl (hremoved hyes)) id)
      · refine hswept.of_remove rfl (Fs.files_remove_self hfs) ?_ ?_
        · intro p hp
          have hsame := Fs.files_remove_of_ne hfs hp
          exact hsame
        · intro x hx htakes
          rw [hproc] at htakes
          exact absurd htakes hx
    | callList hproc hfs =>
      refine hswept.of_create hfs rfl rfl ?_ ?_
      · exact fun x hx => absurd hx (hnothing hproc (fun _ => id) x)
      · exact fun _ => .inl (.inl rfl)
    | callErr hproc hfs =>
      simp only [hproc] at hleft
      refine hswept.of_create hfs rfl rfl ?_ ?_
      · exact fun x hx => absurd hx (hnothing hproc (fun _ => id) x)
      · exact fun hx => .inr (hleft hx)
    | @ffmpegOut i c waited fs n hproc hfs =>
      simp only [hproc] at hleft
      have htakes {x : Path} (hx : (Proc.ffmpeg c waited).Takes blobs r x) :
          (Proc.ffmpegOut c n waited).Takes blobs r x := by
        cases waited <;> exact hx
      refine hswept.of_create hfs rfl rfl ?_ fun hp => ?_
      · exact fun x hx => htakes (by rwa [hproc] at hx)
      · rcases hleft hp with hnone | ⟨j, hj⟩
        · rw [hnone] at hfs
          cases hfs
        · by_cases hji : j = i
          · rw [hji, hproc] at hj
            exact .inl (htakes hj)
          · exact .inr ⟨j, hji, hj⟩
    | @ffmpegErr i c waited hproc hfs =>
      refine hswept.of_files rfl (fun _ => rfl) fun x _ hx => ?_
      rw [hproc] at hx
      cases waited with
      | false => exact hx.elim
      | true =>
        rcases hx with hx | ⟨-, rfl⟩
        · exact .inl hx
        · exact .inr (.inl (Fs.files_of_create_eq_none hfs))
    | output wav hproc =>
      refine hswept.of_files rfl (fun _ => rfl) fun x _ hx => ?_
      exact .inl (takes_afterFfmpeg (hproc ▸ hx))
    | @callClean i c ok hproc =>
      refine hswept.of_remove rfl Fs.files_remove_getD_self ?_ ?_
      · exact fun p hp => Fs.files_remove_getD_of_ne hp
      · intro x hx htakes
        rw [hproc] at htakes
        cases ok with
        | false => exact absurd htakes hx
        | true => exact htakes.resolve_left hx
    | wavClean hproc =>
      refine hswept.of_remove rfl Fs.files_remove_getD_self ?_ ?_
      · exact fun p hp => Fs.files_remove_getD_of_ne hp
      · intro x hx htakes
        rw [hproc] at htakes
        exact absurd htakes hx
    | deleteDir hproc => exact swept_deleteDir
  · exact swept_moved_deleteDir hmoved hdelete

/-- Where nothing is left in a folder that a delete has removed, no audio outlives the row. -/
theorem noAudio_of_leftAlone {s₀ : Store} (hrecorded : s₀.recorded = true)
    (hidle : ∀ i, (s₀.procs i).isOver = true)
    (h : Run (Store.step sha256 blobs r) (LeftAlone blobs r) s₀ tr s)
    (hover : ∀ i, (s.procs i).isOver = true) (hgone : s.recorded = false) : NoAudio blobs r s := by
  have hsettled {s : Store} (hover : ∀ i, (s.procs i).isOver = true) {i : ℕ} {p : Proc}
      (hp : p.isOver = false) : s.procs i ≠ p := by
    intro heq
    rw [← heq, hover i] at hp
    cases hp
  have hstart : Doomed s₀ → Swept blobs r s₀ := by
    rintro (hnone | ⟨j, hj⟩)
    · rw [hrecorded] at hnone
      cases hnone
    · exact absurd hj (hsettled hidle rfl)
  have hswept : Doomed s → Swept blobs r s :=
    h.invariant hstart fun _ _ _ ht hok hs => swept_moved ht hok (step_moved hs)
  intro p hp
  by_contra hsome
  rcases hswept (.inl hgone) p hp hsome with ⟨j, hj⟩
  have hj' := hover j
  cases hproc : s.procs j with
  | idle | ended => rwa [hproc] at hj
  | _ => simp [hproc, Proc.isOver] at hj'

/-- The upload makes the folder anew between the two halves of the delete. -/
def orphaned : List Label :=
  [Label.put 0 firstBody, .delete 1] ++ runs 0 1 ++ runs 1 2 ++ runs 0 6 ++ runs 1 1 ++ runs 0 1

def orphanedState : Store :=
  (exec (Store.step byteSum ["blobs"] 7) Store.start orphaned).get (by decide +kernel)

/-- The segment is on disk and nothing points at it. -/
theorem not_noAudio_orphanedState :
    Run (Store.step byteSum ["blobs"] 7) anyStep Store.start orphaned orphanedState ∧
      (∀ i, (orphanedState.procs i).isOver = true) ∧ orphanedState.recorded = false ∧
      ¬ NoAudio ["blobs"] 7 orphanedState := by
  refine ⟨run_of_isSome _, fun i => ?_, rfl, fun h => ?_⟩
  · rcases i with _ | _ | i <;> rfl
  · have hnone := h ["blobs", "7", "segments", "000001.m4a"] ⟨by decide, by decide⟩
    have hsome : (orphanedState.fs.files ["blobs", "7", "segments", "000001.m4a"]).isSome := by
      decide +kernel
    rw [hnone] at hsome
    cases hsome

/-- A test that a step leaves nothing in the folder. -/
def leavesNothing (blobs : Path) (r : Uuid) (s : Store) : Label → Bool
  | .step i =>
    match s.procs i with
    | .putRename u _ => (s.fs.files (tmpPath blobs r u.seq u.ext)).isNone
    | .ffmpeg _ _ => false
    | _ => true
  | .fail _ | .stop _ | .writeErr _ _ _ => false
  | _ => true

theorem leftAlone_of_leavesNothing (h : leavesNothing blobs r s a = true) : LeftAlone blobs r s a := by
  intro _
  cases a with
  | put | transcode | delete | output => trivial
  | fail | stop | writeErr => cases h
  | step i =>
    simp only [leavesNothing] at h
    dsimp only
    split at h
    · exact .inl (Option.isNone_iff_eq_none.mp h)
    · cases h
    · trivial

/-- The upload has its temporary file open when the delete removes the folder. -/
def cutShort : List Label :=
  [Label.put 0 firstBody, .delete 1] ++ runs 0 4 ++ runs 1 2 ++ runs 0 3 ++ runs 1 1

def cutShortState : Store :=
  (exec (guarded (Store.step byteSum ["blobs"] 7) (leavesNothing ["blobs"] 7)) Store.start
    cutShort).get (by decide +kernel)

theorem noAudio_of_leftAlone_cutShortState : NoAudio ["blobs"] 7 cutShortState := by
  have hrun : Run (Store.step byteSum ["blobs"] 7) (LeftAlone ["blobs"] 7) Store.start cutShort
      cutShortState := run_of_guarded _ fun _ _ => leftAlone_of_leavesNothing
  refine noAudio_of_leftAlone rfl (fun _ => rfl) hrun (fun i => ?_) rfl
  rcases i with _ | _ | i <;> rfl

end ScribeLocal.Blobs
