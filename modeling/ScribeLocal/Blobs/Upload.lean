import Mathlib
import ScribeLocal.Blobs.System

/-!
# The file and the row of a segment

Uploads of one segment share a temporary file and a final name, and each of them renames
first and writes the row after. What the row says and what the file holds agree in the end
unless two uploads mix.
-/
namespace ScribeLocal.Blobs
open FileSystem Pipeline Transition

/-! ## Names -/

theorem dot_notMem_zeroPadded (n : ℤ) : '.' ∉ (zeroPadded n).toList := by
  intro h
  have hdot := mem_zeroPadded h
  simp at hdot

theorem zeroPadded_toList_ne_nil (n : ℤ) : (zeroPadded n).toList ≠ [] := by
  have hdigits : (toString n.natAbs).toList ≠ [] := by
    rw [Nat.toString_eq_repr, Nat.toList_repr]
    exact Nat.toDigits_ne_nil
  unfold zeroPadded
  simp only [String.toList_append]
  exact fun h => hdigits (List.append_eq_nil_iff.mp h).2

/-- No temporary file has the name of a segment. -/
theorem tmpPath_ne_segmentPath (blobs : Path) (r : Uuid) (seq seq' : ℤ) (ext ext' : String) :
    tmpPath blobs r seq ext ≠ segmentPath blobs r seq' ext' := by
  intro h
  have hname := congrArg String.toList (List.singleton_inj.mp (List.append_cancel_left h))
  simp only [String.toList_append] at hname
  rcases hlist : (zeroPadded seq').toList with _ | ⟨c, rest⟩
  · exact zeroPadded_toList_ne_nil seq' hlist
  · rw [hlist] at hname
    have hc : c = '.' := by
      have hhead := congrArg List.head? hname
      simpa using hhead.symm
    exact dot_notMem_zeroPadded seq' (by simp [hlist, hc])

theorem resolveKey_segmentKey (blobs : Path) (r : Uuid) (seq : ℤ) (ext : String) :
    resolveKey blobs (segmentKey r seq ext) = segmentPath blobs r seq ext := by
  simp [resolveKey, segmentKey, segmentPath, segmentsDir, recordingDir]

/-! ## Uploads that do not mix -/

section Uploads
variable (sha256 : Bytes → Bytes) (blobs : Path) (r : Uuid)

def SegmentRow.Describes (row : SegmentRow) (c : Bytes) : Prop :=
  row.bytes = c.length ∧ row.sha256 = sha256 c

/-- Process `j` has renamed but not written its row, and its bytes are what the name leads to. -/
def Owing (s : Store) (j : ℕ) (p : Path) : Prop :=
  ∃ u sent, s.procs j = .putRow u sent ∧ segmentPath blobs r u.seq u.ext = p ∧
    s.fs.read p = some sent

/-- The write changes no file that is published as the segment. -/
def Harmless (seq : ℤ) (s : Store) (n : FileId) (k : ℕ) (bytes : Bytes) : Prop :=
  ∀ ext, s.fs.files (segmentPath blobs r seq ext) = some n →
    Fs.splice (s.fs.data n) k bytes = s.fs.data n

/-- Only uploads of segment `seq`. None changes what is already published, one that renames
the temporary file finds just its own body in it, and one that writes its row, or is cut off
before, is not the one whose bytes stay published under a row that says otherwise. -/
def Unmixed (seq : ℤ) (s : Store) : Label → Prop
  | .put _ u => u.seq = seq
  | .transcode _ _ | .delete _ => False
  | .step i =>
    match s.procs i with
    | .putStream _ n sent (chunk :: _) => Harmless blobs r seq s n sent.length chunk
    | .putRename u sent => ∀ c, s.fs.read (tmpPath blobs r u.seq u.ext) = some c → c = sent
    | .putRow u sent => s.fs.read (segmentPath blobs r u.seq u.ext) = some sent ∨
      ∃ j ≠ i, Owing blobs r s j (segmentPath blobs r u.seq u.ext)
    | _ => True
  | .fail i | .stop i =>
    match s.procs i with
    | .putRow u _ => (∀ row, s.segments seq = some row →
        resolveKey blobs row.storageKey = segmentPath blobs r u.seq u.ext →
        ∃ c, s.fs.read (segmentPath blobs r u.seq u.ext) = some c ∧ row.Describes sha256 c) ∨
      ∃ j ≠ i, Owing blobs r s j (segmentPath blobs r u.seq u.ext)
    | _ => True
  | .writeErr i k _ =>
    match s.procs i with
    | .putStream _ n sent (chunk :: _) => Harmless blobs r seq s n sent.length (chunk.take k)
    | _ => True
  | .output _ _ => True

/-! ## The invariant -/

/-- How much of its body a process has sent. -/
def Proc.Sends (seq : ℤ) (tr : List Label) (i : ℕ) : Proc → Prop
  | .idle | .ended _ => True
  | .putRead u | .putDir u | .putCreate u => .put i u ∈ tr ∧ u.seq = seq
  | .putStream u _ sent rest => (.put i u ∈ tr ∧ u.seq = seq) ∧ sent ++ rest.flatten = u.body
  | .putRename u sent | .putRow u sent => (.put i u ∈ tr ∧ u.seq = seq) ∧ sent = u.body
  | _ => False

structure Tidy (seq : ℤ) (tr : List Label) (s : Store) : Prop where
  sends : ∀ i, (s.procs i).Sends seq tr i
  /-- What is published is the whole body of one request. -/
  published : ∀ ext c, s.fs.read (segmentPath blobs r seq ext) = some c →
    ∃ i u, Label.put i u ∈ tr ∧ u.body = c
  row : ∀ row, s.segments seq = some row → ∃ ext,
    resolveKey blobs row.storageKey = segmentPath blobs r seq ext ∧
      ∃ c, s.fs.read (segmentPath blobs r seq ext) = some c ∧
        (row.Describes sha256 c ∨ ∃ j, Owing blobs r s j (segmentPath blobs r seq ext))
  done : ∀ i, s.procs i = .ended true → s.segments seq ≠ none
  recorded : s.recorded = true

end Uploads

variable {sha256 : Bytes → Bytes} {blobs : Path} {r : Uuid} {seq : ℤ} {s s' : Store} {a : Label}
  {tr : List Label}

theorem sends_mono {i : ℕ} {p : Proc} (h : p.Sends seq tr i) : p.Sends seq (tr ++ [a]) i := by
  have hmem {u : Upload} (hu : Label.put i u ∈ tr) : Label.put i u ∈ tr ++ [a] :=
    List.mem_append_left _ hu
  cases p with
  | putRead | putDir | putCreate => exact ⟨hmem h.1, h.2⟩
  | putStream | putRename | putRow => exact ⟨⟨hmem h.1.1, h.1.2⟩, h.2⟩
  | _ => exact h

/-- One process is set, the others go on. -/
theorem sends_setProc {i : ℕ} {p : Proc} {s₁ : Store} (hprocs : s₁.procs = s.procs)
    (h : ∀ j, (s.procs j).Sends seq tr j) (hp : p.Sends seq (tr ++ [a]) i) (j : ℕ) :
    ((s₁.setProc i p).procs j).Sends seq (tr ++ [a]) j := by
  by_cases hj : j = i
  · subst hj
    rwa [Store.setProc_self]
  · rw [Store.setProc_of_ne hj, hprocs]
    exact sends_mono (h j)

theorem Tidy.published_mono (h : Tidy sha256 blobs r seq tr s) {ext : String} {c : Bytes}
    (hc : s.fs.read (segmentPath blobs r seq ext) = some c) :
    ∃ i u, Label.put i u ∈ tr ++ [a] ∧ u.body = c := by
  rcases h.published ext c hc with ⟨i, u, hmem, hu⟩
  exact ⟨i, u, List.mem_append_left _ hmem, hu⟩

theorem tidy_start : Tidy sha256 blobs r seq [] Store.start where
  sends _ := trivial
  published _ _ h := nomatch h
  row _ h := nomatch h
  done _ h := nomatch h
  recorded := rfl

/-- A turn of an upload brings neither success nor a file. -/
theorem sends_turn {i : ℕ} {p p' : Proc} (h : Turn blobs r s p p') (hp : p.Sends seq tr i) :
    p'.Sends seq tr i ∧ p' ≠ .ended true := by
  cases h with
  | found u => exact ⟨hp, nofun⟩
  | flushed u n sent => exact ⟨⟨hp.1, by simpa using hp.2⟩, nofun⟩
  | spawned | checked | kept | unchecked | decoded | known => exact hp.elim
  | refused => exact ⟨trivial, nofun⟩

/-- Nor does the end of one. -/
theorem sends_cut {i : ℕ} {p p' : Proc} (h : p' = p.failed ∨ p' = p.stopped)
    (hp : p.Sends seq tr i) : p'.Sends seq tr i ∧ (p' = .ended true → p = .ended true) := by
  cases p with
  | idle | ended => rcases h with rfl | rfl <;> exact ⟨trivial, id⟩
  | putRead | putDir | putCreate | putStream | putRename | putRow =>
    rcases h with rfl | rfl <;> exact ⟨trivial, nofun⟩
  | _ => exact hp.elim

/-- Where the published files stay as they are and no process stops owing, all is as tidy as
before. -/
theorem Tidy.of_read (h : Tidy sha256 blobs r seq tr s)
    (hsends : ∀ i, (s'.procs i).Sends seq (tr ++ [a]) i)
    (hread : ∀ ext, s'.fs.read (segmentPath blobs r seq ext) = s.fs.read (segmentPath blobs r seq ext))
    (hsegments : s'.segments = s.segments) (hrecorded : s'.recorded = s.recorded)
    (howing : ∀ j u sent, s.procs j = .putRow u sent → s'.procs j = .putRow u sent)
    (hended : ∀ i, s'.procs i = .ended true → s.procs i = .ended true) :
    Tidy sha256 blobs r seq (tr ++ [a]) s' where
  sends := hsends
  published ext c hc := by
    rw [hread] at hc
    exact h.published_mono hc
  row row hrow := by
    rw [hsegments] at hrow
    rcases h.row row hrow with ⟨ext, hkey, c, hc, hdesc⟩
    refine ⟨ext, hkey, c, (hread ext).trans hc, hdesc.imp_right ?_⟩
    rintro ⟨j, u, sent, hproc, hpath, hsent⟩
    exact ⟨j, u, sent, howing j u sent hproc, hpath, (hread ext).trans hsent⟩
  done i hi := by
    rw [hsegments]
    exact h.done i (hended i hi)
  recorded := hrecorded.trans h.recorded

/-- The same for a step of process `i` that was not about to write its row. -/
theorem Tidy.of_move (h : Tidy sha256 blobs r seq tr s) {i : ℕ} {p : Proc} {s₁ : Store}
    (hprocs : s₁.procs = s.procs) (hsegments : s₁.segments = s.segments)
    (hrecorded : s₁.recorded = s.recorded)
    (hread : ∀ ext, s₁.fs.read (segmentPath blobs r seq ext) = s.fs.read (segmentPath blobs r seq ext))
    (hp : p.Sends seq (tr ++ [a]) i) (hrow : ∀ u sent, s.procs i ≠ .putRow u sent)
    (hended : p = .ended true → s.procs i = .ended true) :
    Tidy sha256 blobs r seq (tr ++ [a]) (s₁.setProc i p) := by
  refine Tidy.of_read h (?_ : ∀ j, ((s₁.setProc i p).procs j).Sends seq (tr ++ [a]) j) ?_ ?_ ?_ ?_ ?_
  · exact sends_setProc hprocs h.sends hp
  · exact hread
  · exact hsegments
  · exact hrecorded
  · intro j u sent hproc
    have hj : j ≠ i := by
      rintro rfl
      exact hrow u sent hproc
    rwa [Store.setProc_of_ne hj, hprocs]
  · intro j hj
    by_cases hji : j = i
    · subst hji
      rw [Store.setProc_self] at hj
      exact hended hj
    · rwa [Store.setProc_of_ne hji, hprocs] at hj

/-- A write keeps what is published. -/
theorem read_write_harmless {n : FileId} {k : ℕ} {bytes : Bytes}
    (h : Harmless blobs r seq s n k bytes) (ext : String) :
    (s.fs.write n k bytes).read (segmentPath blobs r seq ext) =
      s.fs.read (segmentPath blobs r seq ext) := by
  by_cases hn : s.fs.files (segmentPath blobs r seq ext) = some n
  · rw [Fs.read_write hn, h ext hn, Fs.read_eq_some.mpr ⟨n, hn, rfl⟩]
  · exact Fs.read_write_of_ne hn

theorem read_createDirAll {fs : Fs String UInt8} {d p : Path} (h : s.fs.createDirAll d = some fs) :
    fs.read p = s.fs.read p := by
  rcases Fs.files_createDirAll h with ⟨hfiles, hdata⟩
  rw [Fs.read, hfiles, hdata, Fs.read]

theorem owing_of_ne {i j : ℕ} {p : Path} {q : Proc} {s₁ : Store} (h : Owing blobs r s j p)
    (hj : j ≠ i) (hprocs : s₁.procs = s.procs) (hfs : s₁.fs = s.fs) :
    Owing blobs r (s₁.setProc i q) j p := by
  rcases h with ⟨u, sent, hproc, hpath, hsent⟩
  refine ⟨u, sent, ?_, hpath, ?_⟩
  · rwa [Store.setProc_of_ne hj, hprocs]
  · rwa [Store.setProc_fs, hfs]

/-- The rename of an upload publishes its body, and leaves other names alone. -/
theorem tidy_rename (h : Tidy sha256 blobs r seq tr s) {i : ℕ} {u : Upload} {sent : Bytes}
    {fs : Fs String UInt8} (hproc : s.procs i = .putRename u sent)
    (hfs : s.fs.rename (tmpPath blobs r u.seq u.ext) (segmentPath blobs r u.seq u.ext) = some fs)
    (hown : ∀ c, s.fs.read (tmpPath blobs r u.seq u.ext) = some c → c = sent) :
    Tidy sha256 blobs r seq (tr ++ [a]) (({ s with fs := fs } : Store).setProc i (.putRow u sent)) := by
  have hsends := h.sends i
  rw [hproc] at hsends
  have htarget : fs.read (segmentPath blobs r u.seq u.ext) = some sent := by
    rw [Fs.read_rename_target hfs]
    rcases Option.isSome_iff_exists.mp (Fs.rename_eq_some hfs).1 with ⟨n, hn⟩
    have hread : s.fs.read (tmpPath blobs r u.seq u.ext) = some (s.fs.data n) :=
      Fs.read_eq_some.mpr ⟨n, hn, rfl⟩
    rw [hread, hown _ hread]
  have hothers (ext : String) (hne : segmentPath blobs r seq ext ≠ segmentPath blobs r u.seq u.ext) :
      fs.read (segmentPath blobs r seq ext) = s.fs.read (segmentPath blobs r seq ext) :=
    Fs.read_rename_of_ne hfs (tmpPath_ne_segmentPath blobs r u.seq seq u.ext ext).symm hne
  constructor
  · exact sends_setProc rfl h.sends (sends_mono (p := .putRow u sent) hsends)
  · intro ext c hc
    by_cases hpath : segmentPath blobs r seq ext = segmentPath blobs r u.seq u.ext
    · have hcs : c = sent := Option.some.inj ((hpath ▸ hc : fs.read _ = some c).symm.trans htarget)
      exact ⟨i, u, List.mem_append_left _ hsends.1.1, (hcs.trans hsends.2).symm⟩
    · exact h.published_mono ((hothers ext hpath).symm.trans hc)
  · intro row hrow
    rcases h.row row hrow with ⟨ext, hkey, c, hc, hdesc⟩
    by_cases hpath : segmentPath blobs r seq ext = segmentPath blobs r u.seq u.ext
    · refine ⟨ext, hkey, sent, hpath ▸ htarget, .inr ⟨i, u, sent, Store.setProc_self, hpath.symm, ?_⟩⟩
      rw [hpath]
      exact htarget
    · refine ⟨ext, hkey, c, (hothers ext hpath).trans hc, hdesc.imp_right ?_⟩
      rintro ⟨j, v, sent', hproc', hpath', hsent'⟩
      have hj : j ≠ i := by
        rintro rfl
        cases hproc.symm.trans hproc'
      refine ⟨j, v, sent', ?_, hpath', (hothers ext hpath).trans hsent'⟩
      rwa [Store.setProc_of_ne hj]
  · intro j hj
    have hji : j ≠ i := by
      rintro rfl
      rw [Store.setProc_self] at hj
      cases hj
    rw [Store.setProc_of_ne hji] at hj
    exact h.done j hj
  · exact h.recorded

/-- The row that an upload writes describes its file, or that of another one that is about to
write its row. -/
theorem tidy_row (h : Tidy sha256 blobs r seq tr s) {i : ℕ} {u : Upload} {sent : Bytes}
    (hproc : s.procs i = .putRow u sent)
    (hown : s.fs.read (segmentPath blobs r u.seq u.ext) = some sent ∨
      ∃ j ≠ i, Owing blobs r s j (segmentPath blobs r u.seq u.ext)) :
    Tidy sha256 blobs r seq (tr ++ [a]) (({ s with segments := Function.update s.segments u.seq (some
      ⟨segmentKey r u.seq u.ext, u.startMs, u.durationMs, sent.length, sha256 sent⟩) } :
        Store).setProc i (.ended true)) := by
  have hsends := h.sends i
  rw [hproc] at hsends
  constructor
  · exact sends_setProc rfl h.sends trivial
  · exact fun ext c hc => h.published_mono hc
  · intro row hrow
    obtain ⟨-, rfl⟩ := hsends.1
    simp only [Store.setProc_segments, Function.update_self, Option.some.injEq] at hrow
    subst hrow
    refine ⟨u.ext, resolveKey_segmentKey blobs r u.seq u.ext, ?_⟩
    rcases hown with hown | ⟨j, hj, howing⟩
    · exact ⟨sent, hown, .inl ⟨rfl, rfl⟩⟩
    · obtain ⟨v, sent', -, -, hread⟩ := id howing
      exact ⟨sent', hread, .inr ⟨j, owing_of_ne howing hj rfl rfl⟩⟩
  · intro j _
    simp [← hsends.1.2]
  · exact h.recorded

/-- An upload that is cut off before its row leaves a row that is right about its file, or
another upload that is about to write its row. -/
theorem tidy_cut (h : Tidy sha256 blobs r seq tr s) {i : ℕ} {u : Upload} {sent : Bytes}
    (hproc : s.procs i = .putRow u sent)
    (hown : (∀ row, s.segments seq = some row →
        resolveKey blobs row.storageKey = segmentPath blobs r u.seq u.ext →
        ∃ c, s.fs.read (segmentPath blobs r u.seq u.ext) = some c ∧ row.Describes sha256 c) ∨
      ∃ j ≠ i, Owing blobs r s j (segmentPath blobs r u.seq u.ext)) :
    Tidy sha256 blobs r seq (tr ++ [a]) (s.setProc i (.ended false)) := by
  constructor
  · exact sends_setProc rfl h.sends trivial
  · exact fun ext c hc => h.published_mono hc
  · intro row hrow
    rcases h.row row hrow with ⟨ext, hkey, c, hc, hdesc⟩
    by_cases hpath : segmentPath blobs r u.seq u.ext = segmentPath blobs r seq ext
    · rw [hpath] at hown
      rcases hown with hright | ⟨j, hj, howing⟩
      · rcases hright row hrow hkey with ⟨c', hc', hdesc'⟩
        exact ⟨ext, hkey, c', hc', .inl hdesc'⟩
      · exact ⟨ext, hkey, c, hc, .inr ⟨j, owing_of_ne howing hj rfl rfl⟩⟩
    · refine ⟨ext, hkey, c, hc, hdesc.imp_right ?_⟩
      rintro ⟨j, howing⟩
      have hj : j ≠ i := by
        rintro rfl
        obtain ⟨v, sent', hproc', hpath', -⟩ := howing
        cases hproc.symm.trans hproc'
        exact hpath hpath'
      exact ⟨j, owing_of_ne howing hj rfl rfl⟩
  · intro j hj
    have hji : j ≠ i := by
      rintro rfl
      rw [Store.setProc_self] at hj
      cases hj
    rw [Store.setProc_of_ne hji] at hj
    exact h.done j hj
  · exact h.recorded

theorem tidy_moved (h : Tidy sha256 blobs r seq tr s) (hok : Unmixed sha256 blobs r seq s a)
    (hmoved : Moved sha256 blobs r s a s') : Tidy sha256 blobs r seq (tr ++ [a]) s' := by
  have hother {i : ℕ} {p : Proc} (hproc : s.procs i = p) (hp : ¬ p.Sends seq tr i) :
      Tidy sha256 blobs r seq (tr ++ [a]) s' :=
    absurd (hproc ▸ h.sends i) hp
  cases hmoved with
  | @put i u hidle =>
    refine h.of_move rfl rfl rfl (fun _ => rfl) ?_ (fun _ _ => by simp [hidle]) nofun
    exact ⟨List.mem_append_right _ (List.mem_singleton_self _), hok⟩
  | transcode | delete => exact hok.elim
  | @turn i p hturn =>
    rcases sends_turn hturn (h.sends i) with ⟨hp, hended⟩
    refine h.of_move rfl rfl rfl (fun _ => rfl) (sends_mono hp) ?_ (fun heq => absurd heq hended)
    intro u sent hproc
    rw [hproc] at hturn
    -- the foreign key holds as long as nobody deletes the recording
    cases hturn with
    | refused _ _ hrow =>
      have hunknown := hrow u sent rfl
      rw [h.recorded] at hunknown
      cases hunknown
  | @cut i a p hcut =>
    have hp : p = (s.procs i).failed ∨ p = (s.procs i).stopped := hcut.imp And.right And.right
    rcases sends_cut hp (h.sends i) with ⟨hsends, hended⟩
    by_cases hrow : ∃ u sent, s.procs i = .putRow u sent
    · rcases hrow with ⟨u, sent, hproc⟩
      rw [hproc] at hcut
      rcases hcut with ⟨rfl, rfl⟩ | ⟨rfl, rfl⟩
      all_goals
        simp only [Unmixed, hproc] at hok
        exact tidy_cut h hproc hok
    · push Not at hrow
      exact h.of_move rfl rfl rfl (fun _ => rfl) (sends_mono hsends) hrow hended
  | @putDir i u fs hproc hfs =>
    have hsends := h.sends i
    rw [hproc] at hsends
    refine h.of_move rfl rfl rfl (fun _ => read_createDirAll hfs) ?_ (fun _ _ => by simp [hproc]) nofun
    exact sends_mono (p := .putCreate u) hsends
  | @putCreate i u fs n hproc hfs =>
    have hsends := h.sends i
    rw [hproc] at hsends
    refine h.of_move rfl rfl rfl (fun ext => ?_) ?_ (fun _ _ => by simp [hproc]) nofun
    · exact Fs.read_create_of_ne hfs (tmpPath_ne_segmentPath blobs r u.seq seq u.ext ext).symm
    · exact sends_mono (p := .putStream u n [] u.chunks) ⟨hsends, rfl⟩
  | @putStream i u n sent chunk rest hproc =>
    simp only [Unmixed, hproc] at hok
    have hsends := h.sends i
    rw [hproc] at hsends
    refine h.of_move rfl rfl rfl (read_write_harmless hok) ?_ (fun _ _ => by simp [hproc]) nofun
    apply sends_mono (p := .putStream u n (sent ++ chunk) rest)
    exact ⟨hsends.1, by simpa using hsends.2⟩
  | putRename hproc hfs =>
    simp only [Unmixed, hproc] at hok
    exact tidy_rename h hproc hfs hok
  | putRow hproc _ =>
    simp only [Unmixed, hproc] at hok
    exact tidy_row h hproc hok
  | @putErr i k u n sent chunk rest removed fs hproc hfs =>
    simp only [Unmixed, hproc] at hok
    refine h.of_move rfl rfl rfl (fun ext => ?_) trivial (fun _ _ => by simp [hproc]) nofun
    rcases hfs with ⟨rfl, -⟩ | hfs
    · exact read_write_harmless hok ext
    · have hname := tmpPath_ne_segmentPath blobs r u.seq seq u.ext ext
      exact (Fs.read_remove_of_ne hfs hname.symm).trans (read_write_harmless hok ext)
  | callDir hproc | callList hproc | callErr hproc | ffmpegOut hproc | ffmpegErr hproc
  | output _ hproc | callClean hproc | wavClean hproc | deleteDir hproc | deleteRow hproc =>
    exact hother hproc id

/-- The row of segment `seq` describes the file it names, which is the body of one request. -/
def RowRight (sha256 : Bytes → Bytes) (blobs : Path) (seq : ℤ) (tr : List Label) (s : Store) : Prop :=
  ∃ row c, s.segments seq = some row ∧ s.fs.read (resolveKey blobs row.storageKey) = some c ∧
    row.Describes sha256 c ∧ ∃ i u, Label.put i u ∈ tr ∧ u.body = c

/-- Where uploads do not mix, in the end the row describes the file. -/
theorem rowRight_of_unmixed
    (h : Run (Store.step sha256 blobs r) (Unmixed sha256 blobs r seq) Store.start tr s)
    (hover : ∀ i, (s.procs i).isOver = true) (hdone : ∃ i, s.procs i = .ended true) :
    RowRight sha256 blobs seq tr s := by
  have htidy : Tidy sha256 blobs r seq tr s :=
    h.history tidy_start fun _ _ _ _ _ ht hok hs => tidy_moved ht hok (step_moved hs)
  rcases hdone with ⟨i, hi⟩
  rcases Option.ne_none_iff_exists'.mp (htidy.done i hi) with ⟨row, hrow⟩
  rcases htidy.row row hrow with ⟨ext, hkey, c, hc, hdesc⟩
  have hsettled : ¬ ∃ j, Owing blobs r s j (segmentPath blobs r seq ext) := by
    rintro ⟨j, u, sent, hproc, -⟩
    have hj := hover j
    rw [hproc] at hj
    cases hj
  refine ⟨row, c, hrow, ?_, hdesc.resolve_right hsettled, htidy.published ext c hc⟩
  rw [hkey]
  exact hc

/-- Any function will do for a test. -/
def byteSum (c : Bytes) : Bytes := [c.sum]

def firstBody : Upload := ⟨1, "m4a", none, none, [[1], [2]]⟩
def secondBody : Upload := ⟨1, "m4a", none, none, [[3]]⟩

/-- Process `i` takes `n` steps. -/
def runs (i n : ℕ) : List Label := List.replicate n (.step i)

/-- The second upload renames and writes its row between the rename and the row of the first. -/
def overtaken : List Label :=
  [Label.put 0 firstBody, .put 1 secondBody] ++ runs 0 7 ++ runs 1 7 ++ runs 0 1

/-- The second upload comes when the first has been cut off. -/
def retried : List Label := [Label.put 0 firstBody] ++ runs 0 4 ++ [Label.stop 0, .put 1 secondBody] ++ runs 1 7

def overtakenState : Store :=
  (exec (Store.step byteSum ["blobs"] 7) Store.start overtaken).get (by decide +kernel)

/-- The row is that of the first upload, the file that of the second. -/
theorem not_rowRight_overtakenState :
    Run (Store.step byteSum ["blobs"] 7) anyStep Store.start overtaken overtakenState ∧
      (∀ i, (overtakenState.procs i).isOver = true) ∧
      (overtakenState.procs 0 = .ended true ∧ overtakenState.procs 1 = .ended true) ∧
      ¬ RowRight byteSum ["blobs"] 1 overtaken overtakenState := by
  refine ⟨run_of_isSome _, fun i => ?_, ⟨rfl, rfl⟩, ?_⟩
  · rcases i with _ | _ | i <;> rfl
  · rintro ⟨row, c, hrow, hc, hdesc, -⟩
    have hfacts : overtakenState.segments 1 =
        some ⟨["7", "segments", "000001.m4a"], none, none, 2, [3]⟩ ∧
        overtakenState.fs.read ["blobs", "7", "segments", "000001.m4a"] = some [3] := by
      decide +kernel
    cases hrow.symm.trans hfacts.1
    cases hc.symm.trans hfacts.2
    exact absurd hdesc.1 (by decide)

/-- A test that a step mixes no uploads. -/
def keepsToItself (blobs : Path) (r : Uuid) (seq : ℤ) (s : Store) : Label → Bool
  | .put _ u => u.seq == seq
  | .transcode _ _ | .delete _ | .writeErr _ _ _ => false
  | .step i =>
    match s.procs i with
    | .putStream u n _ (_ :: _) => s.fs.files (tmpPath blobs r u.seq u.ext) == some n
    | .putRename u sent => s.fs.read (tmpPath blobs r u.seq u.ext) == some sent
    | .putRow u sent => s.fs.read (segmentPath blobs r u.seq u.ext) == some sent
    | _ => true
  | .fail i | .stop i =>
    match s.procs i with
    | .putRow _ _ => false
    | _ => true
  | .output _ _ => true

theorem unmixed_of_keepsToItself (h : keepsToItself blobs r seq s a = true) :
    Unmixed sha256 blobs r seq s a := by
  cases a with
  | put i u => exact eq_of_beq h
  | transcode | delete | writeErr => cases h
  | output => trivial
  | step i =>
    simp only [keepsToItself] at h
    simp only [Unmixed]
    split at h
    · next u n sent chunk rest hproc =>
      intro ext hn
      exact absurd (s.fs.one_name _ _ n (eq_of_beq h) hn)
        (tmpPath_ne_segmentPath blobs r u.seq seq u.ext ext)
    · next u sent hproc =>
      intro c hc
      exact Option.some.inj (hc.symm.trans (eq_of_beq h))
    · exact .inl (eq_of_beq h)
    · trivial
  | fail i | stop i =>
    simp only [keepsToItself] at h
    simp only [Unmixed]
    split at h
    · cases h
    · trivial

def retriedState : Store :=
  (exec (guarded (Store.step byteSum ["blobs"] 7) (keepsToItself ["blobs"] 7 1)) Store.start
    retried).get (by decide +kernel)

theorem rowRight_of_unmixed_retriedState : RowRight byteSum ["blobs"] 1 retried retriedState := by
  apply rowRight_of_unmixed (r := 7) (s := retriedState)
  · exact run_of_guarded _ fun _ _ => unmixed_of_keepsToItself
  · intro i
    rcases i with _ | _ | i <;> rfl
  · exact ⟨1, rfl⟩

end ScribeLocal.Blobs
