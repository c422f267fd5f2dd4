import ScribeLocal.Cli.Models

/-!
# What pulls leave on the disk

However often pulls run, fail and are killed, a file of the recipe is what it was or what
upstream served, and nothing else is written but `.part` files.
-/
namespace ScribeLocal.Models
open FileSystem Transition

variable {cfg : Config} {served : String → Response → Prop} {fs fs' fs₀ : Disk} {s s' : Machine}
  {a : Label} {d e : Download} {p q : Path} {c : Bytes} {rest : List Download} {r : Response}
  {tr : List Label}

/-! ## The recipe -/

/-- Ends the names of files that are still coming. -/
def Partial (p : Path) : Prop := ∃ dir name, p = dir ++ [name ++ ".part"]

theorem partial_part (d : Download) : Partial d.part :=
  ⟨d.dest.dropLast, stem (d.dest.getLastD ""), by
    rw [Download.part, withExtension, String.append_assoc]
    rfl⟩

theorem name_ne_part {name stem : String} (h : name.toList.reverse.take 4 ≠ "trap".toList) :
    name ≠ stem ++ ".part" := by
  rintro rfl
  apply h
  simp [String.toList_append]

theorem not_partial {dir : Path} {name : String} (h : name.toList.reverse.take 4 ≠ "trap".toList) :
    ¬ Partial (dir ++ [name]) := by
  rintro ⟨dir', stem, heq⟩
  have hlast := (List.append_inj' heq rfl).2
  exact name_ne_part h (List.cons.inj hlast).1

theorem asrFiles_name {f : String × String × ℕ} (h : f ∈ asrFiles cfg.model) :
    f.2.1.toList.reverse.take 4 ≠ "trap".toList := by
  unfold asrFiles at h
  split at h
  · revert f
    decide
  · split at h
    · revert f
      decide
    · cases h

/-- Where a file of the recipe goes. -/
theorem dest_of_mem_plan (h : d ∈ plan cfg) :
    (∃ f ∈ asrFiles cfg.model, d.dest = cfg.asrDir ++ [f.2.1]) ∨
      ∃ name ∈ ["segmentation.onnx", "embedding.onnx"], d.dest = cfg.diarDir ++ [name] := by
  rcases List.mem_append.mp h with h | h
  · obtain ⟨f, hf, rfl⟩ := List.mem_map.mp h
    exact .inl ⟨f, hf, rfl⟩
  · unfold diarPlan at h
    split at h
    · rcases List.mem_pair.mp h with rfl | rfl
      · exact .inr ⟨"segmentation.onnx", by simp, rfl⟩
      · exact .inr ⟨"embedding.onnx", by simp, rfl⟩
    · cases h

theorem not_partial_of_mem_plan (h : d ∈ plan cfg) : ¬ Partial d.dest := by
  rcases dest_of_mem_plan h with ⟨f, hf, heq⟩ | ⟨name, hname, heq⟩
  · rw [heq]
    exact not_partial (asrFiles_name hf)
  · rw [heq]
    clear heq
    apply not_partial
    revert name
    decide

/-- No file of the recipe goes where another is. -/
theorem nodup_dests (cfg : Config) : ((plan cfg).map Download.dest).Nodup := by
  have hasr : ((asrPlan cfg).map Download.dest).Nodup := by
    have hnames : ((asrFiles cfg.model).map fun f => f.2.1).Nodup := by
      unfold asrFiles
      split
      · decide
      · split <;> decide
    have heq : (asrPlan cfg).map Download.dest =
        ((asrFiles cfg.model).map fun f => f.2.1).map fun name => cfg.asrDir ++ [name] := by
      simp [asrPlan]
    rw [heq]
    exact hnames.map fun a b h => by simpa using h
  have hdiar : ((diarPlan cfg).map Download.dest).Nodup := by
    unfold diarPlan
    split
    · simp
    · exact List.nodup_nil
  rw [plan, List.map_append, List.nodup_append]
  refine ⟨hasr, hdiar, ?_⟩
  rintro _ ha _ hb rfl
  obtain ⟨d, hd, heq⟩ := List.mem_map.mp ha
  obtain ⟨e, he, heq'⟩ := List.mem_map.mp hb
  obtain ⟨f, -, rfl⟩ := List.mem_map.mp hd
  unfold diarPlan at he
  split at he
  · have hlength := congrArg List.length (heq.trans heq'.symm)
    rcases List.mem_pair.mp he with rfl | rfl <;>
      simp [Config.asrDir, Config.diarDir] at hlength
  · cases he

theorem dest_inj (hd : d ∈ plan cfg) (he : e ∈ plan cfg) (h : d.dest = e.dest) : d = e :=
  List.inj_on_of_nodup_map (nodup_dests cfg) hd he h

/-- No file of the recipe goes where the folder of another is. -/
theorem not_prefix_dropLast (hd : d ∈ plan cfg) (he : e ∈ plan cfg) :
    ¬ d.dest <+: e.dest.dropLast := by
  intro h
  have hlength := h.length_le
  rcases dest_of_mem_plan hd with ⟨f, -, heq⟩ | ⟨name, -, heq⟩ <;>
    rcases dest_of_mem_plan he with ⟨f', -, heq'⟩ | ⟨name', -, heq'⟩ <;>
    rw [heq, heq', List.dropLast_concat] at h hlength
  · simp at hlength
  · simp [Config.asrDir, Config.diarDir] at hlength
  · simp [Config.asrDir, Config.diarDir, List.prefix_append_right_inj] at h
  · simp at hlength

/-! ## What a step leaves alone -/

/-- What the pull under way still has to fetch. -/
def Proc.todo : Proc → List Download
  | next todo => todo
  | asking d rest | opening d rest _ | receiving d rest _ _ _ | checking d rest _ _
  | placing d rest => d :: rest
  | discarding d => [d]
  | idle | ended _ => []

/-- The `.part` holds what has been received. -/
def Proc.Sound (served : String → Response → Prop) (fs : Disk) : Proc → Prop
  | opening d _ r => served d.url r
  | receiving d _ r file written => served d.url r ∧ fs.files d.part = some file ∧
      fs.data file = r.body.take written ∧ written ≤ r.body.length
  | checking d _ r written => served d.url r ∧ fs.read d.part = some (r.body.take written) ∧
      (r.contentLength = none → written = r.body.length)
  | placing d _ => ∃ r, served d.url r ∧ fs.read d.part = some r.body
  | _ => True

/-- Upstream answers a request with what it serves, and a body that comes without its length in a
framing of its own, so that the stream of one cut short breaks off with an error. -/
def Upstream (served : String → Response → Prop) (p : Proc) : Label → Prop
  | .respond r => ∀ d rest, p = .asking d rest → served d.url r
  | .finish => ∀ d rest r file written, p = .receiving d rest r file written →
      served d.url r → r.contentLength = none → written = r.body.length
  | _ => True

def Honest (served : String → Response → Prop) (s : Machine) (a : Label) : Prop :=
  Upstream served s.proc a

theorem sound_turn {p p' : Proc} (hok : Upstream served p a) (hp : p.Sound served fs)
    (h : Turn cfg fs a p p') : p'.Sound served fs := by
  cases h with
  | pull | done | short | broken | failed | stopped => exact trivial
  | stays => exact hp
  | respond d rest r => exact hok d rest rfl
  | finish d rest r file written =>
    obtain ⟨hserved, hfile, hdata, -⟩ := hp
    exact ⟨hserved, Fs.read_eq_some.mpr ⟨file, hfile, hdata⟩, hok d rest r file written rfl hserved⟩
  | @whole d rest r written hlength =>
    obtain ⟨hserved, hread, hunlengthed⟩ := hp
    have hwritten : written = r.body.length := by
      cases hc : r.contentLength with
      | none => exact hunlengthed hc
      | some n => exact (hlength n hc).symm.trans (r.length_eq n hc)
    rw [hwritten, List.take_length] at hread
    exact ⟨r, hserved, hread⟩

theorem sound_moved (hok : Honest served s a) (hp : s.proc.Sound served s.fs) (h : Moved cfg s a s') :
    s'.proc.Sound served s'.fs := by
  cases h with
  | turn hturn => exact sound_turn hok hp hturn
  | createDir | rename | discard => exact trivial
  | create hproc hfs =>
    rw [hproc] at hp
    obtain ⟨hfile, hdata, -⟩ := Fs.create_eq_some hfs
    exact ⟨hp, hfile, by rw [hdata, List.take_zero], Nat.zero_le _⟩
  | @chunk d rest r file written k hproc =>
    rw [hproc] at hp
    obtain ⟨hserved, hfile, hdata, hle⟩ := hp
    refine ⟨hserved, hfile, ?_, ?_⟩
    · have hlength : (r.body.take written).length = written := List.length_take_of_le hle
      have hsplice := Fs.splice_length (r.body.take written) ((r.body.drop written).take k)
      have htake := List.prefix_iff_eq_take.mp (List.take_prefix k (r.body.drop written))
      rw [hlength] at hsplice
      rw [List.take_add, ← htake]
      simp only [Fs.write, hdata, Function.update_self, hsplice]
    · rw [List.length_take, List.length_drop]
      omega

/-- Nothing is read otherwise but what the pull writes, and what it puts in place. -/
theorem read_moved (hp : s.proc.Sound served s.fs) (h : Moved cfg s a s') (p : Path) :
    s'.fs.read p = s.fs.read p ∨ Partial p ∨
      ∃ d rest, s.proc = .placing d rest ∧ p = d.dest ∧ s'.fs.read p = s.fs.read d.part := by
  cases h with
  | turn hturn => exact .inl rfl
  | createDir hproc hfs =>
    obtain ⟨hfiles, hdata⟩ := Fs.files_createDirAll hfs
    exact .inl (by simp only [Fs.read, hfiles, hdata])
  | @create d rest r fs file hproc hfs =>
    by_cases hpart : p = d.part
    · exact .inr (.inl (hpart ▸ partial_part d))
    · exact .inl (Fs.read_create_of_ne hfs hpart)
  | @chunk d rest r file written k hproc =>
    by_cases hpart : p = d.part
    · exact .inr (.inl (hpart ▸ partial_part d))
    · rw [hproc] at hp
      exact .inl (Fs.read_write_of_ne fun hfile => hpart (s.fs.one_name _ _ _ hfile hp.2.1))
  | @rename d rest fs hproc hfs =>
    by_cases hpart : p = d.part
    · exact .inr (.inl (hpart ▸ partial_part d))
    · by_cases hdest : p = d.dest
      · exact .inr (.inr ⟨d, rest, hproc, hdest, hdest ▸ Fs.read_rename_target hfs⟩)
      · exact .inl (Fs.read_rename_of_ne hfs hpart hdest)
  | @discard d hproc =>
    by_cases hpart : p = d.part
    · exact .inr (.inl (hpart ▸ partial_part d))
    · simp only
      cases hr : s.fs.remove d.part with
      | none => exact .inl rfl
      | some fs => exact .inl (Fs.read_remove_of_ne hr hpart)

/-- Only what the recipe still has is left to do. -/
theorem todo_moved (h : Moved cfg s a s') (hd : d ∈ s'.proc.todo) :
    d ∈ s.proc.todo ∨ d ∈ plan cfg ∧ ∃ force, a = .pull force ∧
      (force = true ∨ present s.fs d.dest = false) := by
  cases h with
  | turn hturn =>
    generalize hp : s.proc = p at hturn ⊢
    cases hturn with
    | pull force =>
      obtain ⟨hmem, hkeep⟩ := List.mem_filter.mp hd
      exact .inr ⟨hmem, force, rfl, by simpa using hkeep⟩
    | done | failed | stopped => cases hd
    | respond | finish | whole | stays => exact .inl hd
    | short | broken => exact .inl (List.mem_singleton.mp hd ▸ List.mem_cons_self)
  | createDir hproc hfs | create hproc hfs | chunk k hproc =>
    rw [hproc]
    exact .inl hd
  | rename hproc hfs =>
    rw [hproc]
    exact .inl (List.mem_cons_of_mem _ hd)
  | discard hproc => cases hd

/-! ## Every file is whole -/

/-- The contents are a whole body that upstream has served. -/
def Served (served : String → Response → Prop) (url : String) (c : Option Bytes) : Prop :=
  ∃ r, served url r ∧ c = some r.body

structure Pulled (cfg : Config) (served : String → Response → Prop) (fs₀ : Disk) (s : Machine) :
    Prop where
  sound : s.proc.Sound served s.fs
  todo : ∀ d ∈ s.proc.todo, d ∈ plan cfg
  dest : ∀ d ∈ plan cfg, s.fs.read d.dest = fs₀.read d.dest ∨ Served served d.url (s.fs.read d.dest)
  other : ∀ p, ¬ Partial p → (∀ d ∈ plan cfg, p ≠ d.dest) → s.fs.read p = fs₀.read p

theorem pulled_moved (hok : Honest served s a) (hp : Pulled cfg served fs₀ s) (h : Moved cfg s a s') :
    Pulled cfg served fs₀ s' where
  sound := sound_moved hok hp.sound h
  todo d hd := (todo_moved h hd).elim (hp.todo d) And.left
  dest d hd := by
    rcases read_moved hp.sound h d.dest with heq | hpart | ⟨e, rest, hproc, hdest, heq⟩
    · rw [heq]
      exact hp.dest d hd
    · exact absurd hpart (not_partial_of_mem_plan hd)
    · have he : e ∈ plan cfg := hp.todo e (by rw [hproc]; exact List.mem_cons_self)
      obtain rfl := dest_inj hd he hdest
      have hsound := hp.sound
      rw [hproc] at hsound
      obtain ⟨r, hserved, hread⟩ := hsound
      exact .inr ⟨r, hserved, heq.trans hread⟩
  other p hpart hne := by
    rcases read_moved hp.sound h p with heq | hpart' | ⟨e, rest, hproc, rfl, -⟩
    · rw [heq]
      exact hp.other p hpart hne
    · exact absurd hpart' hpart
    · exact absurd rfl (hne e (hp.todo e (by rw [hproc]; exact List.mem_cons_self)))

/-- No pull is forced. -/
def Unforced (served : String → Response → Prop) (s : Machine) (a : Label) : Prop :=
  Honest served s a ∧ a ≠ .pull true

/-- What was there is not fetched. -/
theorem untouched_moved (hok : Unforced served s a) (hp : Pulled cfg served fs₀ s)
    (htodo : ∀ d ∈ s.proc.todo, fs₀.read d.dest = none)
    (hkept : ∀ p c, ¬ Partial p → fs₀.read p = some c → s.fs.read p = some c) (h : Moved cfg s a s') :
    (∀ d ∈ s'.proc.todo, fs₀.read d.dest = none) ∧
      ∀ p c, ¬ Partial p → fs₀.read p = some c → s'.fs.read p = some c := by
  constructor
  · intro d hd
    rcases todo_moved h hd with hd | ⟨hd, force, rfl, hforce⟩
    · exact htodo d hd
    · have habsent : present s.fs d.dest = false :=
        hforce.resolve_left fun htrue => hok.2 (htrue ▸ rfl)
      cases hread : fs₀.read d.dest with
      | none => rfl
      | some c =>
        have hsome := hkept d.dest c (not_partial_of_mem_plan hd) hread
        obtain ⟨file, hfile, -⟩ := Fs.read_eq_some.mp hsome
        simp [present, hfile] at habsent
  · intro p c hpart hread
    rcases read_moved hp.sound h p with heq | hpart' | ⟨d, rest, hproc, rfl, -⟩
    · rw [heq]
      exact hkept p c hpart hread
    · exact absurd hpart' hpart
    · have hnone := htodo d (by rw [hproc]; exact List.mem_cons_self)
      rw [hread] at hnone
      cases hnone

theorem pulled_run (h : Run (Machine.step cfg) (Honest served) ⟨fs₀, .idle⟩ tr s) :
    Pulled cfg served fs₀ s := by
  apply h.invariant
  · exact ⟨trivial, fun _ hd => absurd hd List.not_mem_nil, fun _ _ => .inl rfl, fun _ _ _ => rfl⟩
  · intro s a s' hp hok hstep
    exact pulled_moved hok hp (step_moved hstep)

/-- However often pulls run, fail and are killed, a file of the recipe is what it was or what
upstream served, and nothing else but `.part` files is written; unless a pull is forced, what was
there stays. -/
theorem pull_whole (h : Run (Machine.step cfg) (Honest served) ⟨fs₀, .idle⟩ tr s) :
    (∀ d ∈ plan cfg,
      s.fs.read d.dest = fs₀.read d.dest ∨ Served served d.url (s.fs.read d.dest)) ∧
    (∀ p, ¬ Partial p → (∀ d ∈ plan cfg, p ≠ d.dest) → s.fs.read p = fs₀.read p) ∧
    (.pull true ∉ tr → ∀ p c, ¬ Partial p → fs₀.read p = some c → s.fs.read p = some c) := by
  have hp := pulled_run h
  refine ⟨hp.dest, hp.other, fun hforced => ?_⟩
  suffices hkept : (∀ d ∈ s.proc.todo, fs₀.read d.dest = none) ∧
      ∀ p c, ¬ Partial p → fs₀.read p = some c → s.fs.read p = some c from hkept.2
  revert hforced
  apply h.history
  · exact fun _ => ⟨fun _ hd => absurd hd List.not_mem_nil, fun _ _ _ => id⟩
  · intro tr s a s' hrun ih hok hstep hforced
    rw [List.mem_append, not_or, List.mem_singleton] at hforced
    obtain ⟨htodo, hkept⟩ := ih hforced.1
    exact untouched_moved ⟨hok, Ne.symm hforced.2⟩ (pulled_run hrun) htodo hkept (step_moved hstep)

/-! ## A short pull -/

def tiny : Response := ⟨[1, 2], some 2, by simp⟩

def tinyServed (_ : String) (r : Response) : Prop := r = tiny

/-- The steps of one download. -/
def fetching : List Label := [.step, .respond tiny, .step, .chunk 2, .finish, .step, .step]

def speechOnly : Config := ⟨["models"], parakeet, false⟩

def emptyDisk : Machine := ⟨Fs.empty, .idle⟩

/-- Killed in the second download, and run again. -/
def cutPull : List Label :=
  .pull false :: fetching ++ fetching.take 4 ++ [.stop, .pull false] ++ fetching

theorem honest_tiny (h : ∀ r, a = .respond r → r = tiny) (s : Machine) : Honest tinyServed s a := by
  cases a with
  | respond r => exact fun _ _ _ => h r rfl
  | finish =>
    intro d rest r file written _ hserved hnone
    rw [show r = tiny from hserved] at hnone
    cases hnone
  | _ => exact trivial

def cutState : Machine := (exec (Machine.step speechOnly) emptyDisk cutPull).get (by decide +kernel)

theorem pull_whole_cutState : (∀ d ∈ plan speechOnly,
      cutState.fs.read d.dest = none ∨ Served tinyServed d.url (cutState.fs.read d.dest)) ∧
    cutState.fs.read (speechOnly.asrDir ++ ["encoder.weights"]) = some [1, 2] := by
  have hrun : Run (Machine.step speechOnly) (Honest tinyServed) emptyDisk cutPull cutState :=
    run_of_allowed (Option.some_get _).symm fun a ha s => honest_tiny (fun r hr => by
      subst hr
      simpa [cutPull, fetching] using ha) s
  exact ⟨(pull_whole hrun).1, by decide +kernel⟩

end ScribeLocal.Models
