import ScribeLocal.Cli.Pull

/-!
# What the loader finds

A pull that has come to its end leaves everything the engine looks for. One that has not leaves
nothing the engine takes up, as long as `tokens.txt` comes last.
-/
namespace ScribeLocal.Models
open FileSystem Transition

variable {cfg : Config} {served : String → Response → Prop} {fs fs' fs₀ : Disk} {s s' : Machine}
  {a : Label} {d e : Download} {p q : Path} {tr : List Label}

/-! ## What is there to be found -/

/-- What is still to come if the pull under way succeeds. -/
def Proc.remaining : Proc → Option (List Download)
  | next todo => some todo
  | asking d rest | opening d rest _ | receiving d rest _ _ _ | checking d rest _ _
  | placing d rest => some (d :: rest)
  | ended true => some []
  | idle | discarding _ | ended false => none

theorem present_iff : present fs p = true ↔ (fs.files p).isSome = true ∨ fs.dirs p = true := by
  rw [present, Bool.or_eq_true]

/-- What is there stays there, but for `.part` files. -/
theorem present_moved (h : Moved cfg s a s') (hpart : ¬ Partial p) (hp : present s.fs p = true) :
    present s'.fs p = true := by
  have hne : ∀ d : Download, p ≠ d.part := fun d heq => hpart (heq ▸ partial_part d)
  rw [present_iff] at hp ⊢
  cases h with
  | turn hturn => exact hp
  | createDir hproc hfs =>
    rw [(Fs.files_createDirAll hfs).1, Fs.dirs_createDirAll hfs]
    exact hp.imp_right .inl
  | create hproc hfs =>
    obtain ⟨-, -, hdirs, hfiles, -⟩ := Fs.create_eq_some hfs
    rw [hdirs, (hfiles p (hne _)).1]
    exact hp
  | chunk k hproc => exact hp
  | @rename d rest fs hproc hfs =>
    obtain ⟨hsome, hdirs, -, hdest, -, hother⟩ := Fs.rename_eq_some hfs
    rw [hdirs]
    by_cases heq : p = d.dest
    · rw [heq, hdest]
      exact .inl hsome
    · rw [hother p (hne d) heq]
      exact hp
  | discard hproc =>
    rw [Fs.files_remove_getD_of_ne (hne _), Fs.dirs_remove_getD]
    exact hp

/-- What is there anew is a `.part` file, a folder on the way to a file of the recipe, or such a
file. -/
theorem present_new (h : Moved cfg s a s') (hp : present s'.fs p = true) : present s.fs p = true ∨
    Partial p ∨ (∃ d ∈ s.proc.todo, p <+: d.dest.dropLast) ∨
      ∃ d rest, s.proc = .placing d rest ∧ p = d.dest := by
  rw [present_iff] at hp ⊢
  cases h with
  | turn hturn => exact .inl hp
  | @createDir d rest fs hproc hfs =>
    rw [(Fs.files_createDirAll hfs).1, Fs.dirs_createDirAll hfs] at hp
    rcases hp with hfile | hdir | hprefix
    · exact .inl (.inl hfile)
    · exact .inl (.inr hdir)
    · exact .inr (.inr (.inl ⟨d, by rw [hproc]; exact List.mem_cons_self, hprefix⟩))
  | @create d rest r fs file hproc hfs =>
    by_cases hpart : p = d.part
    · exact .inr (.inl (hpart ▸ partial_part d))
    · obtain ⟨-, -, hdirs, hfiles, -⟩ := Fs.create_eq_some hfs
      rw [hdirs, (hfiles p hpart).1] at hp
      exact .inl hp
  | chunk k hproc => exact .inl hp
  | @rename d rest fs hproc hfs =>
    obtain ⟨-, hdirs, -, -, -, hother⟩ := Fs.rename_eq_some hfs
    by_cases hpart : p = d.part
    · exact .inr (.inl (hpart ▸ partial_part d))
    · by_cases hdest : p = d.dest
      · exact .inr (.inr (.inr ⟨d, rest, hproc, hdest⟩))
      · rw [hdirs, hother p hpart hdest] at hp
        exact .inl hp
  | @discard d hproc =>
    by_cases hpart : p = d.part
    · exact .inr (.inl (hpart ▸ partial_part d))
    · rw [Fs.files_remove_getD_of_ne hpart, Fs.dirs_remove_getD] at hp
      exact .inl hp

/-- Folders are made on the way to files of the recipe only. -/
theorem dirs_new (h : Moved cfg s a s') (hp : s'.fs.dirs p = true) :
    s.fs.dirs p = true ∨ ∃ d ∈ s.proc.todo, p <+: d.dest.dropLast := by
  cases h with
  | turn hturn => exact .inl hp
  | @createDir d rest fs hproc hfs =>
    rw [Fs.dirs_createDirAll hfs] at hp
    exact hp.imp_right fun hprefix => ⟨d, by rw [hproc]; exact List.mem_cons_self, hprefix⟩
  | create hproc hfs => exact .inl ((Fs.create_eq_some hfs).2.2.1 ▸ hp)
  | chunk k hproc => exact .inl hp
  | rename hproc hfs => exact .inl ((Fs.rename_eq_some hfs).2.1 ▸ hp)
  | discard hproc => exact .inl (by rwa [Fs.dirs_remove_getD] at hp)

/-- What remains stays as it is, loses the file put in place, or is what a new pull finds
missing. -/
theorem remaining_moved {l : List Download} (h : Moved cfg s a s') (hl : l ∈ s'.proc.remaining) :
    l ∈ s.proc.remaining ∨ (∃ d, s.proc.remaining = some (d :: l) ∧ present s'.fs d.dest = true) ∨
      ∃ force, s'.fs = s.fs ∧ l = (plan cfg).filter fun d => force || !present s.fs d.dest := by
  cases h with
  | turn hturn =>
    generalize hp : s.proc = p at hturn ⊢
    cases hturn with
    | pull force => exact .inr (.inr ⟨force, rfl, (Option.some.inj hl).symm⟩)
    | done | respond | finish | whole | stays => exact .inl hl
    | short | broken | failed | stopped => cases hl
  | createDir hproc hfs | create hproc hfs | chunk k hproc =>
    rw [hproc]
    exact .inl hl
  | @rename d rest fs hproc hfs =>
    obtain ⟨hsome, -, -, hdest, -⟩ := Fs.rename_eq_some hfs
    cases hl
    refine .inr (.inl ⟨d, by rw [hproc]; rfl, present_iff.mpr (.inl ?_)⟩)
    rw [hdest]
    exact hsome
  | discard hproc => cases hl

/-- What a pull still has to fetch comes in the order of the recipe, and the rest is there. -/
structure Coming (cfg : Config) (s : Machine) : Prop where
  sublist : ∀ l ∈ s.proc.remaining, l.Sublist (plan cfg)
  there : ∀ l ∈ s.proc.remaining, ∀ d ∈ plan cfg, d ∈ l ∨ present s.fs d.dest = true

theorem coming_moved (hc : Coming cfg s) (h : Moved cfg s a s') : Coming cfg s' where
  sublist l hl := by
    rcases remaining_moved h hl with hl | ⟨d, hl, -⟩ | ⟨force, -, rfl⟩
    · exact hc.sublist l hl
    · exact (List.sublist_cons_self d l).trans (hc.sublist _ hl)
    · exact List.filter_sublist
  there l hl d hd := by
    rcases remaining_moved h hl with hl | ⟨e, hl, he⟩ | ⟨force, hfs, rfl⟩
    · exact (hc.there l hl d hd).imp_right (present_moved h (not_partial_of_mem_plan hd))
    · rcases hc.there _ hl d hd with hmem | hpresent
      · rcases List.mem_cons.mp hmem with rfl | hmem
        · exact .inr he
        · exact .inl hmem
      · exact .inr (present_moved h (not_partial_of_mem_plan hd) hpresent)
    · rw [hfs]
      cases hpresent : present s.fs d.dest with
      | true => exact .inr rfl
      | false => exact .inl (List.mem_filter.mpr ⟨hd, by simp [hpresent]⟩)

theorem coming_run (h : Run (Machine.step cfg) (Honest served) ⟨fs₀, .idle⟩ tr s) : Coming cfg s := by
  apply h.invariant
  · exact ⟨fun _ hl => (by cases hl), fun _ hl => (by cases hl)⟩
  · intro s a s' hc _ hstep
    exact coming_moved hc (step_moved hstep)

/-! ## A pull that is over -/

theorem dirs_of_present {dir : Path} {name : String} (h : present fs (dir ++ [name]) = true) :
    fs.dirs dir = true := by
  rcases present_iff.mp h with hfile | hdir
  · have hhoused := fs.housed _ hfile
    rwa [List.dropLast_concat] at hhoused
  · exact fs.nested _ _ hdir (List.prefix_append _ _)

theorem firstExisting_isSome {candidates : List Path} (hmem : p ∈ candidates)
    (hp : present fs p = true) : (firstExisting fs candidates).isSome = true := by
  rw [firstExisting, List.find?_isSome]
  exact ⟨p, hmem, hp⟩

/-- The files of either layout, as the loader names them. -/
theorem layoutIn_isSome {dir : Path} (htokens : present fs (dir ++ ["tokens.txt"]) = true)
    (hencoder : present fs (dir ++ ["encoder.onnx"]) = true)
    (hdecoder : present fs (dir ++ ["decoder.onnx"]) = true) : (layoutIn fs dir).isSome = true := by
  have hwhisper : (whisperPaths fs dir (dir ++ ["tokens.txt"])).isSome = true := by
    obtain ⟨encoder, heq⟩ := Option.isSome_iff_exists.mp
      (firstExisting_isSome (List.mem_cons_self (l := [dir ++ ["whisper-encoder.onnx"]])) hencoder)
    obtain ⟨decoder, heq'⟩ := Option.isSome_iff_exists.mp
      (firstExisting_isSome (List.mem_cons_self (l := [dir ++ ["whisper-decoder.onnx"]])) hdecoder)
    rw [whisperPaths, heq, heq']
    rfl
  rw [layoutIn, if_pos htokens, Option.isSome_or, hwhisper, Bool.or_true]

theorem mem_plan_of_asrFiles {f : String × String × ℕ} (h : f ∈ asrFiles cfg.model) :
    ∃ d ∈ plan cfg, d.dest = cfg.asrDir ++ [f.2.1] :=
  ⟨_, List.mem_append_left _ (List.mem_map_of_mem h), rfl⟩

/-- The engine looks for the models where a pull has put them. -/
theorem realModelsPresent_of_present (hmodel : cfg.model = parakeet ∨ cfg.model = whisperTurbo)
    (hall : ∀ d ∈ plan cfg, present fs d.dest = true) (entries : Option (List String)) :
    realModelsPresent fs entries cfg.modelsDir cfg.model cfg.diarization = true := by
  have hasr : ∀ name ∈ ["tokens.txt", "encoder.onnx", "decoder.onnx"],
      present fs (cfg.asrDir ++ [name]) = true := by
    intro name hname
    have hfile : ∃ f ∈ asrFiles cfg.model, f.2.1 = name := by
      rcases hmodel with heq | heq <;> rw [heq] <;> revert name <;> decide
    obtain ⟨f, hf, rfl⟩ := hfile
    obtain ⟨d, hd, heq⟩ := mem_plan_of_asrFiles hf
    exact heq ▸ hall d hd
  have hlayout : (layoutIn fs cfg.asrDir).isSome = true :=
    layoutIn_isSome (hasr _ (by simp)) (hasr _ (by simp)) (hasr _ (by simp))
  have hwant : String.ofList (Asr.trim cfg.model.toList) = cfg.model ∧ cfg.model.isEmpty = false := by
    rcases hmodel with heq | heq <;> rw [heq] <;> decide
  have hdir : fs.dirs (cfg.modelsDir ++ ["asr"] ++ [cfg.model]) = true := by
    rw [List.append_assoc]
    exact dirs_of_present (hasr "tokens.txt" (by simp))
  have hfound : (discoverFor fs entries cfg.modelsDir cfg.model).isSome = true := by
    simp only [discoverFor, modelSubdir, hwant.1, hwant.2, hdir, Bool.false_eq_true, if_false, if_true,
      Option.bind_some, Option.isSome_or, Bool.or_eq_true]
    rw [List.append_assoc]
    exact .inl hlayout
  have hdiar : cfg.diarization = true → (discoverDiarization fs cfg.modelsDir).isSome = true := by
    intro hon
    have hpresent : ∀ name ∈ ["segmentation.onnx", "embedding.onnx"],
        present fs (cfg.modelsDir ++ ["diarization"] ++ [name]) = true := by
      intro name hname
      have hplan : ∃ d ∈ diarPlan cfg, d.dest = cfg.diarDir ++ [name] := by
        rw [diarPlan, if_pos hon]
        rcases List.mem_pair.mp hname with rfl | rfl <;> simp
      obtain ⟨d, hd, heq⟩ := hplan
      exact heq ▸ hall d (List.mem_append_right _ hd)
    obtain ⟨segmentation, heq⟩ := Option.isSome_iff_exists.mp (firstExisting_isSome
      (List.mem_cons_self (l := [cfg.modelsDir ++ ["diarization"] ++ ["segmentation.int8.onnx"]]))
      (hpresent "segmentation.onnx" (by simp)))
    obtain ⟨embedding, heq'⟩ := Option.isSome_iff_exists.mp (firstExisting_isSome
      (List.mem_cons_self (l := [cfg.modelsDir ++ ["diarization"] ++ ["embedding.int8.onnx"]]))
      (hpresent "embedding.onnx" (by simp)))
    simp only [discoverDiarization, heq, heq']
    rfl
  have hnotNone : ¬ (discoverFor fs entries cfg.modelsDir cfg.model).isNone = true := by
    rw [Option.isNone_iff_eq_none]
    exact Option.isSome_iff_ne_none.mp hfound
  rw [realModelsPresent, if_neg hnotNone, if_neg]
  simp only [Bool.and_eq_true, Option.isNone_iff_eq_none, not_and]
  intro hon
  exact Option.isSome_iff_ne_none.mp (hdiar hon)

/-- After a pull that has come to its end the engine finds its models, whatever happened to the
pulls before. -/
theorem pull_complete (h : Run (Machine.step cfg) (Honest served) ⟨fs₀, .idle⟩ tr s)
    (hended : s.proc = .ended true) (hmodel : cfg.model = parakeet ∨ cfg.model = whisperTurbo)
    (entries : Option (List String)) :
    realModelsPresent s.fs entries cfg.modelsDir cfg.model cfg.diarization = true := by
  have hc := coming_run h
  refine realModelsPresent_of_present hmodel (fun d hd => ?_) entries
  exact (hc.there [] (by rw [hended]; rfl) d hd).resolve_left List.not_mem_nil

/-- All of Parakeet. -/
def wholePull : List Label := .pull false :: (List.replicate 5 fetching).flatten ++ [.step]

def wholeState : Machine :=
  (exec (Machine.step speechOnly) emptyDisk wholePull).get (by decide +kernel)

theorem pull_complete_wholeState :
    realModelsPresent wholeState.fs none ["models"] parakeet false = true := by
  have hrun : Run (Machine.step speechOnly) (Honest tinyServed) emptyDisk wholePull wholeState :=
    run_of_allowed (Option.some_get _).symm fun a ha s => honest_tiny (fun r hr => by
      subst hr
      simpa [wholePull, fetching, List.replicate] using ha) s
  exact pull_complete hrun rfl (.inl rfl) none

/-! ## A pull that is not over -/

/-- There is nothing in the folder of the models. -/
def Fresh (cfg : Config) (fs : Disk) : Prop :=
  ∀ p, cfg.modelsDir <+: p → p ≠ cfg.modelsDir → present fs p = false

/-- What has come to be, and in which order. -/
structure Grown (cfg : Config) (fs₀ : Disk) (s : Machine) : Prop where
  origin : ∀ p, present s.fs p = true → present fs₀ p = true ∨ Partial p ∨
    (∃ d ∈ plan cfg, p <+: d.dest.dropLast) ∨ ∃ d ∈ plan cfg, p = d.dest
  dirs : ∀ p, s.fs.dirs p = true → fs₀.dirs p = true ∨ ∃ d ∈ plan cfg, p <+: d.dest.dropLast
  ordered : ∀ before d after, plan cfg = before ++ d :: after → present s.fs d.dest = true →
    ∀ e ∈ before, present s.fs e.dest = true

theorem notMem_of_sublist {l before after : List Download} (hnodup : (before ++ d :: after).Nodup)
    (hsub : (d :: l).Sublist (before ++ d :: after)) (he : e ∈ before) : e ∉ d :: l := by
  have hdisjoint := List.disjoint_of_nodup_append hnodup
  obtain ⟨l₁, l₂, heq, hfirst, hsecond⟩ := List.sublist_append_iff.mp hsub
  cases l₁ with
  | nil =>
    rw [List.nil_append] at heq
    exact fun hmem => hdisjoint he (hsecond.subset (heq ▸ hmem))
  | cons d' l₁ =>
    obtain ⟨rfl, -⟩ := List.cons.inj heq
    exact absurd List.mem_cons_self (hdisjoint (hfirst.subset List.mem_cons_self))

theorem grown_moved (hp : Pulled cfg served fs₀ s) (hc : Coming cfg s) (hg : Grown cfg fs₀ s)
    (h : Moved cfg s a s') : Grown cfg fs₀ s' where
  origin p hpresent := by
    rcases present_new h hpresent with hold | hpart | ⟨d, hd, hprefix⟩ | ⟨d, rest, hproc, rfl⟩
    · exact hg.origin p hold
    · exact .inr (.inl hpart)
    · exact .inr (.inr (.inl ⟨d, hp.todo d hd, hprefix⟩))
    · exact .inr (.inr (.inr ⟨d, hp.todo d (by rw [hproc]; exact List.mem_cons_self), rfl⟩))
  dirs p hdir := by
    rcases dirs_new h hdir with hold | ⟨d, hd, hprefix⟩
    · exact hg.dirs p hold
    · exact .inr ⟨d, hp.todo d hd, hprefix⟩
  ordered before d after hplan hpresent e he := by
    have hd : d ∈ plan cfg := by simp [hplan]
    have hmem : e ∈ plan cfg := by simp [hplan, he]
    apply present_moved h (not_partial_of_mem_plan hmem)
    rcases present_new h hpresent with hold | hpart | ⟨d', hd', hprefix⟩ | ⟨d', rest, hproc, heq⟩
    · exact hg.ordered before d after hplan hold e he
    · exact absurd hpart (not_partial_of_mem_plan hd)
    · exact absurd hprefix (not_prefix_dropLast hd (hp.todo d' hd'))
    · have hd' : d' ∈ plan cfg := hp.todo d' (by rw [hproc]; exact List.mem_cons_self)
      obtain rfl := dest_inj hd hd' heq
      have hremaining : d :: rest ∈ s.proc.remaining := by
        rw [hproc]
        rfl
      have hnodup := (nodup_dests cfg).of_map
      have hsub := hc.sublist _ hremaining
      rw [hplan] at hnodup hsub
      exact (hc.there _ hremaining e hmem).resolve_left (notMem_of_sublist hnodup hsub he)

theorem not_present_of_fresh (hfresh : Fresh cfg fs) (hd : d ∈ plan cfg) :
    present fs d.dest = false := by
  rcases dest_of_mem_plan hd with ⟨f, -, heq⟩ | ⟨name, -, heq⟩ <;> rw [heq] <;>
    exact hfresh _ (by simp [Config.asrDir, Config.diarDir]) (by simp [Config.asrDir, Config.diarDir])

theorem grown_run (hfresh : Fresh cfg fs₀)
    (h : Run (Machine.step cfg) (Honest served) ⟨fs₀, .idle⟩ tr s) : Grown cfg fs₀ s := by
  apply h.history (I := fun _ s => Grown cfg fs₀ s)
  · refine ⟨fun _ => .inl, fun _ => .inl, fun before d after hplan hpresent => ?_⟩
    rw [not_present_of_fresh hfresh (by simp [hplan])] at hpresent
    cases hpresent
  · intro tr s a s' hrun hg hok hstep
    exact grown_moved (pulled_run hrun) (coming_run hrun) hg (step_moved hstep)

/-- A file of the recipe that is there has been served. -/
theorem served_of_present (hfresh : Fresh cfg fs₀)
    (h : Run (Machine.step cfg) (Honest served) ⟨fs₀, .idle⟩ tr s) (hd : d ∈ plan cfg)
    (hpresent : present s.fs d.dest = true) : Served served d.url (s.fs.read d.dest) := by
  have hnone := not_present_of_fresh hfresh hd
  simp only [present, Bool.or_eq_false_iff, Option.isSome_eq_false_iff, Option.isNone_iff_eq_none]
    at hnone
  have hread : fs₀.read d.dest = none := by rw [Fs.read, hnone.1, Option.map_none]
  have hdir : ¬ s.fs.dirs d.dest = true := by
    intro hdir
    rcases (grown_run hfresh h).dirs _ hdir with hold | ⟨e, he, hprefix⟩
    · rw [hnone.2] at hold
      cases hold
    · exact not_prefix_dropLast hd he hprefix
  have hfile := (present_iff.mp hpresent).resolve_right hdir
  refine ((pulled_run h).dest d hd).resolve_left fun heq => ?_
  rw [hread, Fs.read, Option.map_eq_none_iff] at heq
  rw [heq] at hfile
  cases hfile

theorem present_of_layoutIn {dir : Path} (h : (layoutIn fs dir).isSome = true) :
    present fs (dir ++ ["tokens.txt"]) = true := by
  rw [layoutIn] at h
  by_contra hnone
  rw [if_neg hnone] at h
  cases h

/-- A model is found in the flat folder or in one below. -/
theorem layoutIn_of_discoverFor {entries : Option (List String)}
    (h : (discoverFor fs entries cfg.modelsDir cfg.model).isSome = true) :
    ∃ below, (below = [] ∨ ∃ name, below = [name]) ∧
      (layoutIn fs (cfg.modelsDir ++ ["asr"] ++ below)).isSome = true := by
  rw [discoverFor, Option.isSome_or, Bool.or_eq_true] at h
  rcases h with h | h
  · obtain ⟨dir, hdir⟩ : ∃ dir, modelSubdir fs entries (cfg.modelsDir ++ ["asr"]) cfg.model = some dir := by
      cases hsub : modelSubdir fs entries (cfg.modelsDir ++ ["asr"]) cfg.model with
      | none =>
        rw [hsub] at h
        cases h
      | some dir => exact ⟨dir, rfl⟩
    rw [hdir, Option.bind_some] at h
    simp only [modelSubdir] at hdir
    split at hdir
    · cases hdir
    · split at hdir
      · cases hdir
        exact ⟨_, .inr ⟨_, rfl⟩, h⟩
      · obtain ⟨names, -, hnames⟩ := Option.bind_eq_some_iff.mp hdir
        obtain ⟨name, -, rfl⟩ := Option.map_eq_some_iff.mp hnames
        exact ⟨_, .inr ⟨_, rfl⟩, h⟩
  · exact ⟨[], .inl rfl, by rwa [List.append_nil]⟩

theorem asrFiles_tokens : asrFiles "tokens.txt" = [] := rfl

/-- The tokens that the loader finds are those of the recipe. -/
theorem tokens_present (hfresh : Fresh cfg fs₀)
    (h : Run (Machine.step cfg) (Honest served) ⟨fs₀, .idle⟩ tr s) {entries : Option (List String)}
    (hfound : (discoverFor s.fs entries cfg.modelsDir cfg.model).isSome = true) :
    present s.fs (cfg.asrDir ++ ["tokens.txt"]) = true := by
  obtain ⟨below, hbelow, hlayout⟩ := layoutIn_of_discoverFor hfound
  have hpresent := present_of_layoutIn hlayout
  have hnot : ¬ Partial (cfg.modelsDir ++ ["asr"] ++ below ++ ["tokens.txt"]) :=
    not_partial (by decide)
  have hnew : present fs₀ (cfg.modelsDir ++ ["asr"] ++ below ++ ["tokens.txt"]) = false :=
    hfresh _ (by simp) (by simp)
  rcases (grown_run hfresh h).origin _ hpresent with hold | hpart | ⟨d, hd, hprefix⟩ | ⟨d, hd, hdest⟩
  · rw [hnew] at hold
    cases hold
  · exact absurd hpart hnot
  · have hlength := hprefix.length_le
    rcases dest_of_mem_plan hd with ⟨f, hf, heq⟩ | ⟨name, -, heq⟩ <;>
      rw [heq, List.dropLast_concat] at hprefix hlength <;>
      rcases hbelow with rfl | ⟨name', rfl⟩
    · have hmodel : "tokens.txt" = cfg.model := by
        simpa [Config.asrDir, List.prefix_append_right_inj] using hprefix
      rw [← hmodel, asrFiles_tokens] at hf
      cases hf
    · simp [Config.asrDir] at hlength
    · simp [Config.diarDir] at hlength
    · simp [Config.diarDir] at hlength
  · have hlength := congrArg List.length hdest
    rcases dest_of_mem_plan hd with ⟨f, hf, heq⟩ | ⟨name, -, heq⟩ <;> rw [heq] at hdest hlength <;>
      rcases hbelow with rfl | ⟨name', rfl⟩
    · simp [Config.asrDir] at hlength
    · have hname : name' = cfg.model ∧ "tokens.txt" = f.2.1 := by
        simpa [Config.asrDir] using hdest
      rw [hname.1] at hpresent
      simpa [Config.asrDir] using hpresent
    · simp [Config.diarDir] at hdest
    · simp [Config.diarDir] at hlength

/-- Where nothing was, the model that the loader takes up is whole up to its tokens, which the
recipe of Parakeet has last. -/
theorem found_whole (hfresh : Fresh cfg fs₀)
    (h : Run (Machine.step cfg) (Honest served) ⟨fs₀, .idle⟩ tr s) {entries : Option (List String)}
    (hfound : (discoverFor s.fs entries cfg.modelsDir cfg.model).isSome = true) :
    (∀ before d after, plan cfg = before ++ d :: after → d.dest = cfg.asrDir ++ ["tokens.txt"] →
      ∀ e ∈ before ++ [d], Served served e.url (s.fs.read e.dest)) ∧
    (cfg.model = parakeet → ∀ e ∈ asrPlan cfg, Served served e.url (s.fs.read e.dest)) := by
  have hbefore : ∀ before d after, plan cfg = before ++ d :: after →
      d.dest = cfg.asrDir ++ ["tokens.txt"] → ∀ e ∈ before ++ [d],
        Served served e.url (s.fs.read e.dest) := by
    intro before d after hplan hdest e he
    have htokens : present s.fs d.dest = true := hdest ▸ tokens_present hfresh h hfound
    apply served_of_present hfresh h
    · rw [hplan]
      rcases List.mem_append.mp he with he | he
      · exact List.mem_append_left _ he
      · rw [List.mem_singleton.mp he]
        simp
    · rcases List.mem_append.mp he with he | he
      · exact (grown_run hfresh h).ordered before d after hplan htokens e he
      · rwa [List.mem_singleton.mp he]
  refine ⟨hbefore, fun hmodel => ?_⟩
  have hlast : ∃ before d, asrPlan cfg = before ++ [d] ∧ d.dest = cfg.asrDir ++ ["tokens.txt"] := by
    refine ⟨(asrPlan cfg).dropLast, (asrPlan cfg).getLast ?_, ?_, ?_⟩
    · simp [asrPlan, asrFiles, hmodel]
    · exact (List.dropLast_append_getLast _).symm
    · simp [asrPlan, asrFiles, hmodel]
  obtain ⟨before, d, heq, hdest⟩ := hlast
  rw [heq]
  apply hbefore before d (diarPlan cfg) _ hdest
  rw [plan, heq, List.append_assoc]
  rfl

/-- Killed when the last file of Parakeet was in place. -/
def stoppedPull : List Label := .pull false :: (List.replicate 5 fetching).flatten ++ [.stop]

def stoppedState : Machine :=
  (exec (Machine.step speechOnly) emptyDisk stoppedPull).get (by decide +kernel)

theorem fresh_emptyDisk (cfg : Config) (h : cfg.modelsDir ≠ []) : Fresh cfg emptyDisk.fs := by
  intro p hp _
  have hne : p ≠ [] := fun hnil => h (List.prefix_nil.mp (hnil ▸ hp))
  simp [present, emptyDisk, Fs.empty, hne]

theorem found_whole_stoppedState :
    (discoverFor stoppedState.fs none speechOnly.modelsDir speechOnly.model).isSome = true ∧
      ∀ d ∈ asrPlan speechOnly, Served tinyServed d.url (stoppedState.fs.read d.dest) := by
  have hrun : Run (Machine.step speechOnly) (Honest tinyServed) emptyDisk stoppedPull stoppedState :=
    run_of_allowed (Option.some_get _).symm fun a ha s => honest_tiny (fun r hr => by
      subst hr
      simpa [stoppedPull, fetching, List.replicate] using ha) s
  have hfound :
      (discoverFor stoppedState.fs none speechOnly.modelsDir speechOnly.model).isSome = true := by
    decide +kernel
  exact ⟨hfound, (found_whole (fresh_emptyDisk speechOnly (by decide)) hrun hfound).2 rfl⟩

def turboOnly : Config := ⟨["models"], whisperTurbo, false⟩

def turboState : Machine := (exec (Machine.step turboOnly) emptyDisk
  (.pull false :: (List.replicate 3 fetching).flatten ++ [.stop])).get (by decide +kernel)

/-- The recipe of Whisper goes on after its tokens: killed before its weights, a pull leaves a
model that is found without them. -/
theorem found_without_weights :
    realModelsPresent turboState.fs none ["models"] whisperTurbo false = true ∧
      turboState.fs.read (turboOnly.asrDir ++ ["turbo-encoder.weights"]) = none := by
  decide +kernel

end ScribeLocal.Models
