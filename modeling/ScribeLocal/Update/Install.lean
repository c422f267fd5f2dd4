import ScribeLocal.Update.Package

/-!
# Installing a package

The new binary is staged next to the old one, tried, and renamed into place; the old one is
kept as a backup. Any call to the file system and any run of a binary may fail.
-/
namespace ScribeLocal.Update
open Pipeline (Path)

/-! ## The disk -/

/-- The contents of each file. -/
abbrev Disk := Path → Option Bytes

def Disk.rename (d : Disk) (p q : Path) : Option Disk :=
  (d p).map fun c => Function.update (Function.update d p none) q (some c)

/-- A call to the file system. -/
inductive Site where
  | createDir
  | write
  | setExecutable
  | binaryExists
  | removeBackup
  | backUp
  | install
  | backupExists
  | restore
  | removeStaged
  | removePending
  | setAside
  | rollBack
  | pendingExists
  | keepPending
  deriving DecidableEq

/-- How a child process has ended; `stdout` where it is valid UTF-8. -/
structure Exit where
  success : Bool
  status : String
  stdout : Option String
  stderr : String

/-- What the operating system does. -/
structure Os where
  currentExe : Except String Path
  /-- The calls that fail, with their message. -/
  fails : Site → Option String
  /-- What a failing write leaves; none if it does not even open the file. -/
  torn : Option ℕ
  /-- The message for a file that is not there. -/
  notFound : String
  /-- What becomes of a binary that is run with some arguments. -/
  run : Bytes → List String → Except String Exit

/-- A path that cannot be looked at counts as missing. -/
def Os.exists (os : Os) (site : Site) (d : Disk) (p : Path) : Bool :=
  (os.fails site).isNone && (d p).isSome

def Os.rename (os : Os) (site : Site) (d : Disk) (p q : Path) : Except String Disk :=
  match os.fails site with
  | some e => .error e
  | none => match d.rename p q with
    | some d' => .ok d'
    | none => .error os.notFound

/-- `let _ = remove_file(p)` -/
def Os.remove (os : Os) (site : Site) (d : Disk) (p : Path) : Disk :=
  if (os.fails site).isSome then d else Function.update d p none

/-- `let _ = rename(p, q)` -/
def Os.tryRename (os : Os) (site : Site) (d : Disk) (p q : Path) : Disk :=
  match os.rename site d p q with
  | .ok d' => d'
  | .error _ => d

def Os.output (os : Os) (d : Disk) (p : Path) (args : List String) : Except String Exit :=
  match d p with
  | some bytes => os.run bytes args
  | none => .error os.notFound

/-! ## Paths -/

/-- `Path::file_name` -/
def fileName (p : Path) : Option String :=
  match p.getLast? with
  | some name => if name = ".." then none else some name
  | none => none

/-- `path` with `.ext` after its name. -/
def sibling (p : Path) (ext : String) : Path :=
  match fileName p with
  | some name => p.dropLast ++ [name ++ "." ++ ext]
  | none => p ++ ["scribe" ++ "." ++ ext]

def resolveBinaryPath (os : Os) (cfg : UpdateConfig) : Except UpdateError Path :=
  match cfg.binaryPath with
  | some p => .ok p
  | none => os.currentExe.mapError fun e => .other ("cannot resolve current_exe(): " ++ e)

/-! ## `apply_package` -/

structure ApplyOptions where
  dbUrl : Option String := none
  runSanityCheck : Bool := true
  runMigrations : Bool := true

structure UpdateOutcome where
  fromVersion : String
  toVersion : String
  target : String
  binaryPath : Path
  backupPath : Path

def stage (os : Os) (staged : Path) (binary : Bytes) (d : Disk) : Except UpdateError Unit × Disk :=
  match os.fails .createDir with
  | some e => (.error (.io e), d)
  | none => match os.fails .write with
    | some e => (.error (.io e), match os.torn with
      | some k => Function.update d staged (some (binary.take k))
      | none => d)
    | none => match os.fails .setExecutable with
      | some e => (.error (.io e), Function.update d staged (some binary))
      | none => (.ok (), Function.update d staged (some binary))

def sanityCheck (os : Os) (opts : ApplyOptions) (staged : Path) (d : Disk) : Except UpdateError Unit :=
  if opts.runSanityCheck then
    match os.output d staged ["--version"] with
    | .error e => .error (.sanityCheck ("spawning staged binary: " ++ e))
    | .ok out => if out.success then .ok () else
      .error (.sanityCheck ("\x60--version\x60 exited " ++ out.status ++ ": " ++ trim out.stderr))
  else .ok ()

def migrate (os : Os) (opts : ApplyOptions) (staged : Path) (d : Disk) : Except UpdateError Unit :=
  match opts.runMigrations, opts.dbUrl with
  | true, some url =>
    if url = "" then .ok ()
    else match os.output d staged ["migrate"] with
      | .error e => .error (.migration ("spawning migrate: " ++ e))
      | .ok out => if out.success then .ok () else .error (.migration (trim out.stderr))
  | _, _ => .ok ()

def backUp (os : Os) (binary backup : Path) (d : Disk) : Except UpdateError Unit × Disk :=
  if os.exists .binaryExists d binary then
    let d := os.remove .removeBackup d backup
    match os.rename .backUp d binary backup with
    | .ok d => (.ok (), d)
    | .error e => (.error (.io ("backing up " ++ binary.text ++ ": " ++ e)), d)
  else (.ok (), d)

def install (os : Os) (staged binary backup : Path) (d : Disk) : Except UpdateError Unit × Disk :=
  match os.rename .install d staged binary with
  | .ok d => (.ok (), d)
  | .error e => (.error (.io ("installing new binary at " ++ binary.text ++ ": " ++ e)),
    -- so that the binary is never left missing
    if os.exists .backupExists d backup then os.tryRename .restore d backup binary else d)

def swap (os : Os) (staged binary backup : Path) (d : Disk) : Except UpdateError Unit × Disk :=
  match backUp os binary backup d with
  | (.ok (), d) => install os staged binary backup d
  | failed => failed

def applyPackage {Key : Type} (x : Extern Key) (host : Host) (os : Os) (cfg : UpdateConfig)
    (pkg : Package) (opts : ApplyOptions) (d : Disk) : Except UpdateError UpdateOutcome × Disk :=
  match verifyPackage x host cfg pkg, resolveBinaryPath os cfg with
  | .error e, _ => (.error e, d)
  | .ok (), .error e => (.error e, d)
  | .ok (), .ok binary =>
    let staged := sibling binary "new"
    let backup := sibling binary "old"
    match stage os staged pkg.binary d with
    | (.error e, d) => (.error e, d)
    | (.ok (), d) =>
      match (do sanityCheck os opts staged d; migrate os opts staged d) with
      | .error e => (.error e, os.remove .removeStaged d staged)
      | .ok () => match swap os staged binary backup d with
        | (.error e, d) => (.error e, os.remove .removeStaged d staged)
        | (.ok (), d) => (.ok ⟨host.running, pkg.manifest.version, pkg.manifest.target, binary, backup⟩, d)

/-- What an update does with an archive. -/
def update {Key : Type} (x : Extern Key) (host : Host) (os : Os) (cfg : UpdateConfig)
    (archive : Bytes) (opts : ApplyOptions) (d : Disk) : Except UpdateError UpdateOutcome × Disk :=
  match fromReader x archive with
  | .error e => (.error e, d)
  | .ok pkg => applyPackage x host os cfg pkg opts d

/-! ## `rollback` -/

def reportedVersion (os : Os) (binary : Path) (d : Disk) : String :=
  match os.output d binary ["--version"] with
  | .ok { stdout := some s, .. } => trim s
  | _ => "unknown"

/-- The rename of the current binary out of the way. -/
def setAside (os : Os) (binary pending : Path) (d : Disk) : Except UpdateError Unit × Disk :=
  if os.exists .binaryExists d binary then
    match os.rename .setAside d binary pending with
    | .ok d => (.ok (), d)
    | .error e => (.error (.io e), d)
  else (.ok (), d)

def rollback (os : Os) (cfg : UpdateConfig) (d : Disk) : Except UpdateError String × Disk :=
  match resolveBinaryPath os cfg with
  | .error e => (.error e, d)
  | .ok binary =>
    let backup := sibling binary "old"
    if os.exists .backupExists d backup then
      let pending := sibling binary "rollback-tmp"
      match setAside os binary pending (os.remove .removePending d pending) with
      | (.error e, d) => (.error e, d)
      | (.ok (), d) => match os.rename .rollBack d backup binary with
        | .error e => (.error (.io e), d)
        | .ok d =>
          let d := if os.exists .pendingExists d pending then os.tryRename .keepPending d pending backup
            else d
          (.ok (reportedVersion os binary d), d)
    else (.error .noBackup, d)

/-! ## Names -/

variable {p : Path} {ext ext' : String}

theorem sibling_ne_sibling (h : ext ≠ ext') : sibling p ext ≠ sibling p ext' := by
  unfold sibling
  intro heq
  apply h
  split at heq
  all_goals
    have hname := List.singleton_inj.mp (List.append_cancel_left heq)
    exact String.append_right_inj _ |>.mp hname

theorem sibling_ne_self : sibling p ext ≠ p := by
  unfold sibling fileName
  intro heq
  cases hlast : p.getLast? with
  | none =>
    rw [hlast] at heq
    have hlength := congrArg List.length heq
    simp at hlength
  | some name =>
    rw [hlast] at heq
    split at heq
    · next name' hname =>
      have hold := congrArg List.getLast? heq
      simp only [hlast, List.getLast?_append, List.getLast?_singleton, Option.some_or,
        Option.some.injEq] at hold
      have hsame : name' = name := by
        simp only at hname
        split at hname
        · cases hname
        · exact (Option.some.inj hname).symm
      have hlength := congrArg String.length hold
      have hdot : ".".length = 1 := by decide
      simp only [hsame, String.length_append] at hlength
      omega
    · have hlength := congrArg List.length heq
      simp at hlength

/-! ## What the steps leave -/

variable {os : Os} {site : Site} {d d' : Disk} {q : Path} {e : String} {c : Bytes}

theorem rename_of_ok (h : os.fails site = none) (hp : d p = some c) :
    os.rename site d p q = .ok (Function.update (Function.update d p none) q (some c)) := by
  simp [Os.rename, h, Disk.rename, hp]

theorem rename_of_fails (h : os.fails site = some e) : os.rename site d p q = .error e := by
  simp [Os.rename, h]

theorem remove_of_ne (h : q ≠ p) : os.remove site d p q = d q := by
  unfold Os.remove
  split
  · rfl
  · exact Function.update_of_ne h _ _

theorem exists_iff : os.exists site d p = true ↔ os.fails site = none ∧ ∃ c, d p = some c := by
  simp [Os.exists, Option.isSome_iff_exists]

theorem stage_of_ne {result : Except UpdateError Unit × Disk} (h : stage os p c d = result)
    (hq : q ≠ p) : result.2 q = d q := by
  subst h
  unfold stage
  split
  · rfl
  · split
    · split
      · exact Function.update_of_ne hq _ _
      · rfl
    · split <;> exact Function.update_of_ne hq _ _

theorem stage_ok (h : stage os p c d = (.ok (), d')) : d' p = some c := by
  unfold stage at h
  split at h
  · cases h
  · split at h
    · cases h
    · split at h
      · cases h
      · cases h
        exact Function.update_self _ _ _

/-! ## What a swap can do -/

/-- Both calls of the undo succeed. -/
def Os.Restores (os : Os) : Prop := os.fails .backupExists = none ∧ os.fails .restore = none

/-- The files under the two names after a swap, and which calls have failed. -/
inductive Swapped (os : Os) (d : Disk) (binary backup : Path) (new : Bytes) :
    Except UpdateError Unit → Disk → Prop
  | installed {d' : Disk}
      (hbackUp : os.exists .binaryExists d binary = true → os.fails .backUp = none)
      (hinstall : os.fails .install = none) (hbinary : d' binary = some new) :
      Swapped os d binary backup new (.ok ()) d'
  | stuck {e : UpdateError} {d' : Disk} (hexists : os.exists .binaryExists d binary = true)
      (hbackUp : os.fails .backUp ≠ none) (hbinary : d' binary = d binary)
      (hbackup : d' backup = if (os.fails .removeBackup).isSome then d backup else none) :
      Swapped os d binary backup new (.error e) d'
  | restored {e : UpdateError} {d' : Disk} (hexists : os.exists .binaryExists d binary = true)
      (hbackUp : os.fails .backUp = none) (hinstall : os.fails .install ≠ none)
      (hrestores : os.Restores) (hbinary : d' binary = d binary) (hbackup : d' backup = none) :
      Swapped os d binary backup new (.error e) d'
  | lost {e : UpdateError} {d' : Disk} (hexists : os.exists .binaryExists d binary = true)
      (hbackUp : os.fails .backUp = none) (hinstall : os.fails .install ≠ none)
      (hrestores : ¬ os.Restores) (hbinary : d' binary = none) (hbackup : d' backup = d binary) :
      Swapped os d binary backup new (.error e) d'
  | revived {e : UpdateError} {d' : Disk} (hexists : os.exists .binaryExists d binary = false)
      (hinstall : os.fails .install ≠ none) (hrestores : os.Restores) (hold : d backup ≠ none)
      (hbinary : d' binary = d backup) (hbackup : d' backup = none) :
      Swapped os d binary backup new (.error e) d'
  | untouched {e : UpdateError} {d' : Disk} (hexists : os.exists .binaryExists d binary = false)
      (hinstall : os.fails .install ≠ none) (hrestores : os.Restores → d backup = none)
      (hbinary : d' binary = d binary) (hbackup : d' backup = d backup) :
      Swapped os d binary backup new (.error e) d'

section Swap
variable {staged binary backup : Path} {new old : Bytes} {result : Except UpdateError Unit × Disk}

/-- The install, when the file staged is there: it succeeds, or what the undo finds comes back. -/
theorem install_cases (hstaged : d staged = some new) (hbackup : backup ≠ binary)
    (h : install os staged binary backup d = result) :
    (os.fails .install = none ∧ result.1 = .ok () ∧ result.2 binary = some new) ∨
      os.fails .install ≠ none ∧ (∃ e, result.1 = .error e) ∧
        ((os.Restores ∧ d backup ≠ none ∧ result.2 binary = d backup ∧ result.2 backup = none) ∨
          ((os.Restores → d backup = none) ∧ result.2 = d)) := by
  subst h
  cases hfails : os.fails .install with
  | none =>
    left
    refine ⟨rfl, ?_⟩
    simp [install, rename_of_ok hfails hstaged]
  | some e =>
    right
    refine ⟨by simp, ?_⟩
    simp only [install, rename_of_fails hfails]
    refine ⟨⟨_, rfl⟩, ?_⟩
    by_cases hexists : os.exists .backupExists d backup = true
    · rcases exists_iff.mp hexists with ⟨hlook, old, hold⟩
      rw [if_pos hexists]
      cases hrestore : os.fails .restore with
      | none =>
        left
        refine ⟨⟨hlook, hrestore⟩, by simp [hold], ?_⟩
        simp [Os.tryRename, rename_of_ok hrestore hold, hold, Function.update_of_ne hbackup]
      | some e =>
        right
        refine ⟨fun hrestores => ?_, by simp [Os.tryRename, rename_of_fails hrestore]⟩
        rw [hrestores.2] at hrestore
        cases hrestore
    · rw [if_neg hexists]
      right
      refine ⟨fun hrestores => ?_, rfl⟩
      by_contra hold
      exact hexists (exists_iff.mpr ⟨hrestores.1, Option.ne_none_iff_exists'.mp hold⟩)

theorem swap_swapped (hstaged : d staged = some new) (hbinary : staged ≠ binary)
    (hbackup : staged ≠ backup) (hne : backup ≠ binary) (h : swap os staged binary backup d = result) :
    Swapped os d binary backup new result.1 result.2 := by
  subst h
  unfold swap backUp
  by_cases hexists : os.exists .binaryExists d binary = true
  · rw [if_pos hexists]
    rcases exists_iff.mp hexists with ⟨-, old, hold⟩
    have hkept : os.remove .removeBackup d backup binary = some old := by
      rw [remove_of_ne hne.symm, hold]
    cases hbackUp : os.fails .backUp with
    | some e =>
      simp only [rename_of_fails hbackUp]
      refine .stuck hexists (by simp [hbackUp]) (hkept.trans hold.symm) ?_
      unfold Os.remove
      split
      · rfl
      · exact Function.update_self _ _ _
    | none =>
      simp only [rename_of_ok hbackUp hkept]
      generalize hd₁ : Function.update (Function.update (os.remove .removeBackup d backup) binary none)
        backup (some old) = d₁
      have hstaged₁ : d₁ staged = some new := by
        rw [← hd₁, Function.update_of_ne hbackup, Function.update_of_ne hbinary,
          remove_of_ne hbackup, hstaged]
      have hbackup₁ : d₁ backup = some old := by rw [← hd₁, Function.update_self]
      have hbinary₁ : d₁ binary = none := by
        rw [← hd₁, Function.update_of_ne hne.symm, Function.update_self]
      rcases install_cases hstaged₁ hne rfl with ⟨hinstall, hok, hnew⟩ |
        ⟨hinstall, ⟨e, herr⟩, ⟨hrestores, -, hback, hgone⟩ | ⟨hrestores, hsame⟩⟩
      · rw [hok]
        exact .installed (fun _ => hbackUp) hinstall hnew
      · rw [herr]
        exact .restored hexists hbackUp hinstall hrestores (hback.trans (hbackup₁.trans hold.symm)) hgone
      · rw [herr, hsame]
        refine .lost hexists hbackUp hinstall (fun hyes => ?_) hbinary₁ (hbackup₁.trans hold.symm)
        rw [hrestores hyes] at hbackup₁
        cases hbackup₁
  · have hmissing : os.exists .binaryExists d binary = false := by simpa using hexists
    rw [if_neg hexists]
    rcases install_cases hstaged hne rfl with ⟨hinstall, hok, hnew⟩ |
      ⟨hinstall, ⟨e, herr⟩, ⟨hrestores, hold, hback, hgone⟩ | ⟨hrestores, hsame⟩⟩
    · rw [hok]
      exact .installed (fun hyes => absurd hyes hexists) hinstall hnew
    · rw [herr]
      exact .revived hmissing hinstall hrestores hold hback hgone
    · rw [herr]
      exact .untouched hmissing hinstall hrestores (congrFun hsame _) (congrFun hsame _)

end Swap

/-! ## What `apply_package` can do -/

/-- The binary passes the checks it is put to before it is installed. -/
def Os.Tried (os : Os) (opts : ApplyOptions) (binary : Bytes) : Prop :=
  (opts.runSanityCheck = true → ∃ out, os.run binary ["--version"] = .ok out ∧ out.success = true) ∧
    ∀ url, opts.runMigrations = true → opts.dbUrl = some url → url ≠ "" →
      ∃ out, os.run binary ["migrate"] = .ok out ∧ out.success = true

/-- Nothing fails before the swap. -/
structure Ready {Key : Type} (x : Extern Key) (host : Host) (os : Os) (cfg : UpdateConfig)
    (pkg : Package) (opts : ApplyOptions) : Prop where
  verified : verifyPackage x host cfg pkg = .ok ()
  resolved : ∃ binary, resolveBinaryPath os cfg = .ok binary
  staged : os.fails .createDir = none ∧ os.fails .write = none ∧ os.fails .setExecutable = none
  tried : os.Tried opts pkg.binary

section Apply
variable {Key : Type} {x : Extern Key} {host : Host} {cfg : UpdateConfig} {pkg : Package}
  {opts : ApplyOptions} {staged binary backup : Path} {new : Bytes}

theorem stage_fails (h : ∃ d', stage os staged new d = (.ok (), d')) :
    os.fails .createDir = none ∧ os.fails .write = none ∧ os.fails .setExecutable = none := by
  rcases h with ⟨d', h⟩
  unfold stage at h
  split at h
  · cases h
  · next hdir =>
    split at h
    · cases h
    · next hwrite =>
      split at h
      · cases h
      · next hexec => exact ⟨hdir, hwrite, hexec⟩

theorem stage_of_ok (h : os.fails .createDir = none ∧ os.fails .write = none ∧
    os.fails .setExecutable = none) :
    stage os staged new d = (.ok (), Function.update d staged (some new)) := by
  simp [stage, h.1, h.2.1, h.2.2]

theorem tried_iff (hstaged : d staged = some new) :
    (do sanityCheck os opts staged d; migrate os opts staged d : Except UpdateError Unit) = .ok () ↔
      os.Tried opts new := by
  have hsanity : sanityCheck os opts staged d = .ok () ↔
      (opts.runSanityCheck = true → ∃ out, os.run new ["--version"] = .ok out ∧ out.success = true) := by
    unfold sanityCheck Os.output
    cases opts.runSanityCheck with
    | false => simp
    | true =>
      simp only [if_true, hstaged, forall_const]
      cases os.run new ["--version"] with
      | error e => simp
      | ok out => cases out.success <;> simp
  have hmigrate : migrate os opts staged d = .ok () ↔
      ∀ url, opts.runMigrations = true → opts.dbUrl = some url → url ≠ "" →
        ∃ out, os.run new ["migrate"] = .ok out ∧ out.success = true := by
    unfold migrate Os.output
    cases opts.runMigrations with
    | false => simp
    | true =>
      cases opts.dbUrl with
      | none => simp
      | some url =>
        by_cases hurl : url = ""
        · simp [hurl]
        · simp only [hurl, if_false, hstaged]
          cases os.run new ["migrate"] with
          | error e => simp [hurl]
          | ok out => cases hsuccess : out.success <;> simp [hurl, hsuccess]
  rw [Os.Tried, ← hsanity, ← hmigrate]
  cases sanityCheck os opts staged d with
  | error e => simp [bind, Except.bind]
  | ok u => simp [bind, Except.bind]

theorem Swapped.congr {result : Except UpdateError Unit} {d₁ d₁' d₂' : Disk}
    (h : Swapped os d₁ binary backup new result d₁') (hbinary : d₁ binary = d binary)
    (hbackup : d₁ backup = d backup) (hbinary' : d₂' binary = d₁' binary)
    (hbackup' : d₂' backup = d₁' backup) : Swapped os d binary backup new result d₂' := by
  have hexists : os.exists .binaryExists d₁ binary = os.exists .binaryExists d binary := by
    unfold Os.exists
    rw [hbinary]
  cases h with
  | installed hbackUp hinstall hnew =>
    exact .installed (fun hyes => hbackUp (hexists ▸ hyes)) hinstall (hbinary'.trans hnew)
  | stuck hyes hfail hbin hback =>
    rw [hbinary] at hbin
    rw [hbackup] at hback
    exact .stuck (hexists ▸ hyes) hfail (hbinary'.trans hbin) (hbackup'.trans hback)
  | restored hyes hok hfail hrestores hbin hback =>
    rw [hbinary] at hbin
    exact .restored (hexists ▸ hyes) hok hfail hrestores (hbinary'.trans hbin) (hbackup'.trans hback)
  | lost hyes hok hfail hrestores hbin hback =>
    rw [hbinary] at hback
    exact .lost (hexists ▸ hyes) hok hfail hrestores (hbinary'.trans hbin) (hbackup'.trans hback)
  | revived hno hfail hrestores hold hbin hback =>
    rw [hbackup] at hold hbin
    exact .revived (hexists ▸ hno) hfail hrestores hold (hbinary'.trans hbin) (hbackup'.trans hback)
  | untouched hno hfail hrestores hbin hback =>
    rw [hbinary] at hbin
    rw [hbackup] at hrestores hback
    exact .untouched (hexists ▸ hno) hfail hrestores (hbinary'.trans hbin) (hbackup'.trans hback)

/-- What an update does to the binary and to its backup. -/
inductive Applied {Key : Type} (x : Extern Key) (host : Host) (os : Os) (cfg : UpdateConfig)
    (pkg : Package) (opts : ApplyOptions) (d : Disk) : Except UpdateError UpdateOutcome → Disk → Prop
  | early {e : UpdateError} {d' : Disk} (hready : ¬ Ready x host os cfg pkg opts)
      (hsame : ∀ q, (∀ binary, resolveBinaryPath os cfg = .ok binary → q ≠ sibling binary "new") →
        d' q = d q) :
      Applied x host os cfg pkg opts d (.error e) d'
  | swapped {binary : Path} {swapped : Except UpdateError Unit}
      {result : Except UpdateError UpdateOutcome} {d' : Disk} (hready : Ready x host os cfg pkg opts)
      (hbinary : resolveBinaryPath os cfg = .ok binary)
      (hswap : Swapped os d binary (sibling binary "old") pkg.binary swapped d')
      (hresult : (∃ o, result = .ok o) ↔ swapped = .ok ()) :
      Applied x host os cfg pkg opts d result d'

theorem applyPackage_applied {result : Except UpdateError UpdateOutcome × Disk}
    (h : applyPackage x host os cfg pkg opts d = result) :
    Applied x host os cfg pkg opts d result.1 result.2 := by
  subst h
  unfold applyPackage
  split
  · next hverify =>
    refine .early (fun hready => ?_) fun _ _ => rfl
    rw [hready.verified] at hverify
    cases hverify
  · next hresolve =>
    refine .early (fun hready => ?_) fun _ _ => rfl
    rcases hready.resolved with ⟨binary, hbinary⟩
    rw [hbinary] at hresolve
    cases hresolve
  · next binary hverify hresolve =>
    have hstaged : sibling binary "new" ≠ binary := sibling_ne_self
    have hbackup : sibling binary "new" ≠ sibling binary "old" := sibling_ne_sibling (by decide)
    have hsame {d' : Disk} (hd' : ∀ q, q ≠ sibling binary "new" → d' q = d q) (q : Path)
        (hq : ∀ b, resolveBinaryPath os cfg = .ok b → q ≠ sibling b "new") : d' q = d q :=
      hd' q (hq binary hresolve)
    dsimp only
    split
    · next e d₁ hstage =>
      refine .early (fun hready => ?_) (hsame fun q hq => stage_of_ne hstage hq)
      rw [stage_of_ok hready.staged] at hstage
      cases hstage
    · next d₁ hstage =>
      have hnew := stage_ok hstage
      have hother (q : Path) (hq : q ≠ sibling binary "new") : d₁ q = d q := stage_of_ne hstage hq
      split
      · next e htried =>
        refine .early (fun hready => ?_) (hsame fun q hq => (remove_of_ne hq).trans (hother q hq))
        rw [(tried_iff hnew).mpr hready.tried] at htried
        cases htried
      · next htried =>
        have hready : Ready x host os cfg pkg opts :=
          ⟨hverify, ⟨binary, hresolve⟩, stage_fails ⟨d₁, hstage⟩, (tried_iff hnew).mp htried⟩
        rcases hswap : swap os (sibling binary "new") binary (sibling binary "old") d₁ with ⟨result, d₂⟩
        have hswapped := swap_swapped hnew hstaged hbackup sibling_ne_self hswap
        cases result with
        | error e =>
          refine .swapped hready hresolve (hswapped.congr (hother _ hstaged.symm)
            (hother _ hbackup.symm) (remove_of_ne hstaged.symm) (remove_of_ne hbackup.symm)) ?_
          simp
        | ok u =>
          refine .swapped hready hresolve (hswapped.congr (hother _ hstaged.symm)
            (hother _ hbackup.symm) rfl rfl) ?_
          simp

end Apply

end ScribeLocal.Update
