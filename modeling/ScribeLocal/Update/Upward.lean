import ScribeLocal.Update.Undone
import ScribeLocal.Transition

/-!
# Versions over several updates

The policy compares a package with the process that installs it. That process stays the one it
was until the service restarts, whatever has been installed meanwhile.
-/
namespace ScribeLocal.Update
open Pipeline (Path)
open Transition

/-- The files, and the version of the process that serves requests. -/
structure Service where
  disk : Disk
  running : String

inductive Label where
  /-- An update that succeeds. -/
  | install (os : Os) (pkg : Package) (opts : ApplyOptions)
  | restart

section Runs
variable {Key : Type} (x : Extern Key) (arch osName : String) (cfg : UpdateConfig)
  (versionOf : Bytes → String) (binary : Path)

def Service.step (s : Service) : Label → Option Service
  | .install os pkg opts =>
    match applyPackage x ⟨arch, osName, s.running⟩ os cfg pkg opts s.disk with
    | (.ok _, d) => some { s with disk := d }
    | (.error _, _) => none
  -- the new process is whatever binary is there
  | .restart => (s.disk binary).map fun b => { s with running := versionOf b }

/-- Updates go to the path, and a binary reports the version of the manifest it came with. -/
def Reports (_ : Service) : Label → Prop
  | .install os pkg _ => resolveBinaryPath os cfg = .ok binary ∧
    versionOf pkg.binary = pkg.manifest.version
  | .restart => True

/-- The service runs the binary that is there. -/
def Service.Current (s : Service) : Prop := ∃ b, s.disk binary = some b ∧ s.running = versionOf b

/-- No update since the service has started. -/
def Fresh (tr : List Label) : Prop := tr = [] ∨ tr.getLast? = some .restart

end Runs

section Above
variable {Key : Type} {x : Extern Key} {arch osName : String} {cfg : UpdateConfig}
  {versionOf : Bytes → String} {binary : Path} {s s' s₀ : Service} {os : Os} {pkg : Package}
  {opts : ApplyOptions} {tr : List Label}

/-- A successful update leaves the binary of its package, whose version the policy has passed. -/
theorem step_install (h : s.step x arch osName cfg versionOf binary (.install os pkg opts) = some s')
    (hbinary : resolveBinaryPath os cfg = .ok binary) :
    s'.running = s.running ∧ s'.disk binary = some pkg.binary ∧
      (cfg.allowDowngrade = true ∨ versionLe pkg.manifest.version s.running = false) := by
  simp only [Service.step] at h
  split at h
  · next o d happly =>
    cases h
    cases applyPackage_applied happly with
    | swapped hready hbinary' hswap hresult =>
      cases hbinary.symm.trans hbinary'
      have hok := hresult.mp ⟨o, rfl⟩
      subst hok
      cases hswap with
      | installed _ _ hnew =>
        have hverified := hready.verified
        unfold verifyPackage at hverified
        rcases bind_ok hverified with ⟨_, -, hverified⟩
        rcases bind_ok hverified with ⟨_, -, hverified⟩
        exact ⟨rfl, hnew, (checkPolicy_ok hverified).2.2⟩
  · cases h

/-- The version installed is above that of the process that has installed it. -/
theorem above_running (hcfg : cfg.allowDowngrade = false)
    (h : s.step x arch osName cfg versionOf binary (.install os pkg opts) = some s')
    (hreports : Reports cfg versionOf binary s (.install os pkg opts)) :
    s'.running = s.running ∧ s'.disk binary = some pkg.binary ∧
      parseVersion s.running < parseVersion (versionOf pkg.binary) := by
  rcases step_install h hreports.1 with ⟨hrunning, hdisk, hpolicy⟩
  rw [hcfg] at hpolicy
  have hle := hpolicy.resolve_left (by simp)
  refine ⟨hrunning, hdisk, ?_⟩
  rw [hreports.2]
  simpa [versionLe] using hle

/-- The binary that is there is no older than the process that runs. -/
def Service.Behind (versionOf : Bytes → String) (binary : Path) (s : Service) : Prop :=
  ∀ b, s.disk binary = some b → parseVersion s.running ≤ parseVersion (versionOf b)

theorem behind_step (hcfg : cfg.allowDowngrade = false) {a : Label}
    (h : s.Behind versionOf binary) (hok : Reports cfg versionOf binary s a)
    (hstep : s.step x arch osName cfg versionOf binary a = some s') :
    s'.Behind versionOf binary ∧ parseVersion s.running ≤ parseVersion s'.running := by
  cases a with
  | install os pkg opts =>
    rcases above_running hcfg hstep hok with ⟨hrunning, hdisk, habove⟩
    refine ⟨fun b hb => ?_, by rw [hrunning]⟩
    cases hdisk.symm.trans hb
    rw [hrunning]
    exact habove.le
  | restart =>
    rcases Option.map_eq_some_iff.mp hstep with ⟨b, hb, rfl⟩
    refine ⟨fun b' hb' => ?_, h b hb⟩
    cases hb.symm.trans hb'
    exact le_rfl

/-- The service never goes back to a version below one it has run. -/
theorem running_mono (hcfg : cfg.allowDowngrade = false) (hstart : s₀.Behind versionOf binary)
    (h : Run (Service.step x arch osName cfg versionOf binary) (Reports cfg versionOf binary) s₀ tr s) :
    s.Behind versionOf binary ∧ ∀ tr₁ s₁, tr₁ <+: tr →
      Run (Service.step x arch osName cfg versionOf binary) (Reports cfg versionOf binary) s₀ tr₁ s₁ →
        parseVersion s₁.running ≤ parseVersion s.running := by
  have hsame {tr : List Label} {s s₁ : Service}
      (h : Run (Service.step x arch osName cfg versionOf binary) (Reports cfg versionOf binary) s₀ tr s)
      (h₁ : Run (Service.step x arch osName cfg versionOf binary) (Reports cfg versionOf binary) s₀ tr s₁) :
      s₁ = s := Option.some.inj (h₁.exec_eq.symm.trans h.exec_eq)
  induction h with
  | nil =>
    refine ⟨hstart, fun tr₁ s₁ hle hrun₁ => ?_⟩
    rw [List.prefix_nil.mp hle] at hrun₁
    rw [hsame .nil hrun₁]
  | @snoc tr s s' a hrun hok hstep ih =>
    have hnext := behind_step hcfg ih.1 hok hstep
    refine ⟨hnext.1, fun tr₁ s₁ hle hrun₁ => ?_⟩
    rcases List.prefix_concat_iff.mp hle with rfl | hle
    · rw [hsame (.snoc a hrun hok hstep) hrun₁]
    · exact (ih.2 tr₁ s₁ hle hrun₁).trans hnext.2

theorem current_of_fresh (hstart : s₀.Current versionOf binary)
    (h : Run (Service.step x arch osName cfg versionOf binary) (Reports cfg versionOf binary) s₀ tr s)
    (hfresh : Fresh tr) : s.Current versionOf binary := by
  cases h with
  | nil => exact hstart
  | @snoc tr s s' a _ _ hstep =>
    cases a with
    | install os pkg opts => simp [Fresh] at hfresh
    | restart =>
      rcases Option.map_eq_some_iff.mp hstep with ⟨b, hb, rfl⟩
      exact ⟨b, hb, rfl⟩

/-- Without `allow_downgrade` an update leaves a version above every one that the service has run
so far, and above the one it finds where it is the first since the service has started. -/
theorem installed_above (hcfg : cfg.allowDowngrade = false) (hstart : s₀.Current versionOf binary)
    (h : Run (Service.step x arch osName cfg versionOf binary) (Reports cfg versionOf binary) s₀ tr s)
    (hreports : Reports cfg versionOf binary s (.install os pkg opts))
    (hstep : s.step x arch osName cfg versionOf binary (.install os pkg opts) = some s') :
    ∃ new, s'.disk binary = some new ∧
      (∀ tr₁ s₁, tr₁ <+: tr →
        Run (Service.step x arch osName cfg versionOf binary) (Reports cfg versionOf binary) s₀ tr₁ s₁ →
          parseVersion s₁.running < parseVersion (versionOf new)) ∧
      (Fresh tr → ∀ old, s.disk binary = some old →
        parseVersion (versionOf old) < parseVersion (versionOf new)) := by
  rcases above_running hcfg hstep hreports with ⟨-, hdisk, habove⟩
  have hbehind : s₀.Behind versionOf binary := by
    rcases hstart with ⟨b, hb, hrunning⟩
    intro b' hb'
    cases hb.symm.trans hb'
    rw [hrunning]
  refine ⟨pkg.binary, hdisk, fun tr₁ s₁ hle hrun₁ => ?_, fun hfresh old hold => ?_⟩
  · exact ((running_mono hcfg hbehind h).2 tr₁ s₁ hle hrun₁).trans_lt habove
  · rcases current_of_fresh hstart h hfresh with ⟨b, hb, hrunning⟩
    cases hold.symm.trans hb
    rwa [← hrunning]

end Above

/-! ## Two updates -/

def releaseManifest (version sha256 : String) : Manifest := ⟨"scribe", version, "any", sha256, "", ""⟩

/-- The manifest that the bytes `[n]` stand for. -/
def releaseExtern : Extern Unit :=
  { openExtern [] newerManifest with
    manifestFromBytes := fun b =>
      .ok (if b = [1] then releaseManifest "2.0.0" "01" else releaseManifest "1.5.0" "02") }

def release (version sha256 : String) (n : UInt8) : Package :=
  ⟨[n], releaseManifest version sha256, "sig", [n]⟩

def releaseVersion (b : Bytes) : String :=
  if b = [1] then "2.0.0" else if b = [2] then "1.5.0" else "0.1.0"

def releaseStep (s : Service) (a : Label) : Option Service :=
  s.step releaseExtern "x86_64" "linux" installCfg releaseVersion ["bin", "scribe"] a

def firstService : Service := ⟨diskWith (some [7]) none, "0.1.0"⟩

def installTwo : Label := .install (osFailing []) (release "2.0.0" "01" 1) {}
def installOneFive : Label := .install (osFailing []) (release "1.5.0" "02" 2) {}

def afterTwo : Service := (releaseStep firstService installTwo).get (by decide +kernel)
def afterBoth : Service := (releaseStep afterTwo installOneFive).get (by decide +kernel)

/-- A second update before the restart takes the version back. -/
theorem not_upward_afterBoth :
    installCfg.allowDowngrade = false ∧ firstService.Current releaseVersion ["bin", "scribe"] ∧
      releaseStep firstService installTwo = some afterTwo ∧
      releaseStep afterTwo installOneFive = some afterBoth ∧
      afterTwo.disk ["bin", "scribe"] = some [1] ∧ afterBoth.disk ["bin", "scribe"] = some [2] ∧
      parseVersion (releaseVersion [2]) < parseVersion (releaseVersion [1]) := by
  refine ⟨rfl, ⟨[7], by decide +kernel, by decide +kernel⟩, (Option.some_get _).symm,
    (Option.some_get _).symm, by decide +kernel, by decide +kernel, by decide +kernel⟩

def afterOneFive : Service := (releaseStep firstService installOneFive).get (by decide +kernel)
def restarted : Service := (releaseStep afterOneFive .restart).get (by decide +kernel)
def afterUpgrade : Service := (releaseStep restarted installTwo).get (by decide +kernel)

/-- An update, a restart, and the next update. -/
theorem installed_above_afterUpgrade : ∃ new, afterUpgrade.disk ["bin", "scribe"] = some new ∧
    (∀ tr₁ s₁, tr₁ <+: [installOneFive, .restart] →
      Run releaseStep (Reports installCfg releaseVersion ["bin", "scribe"]) firstService tr₁ s₁ →
        parseVersion s₁.running < parseVersion (releaseVersion new)) ∧
    (Fresh [installOneFive, .restart] → ∀ old, restarted.disk ["bin", "scribe"] = some old →
      parseVersion (releaseVersion old) < parseVersion (releaseVersion new)) := by
  have hstart : firstService.Current releaseVersion ["bin", "scribe"] :=
    ⟨[7], by decide +kernel, by decide +kernel⟩
  have hfirst : releaseStep firstService installOneFive = some afterOneFive :=
    (Option.some_get _).symm
  have hrestart : releaseStep afterOneFive .restart = some restarted := (Option.some_get _).symm
  have hreports (s : Service) : Reports installCfg releaseVersion ["bin", "scribe"] s
      installOneFive := ⟨rfl, by decide +kernel⟩
  have hrun : Run (Service.step releaseExtern "x86_64" "linux" installCfg releaseVersion
      ["bin", "scribe"]) (Reports installCfg releaseVersion ["bin", "scribe"]) firstService
      [installOneFive, .restart] restarted :=
    .snoc _ (.snoc _ .nil (hreports _) hfirst) trivial hrestart
  have hstep : restarted.step releaseExtern "x86_64" "linux" installCfg releaseVersion
      ["bin", "scribe"] (.install (osFailing []) (release "2.0.0" "01" 1) {}) = some afterUpgrade :=
    (Option.some_get _).symm
  have hnext : Reports installCfg releaseVersion ["bin", "scribe"] restarted
      (.install (osFailing []) (release "2.0.0" "01" 1) {}) := ⟨rfl, by decide +kernel⟩
  have hnone : installCfg.allowDowngrade = false := rfl
  exact installed_above hnone hstart hrun hnext hstep

end ScribeLocal.Update
