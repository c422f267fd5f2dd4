import ScribeLocal.Update.Signed

/-!
# What a failed update leaves behind

An update that cannot be put in place is undone, a rollback is not. When each of them leaves
the binary and its backup as they were.
-/
namespace ScribeLocal.Update
open Pipeline (Path)

section Undo
variable {Key : Type} (x : Extern Key) (host : Host) (os : Os) (cfg : UpdateConfig) (pkg : Package)
  (opts : ApplyOptions) (d : Disk)

/-- Where a call returns an error, the binary and its backup are what they were. -/
def KeepsOnError {α : Type} (result : Except UpdateError α × Disk) : Prop :=
  (∃ e, result.1 = .error e) → ∀ binary, resolveBinaryPath os cfg = .ok binary →
    result.2 binary = d binary ∧ result.2 (sibling binary "old") = d (sibling binary "old")

/-- The swap is not one that fails with a backup already removed, or leaves one where it has been
put. With a binary to back up: where the backup fails, there was no older one or its removal has
failed as well; where the install fails, the undo works and there was no older one. Without:
where the install fails, there is no older backup or the undo does not work. -/
def SwapKeeps (binary : Path) : Prop :=
  if os.exists .binaryExists d binary then
    (os.fails .backUp ≠ none → d (sibling binary "old") = none ∨ os.fails .removeBackup ≠ none) ∧
      (os.fails .backUp = none → os.fails .install ≠ none →
        os.Restores ∧ d (sibling binary "old") = none)
  else os.fails .install ≠ none → os.Restores → d (sibling binary "old") = none

/-- The binary is out of the way, and the backup cannot be put in its place. -/
def RollbackLoses (binary : Path) : Prop :=
  os.exists .backupExists d (sibling binary "old") = true ∧ os.exists .binaryExists d binary = true ∧
    os.fails .setAside = none ∧ os.fails .rollBack ≠ none

end Undo

section Undone
variable {Key : Type} {x : Extern Key} {host : Host} {os : Os} {cfg : UpdateConfig} {pkg : Package}
  {opts : ApplyOptions} {d d' : Disk} {binary : Path} {new : Bytes}

/-- A swap that fails keeps the two files exactly under the condition. -/
theorem swapped_keeps_iff {swapped : Except UpdateError Unit}
    (h : Swapped os d binary (sibling binary "old") new swapped d') :
    (swapped ≠ .ok () → d' binary = d binary ∧ d' (sibling binary "old") = d (sibling binary "old")) ↔
      SwapKeeps os d binary := by
  unfold SwapKeeps
  cases h with
  | installed hbackUp hinstall =>
    split
    · next hexists => simp [hbackUp hexists, hinstall]
    · simp [hinstall]
  | stuck hexists hbackUp hbinary hbackup =>
    rw [if_pos hexists]
    simp only [ne_eq, reduceCtorEq, not_false_eq_true, forall_const, hbinary, hbackup, true_and,
      hbackUp, false_implies, and_true]
    by_cases hremove : os.fails .removeBackup = none
    · simp [hremove, eq_comm]
    · simp [hremove, Option.isSome_iff_ne_none]
  | restored hexists hbackUp hinstall hrestores hbinary hbackup =>
    rw [if_pos hexists]
    simp [hbackUp, hinstall, hrestores, hbinary, hbackup, eq_comm]
  | lost hexists hbackUp hinstall hrestores hbinary hbackup =>
    rw [if_pos hexists]
    rcases (exists_iff.mp hexists).2 with ⟨c, hc⟩
    simp [hbackUp, hinstall, hrestores, hbinary, hc]
  | revived hexists hinstall hrestores hold hbinary hbackup =>
    rw [if_neg (by simp [hexists])]
    simp [hinstall, hrestores, hold, hbackup, Ne.symm hold]
  | untouched hexists hinstall hrestores hbinary hbackup =>
    rw [if_neg (by simp [hexists])]
    simpa [hinstall, hbinary, hbackup] using hrestores

theorem applyPackage_keeps_iff :
    KeepsOnError os cfg d (applyPackage x host os cfg pkg opts d) ↔
      (Ready x host os cfg pkg opts → ∀ binary, resolveBinaryPath os cfg = .ok binary →
        SwapKeeps os d binary) := by
  rcases happly : applyPackage x host os cfg pkg opts d with ⟨result, d'⟩
  cases applyPackage_applied happly with
  | early hready hsame =>
    refine iff_of_true (fun _ binary hbinary => ⟨hsame _ ?_, hsame _ ?_⟩) fun h => absurd h hready
    · intro b hb
      cases hbinary.symm.trans hb
      exact sibling_ne_self.symm
    · intro b hb
      cases hbinary.symm.trans hb
      exact sibling_ne_sibling (by decide)
  | @swapped binary swapped _ _ hready hbinary hswap hresult =>
    have herror : (∃ e, result = .error e) ↔ swapped ≠ .ok () := by
      rw [Ne, ← hresult]
      cases result <;> simp
    have hkeeps := swapped_keeps_iff hswap
    rw [← herror] at hkeeps
    constructor
    · intro h _ b hb
      cases hbinary.symm.trans hb
      exact hkeeps.mp fun he => h he binary hbinary
    · intro h he b hb
      cases hbinary.symm.trans hb
      exact hkeeps.mpr (h hready binary hbinary) he

theorem rollback_keeps_iff :
    KeepsOnError os cfg d (rollback os cfg d) ↔
      ∀ binary, resolveBinaryPath os cfg = .ok binary → ¬ RollbackLoses os d binary := by
  unfold KeepsOnError rollback
  cases hresolve : resolveBinaryPath os cfg with
  | error e => simp
  | ok binary =>
    simp only [Except.ok.injEq, forall_eq', RollbackLoses]
    by_cases hback : os.exists .backupExists d (sibling binary "old") = true
    · rw [if_pos hback]
      simp only [hback, true_and]
      generalize hd₁ : os.remove .removePending d (sibling binary "rollback-tmp") = d₁
      have hbinary₁ : d₁ binary = d binary := by
        rw [← hd₁, remove_of_ne sibling_ne_self.symm]
      have hbackup₁ : d₁ (sibling binary "old") = d (sibling binary "old") := by
        rw [← hd₁, remove_of_ne (sibling_ne_sibling (by decide))]
      have hexists₁ : os.exists .binaryExists d₁ binary = os.exists .binaryExists d binary := by
        unfold Os.exists
        rw [hbinary₁]
      by_cases hexists : os.exists .binaryExists d binary = true
      · simp only [setAside, hexists₁, hexists, if_true, true_and]
        rcases (exists_iff.mp hexists).2 with ⟨c, hc⟩
        cases haside : os.fails .setAside with
        | some e => simp [rename_of_fails haside, hbinary₁, hbackup₁]
        | none =>
          simp only [rename_of_ok haside (hbinary₁.trans hc), true_and]
          generalize hd₂ : Function.update (Function.update d₁ binary none)
            (sibling binary "rollback-tmp") (some c) = d₂
          have hbinary₂ : d₂ binary = none := by
            rw [← hd₂, Function.update_of_ne sibling_ne_self.symm, Function.update_self]
          have hbackup₂ : d₂ (sibling binary "old") = d (sibling binary "old") := by
            rw [← hd₂, Function.update_of_ne (sibling_ne_sibling (by decide)),
              Function.update_of_ne sibling_ne_self, hbackup₁]
          rcases (exists_iff.mp hback).2 with ⟨old, hold⟩
          cases hroll : os.fails .rollBack with
          | some e => simp [rename_of_fails hroll, hbinary₂, hc]
          | none => simp [rename_of_ok hroll (hbackup₂.trans hold)]
      · have hmissing : os.exists .binaryExists d binary = false := by simpa using hexists
        simp only [setAside, hexists₁, hmissing, Bool.false_eq_true, if_false, false_and, not_false_eq_true,
          iff_true]
        cases os.rename .rollBack d₁ (sibling binary "old") binary with
        | error e => simp [hbinary₁, hbackup₁]
        | ok d₂ => simp
    · rw [if_neg hback]
      simp [hback]

/-- An update or a rollback that fails leaves the binary and its backup as they were exactly where
its swap, or the rename over a binary that is out of the way, is not the kind that cannot be undone. -/
theorem keepsOnError_iff :
    (KeepsOnError os cfg d (applyPackage x host os cfg pkg opts d) ↔
      (Ready x host os cfg pkg opts → ∀ binary, resolveBinaryPath os cfg = .ok binary →
        SwapKeeps os d binary)) ∧
    (KeepsOnError os cfg d (rollback os cfg d) ↔
      ∀ binary, resolveBinaryPath os cfg = .ok binary → ¬ RollbackLoses os d binary) :=
  ⟨applyPackage_keeps_iff, rollback_keeps_iff⟩

end Undone

def newerPackage : Package := ⟨[0], newerManifest, "sig", [1]⟩

/-- The older backup is gone when the install fails, and so is the binary when the rename of a
rollback does. -/
theorem not_keepsOnError :
    ¬ KeepsOnError (osFailing [.install]) installCfg (diskWith (some [7]) (some [6]))
      (applyPackage newerExtern thisHost (osFailing [.install]) installCfg newerPackage {}
        (diskWith (some [7]) (some [6]))) ∧
    ¬ KeepsOnError (osFailing [.rollBack]) installCfg (diskWith (some [7]) (some [6]))
      (rollback (osFailing [.rollBack]) installCfg (diskWith (some [7]) (some [6]))) := by
  constructor
  · intro h
    have hbackup := (h ⟨_, rfl⟩ ["bin", "scribe"] rfl).2
    exact absurd hbackup (by decide +kernel)
  · intro h
    have hbinary := (h ⟨_, rfl⟩ ["bin", "scribe"] rfl).1
    exact absurd hbinary (by decide +kernel)

end ScribeLocal.Update
