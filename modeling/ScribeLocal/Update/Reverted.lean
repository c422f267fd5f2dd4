import ScribeLocal.Update.Undone
import ScribeLocal.Transition

/-!
# Updates and rollbacks one after the other

Each of them moves contents between a few names next to the binary, and any of its calls may
fail. What comes to the binary's path, when it stays there, and how one is taken back.
-/
namespace ScribeLocal.Update
open Pipeline (Path)
open Transition

variable {os os' os'' : Os} {site : Site} {d d₀ d₁ d₂ d₃ d' : Disk} {p q : Path} {names : Set Path}

/-! ## Calls that move contents -/

/-- What one of the names holds now, one of them has held before; other files are as they were. -/
structure Shuffled (names : Set Path) (d d' : Disk) : Prop where
  inside : ∀ q ∈ names, ∀ c, d' q = some c → ∃ p ∈ names, d p = some c
  outside : ∀ q, q ∉ names → d' q = d q

theorem Shuffled.refl : Shuffled names d d where
  inside := fun q hq _ hc => ⟨q, hq, hc⟩
  outside := fun _ _ => rfl

theorem Shuffled.trans (h₁ : Shuffled names d d₁) (h₂ : Shuffled names d₁ d₂) :
    Shuffled names d d₂ where
  inside := by
    intro q hq c hc
    rcases h₂.inside q hq c hc with ⟨p, hp, hcp⟩
    exact h₁.inside p hp c hcp
  outside := fun q hq => (h₂.outside q hq).trans (h₁.outside q hq)

theorem shuffled_remove (hp : p ∈ names) : Shuffled names d (os.remove site d p) where
  inside := by
    intro q hq c hc
    refine ⟨q, hq, ?_⟩
    unfold Os.remove at hc
    split at hc
    · exact hc
    · by_cases hqp : q = p
      · rw [hqp, Function.update_self] at hc
        cases hc
      · rwa [Function.update_of_ne hqp] at hc
  outside := fun q hq => remove_of_ne fun heq => hq (heq ▸ hp)

theorem shuffled_rename (hp : p ∈ names) (hq : q ∈ names) (h : os.rename site d p q = .ok d') :
    Shuffled names d d' := by
  unfold Os.rename at h
  split at h
  · cases h
  · split at h
    · next d₁ hrename =>
      cases h
      rcases Option.map_eq_some_iff.mp hrename with ⟨c, hc, rfl⟩
      constructor
      · intro r hr c' hc'
        by_cases hrq : r = q
        · rw [hrq, Function.update_self] at hc'
          cases hc'
          exact ⟨p, hp, hc⟩
        · rw [Function.update_of_ne hrq] at hc'
          by_cases hrp : r = p
          · rw [hrp, Function.update_self] at hc'
            cases hc'
          · rw [Function.update_of_ne hrp] at hc'
            exact ⟨r, hr, hc'⟩
      · intro r hr
        have hrp : r ≠ p := ne_of_mem_of_not_mem hp hr |>.symm
        have hrq : r ≠ q := ne_of_mem_of_not_mem hq hr |>.symm
        rw [Function.update_of_ne hrq, Function.update_of_ne hrp]
    · cases h

theorem shuffled_tryRename (hp : p ∈ names) (hq : q ∈ names) :
    Shuffled names d (os.tryRename site d p q) := by
  unfold Os.tryRename
  split
  · next hrename => exact shuffled_rename hp hq hrename
  · exact .refl

/-! ## A swap and a rollback move contents -/

section Moves
variable {staged binary backup : Path} {cfg : UpdateConfig}

theorem shuffled_backUp : Shuffled {staged, binary, backup} d (backUp os binary backup d).2 := by
  unfold backUp
  split
  · have hremove : Shuffled {staged, binary, backup} d (os.remove .removeBackup d backup) :=
      shuffled_remove (by simp)
    dsimp only
    split
    · next hrename => exact hremove.trans (shuffled_rename (by simp) (by simp) hrename)
    · exact hremove
  · exact .refl

theorem shuffled_install :
    Shuffled {staged, binary, backup} d (install os staged binary backup d).2 := by
  unfold install
  split
  · next hrename => exact shuffled_rename (by simp) (by simp) hrename
  · dsimp only
    split
    · exact shuffled_tryRename (by simp) (by simp)
    · exact .refl

theorem shuffled_swap : Shuffled {staged, binary, backup} d (swap os staged binary backup d).2 := by
  have hback : Shuffled {staged, binary, backup} d (backUp os binary backup d).2 := shuffled_backUp
  unfold swap
  split
  · next d₁ heq =>
    rw [heq] at hback
    exact hback.trans shuffled_install
  · exact hback

/-- The binary, its backup, and the name under which a rollback sets the binary aside. -/
def keptNames (binary : Path) : Set Path :=
  {binary, sibling binary "old", sibling binary "rollback-tmp"}

theorem shuffled_rollback (hbinary : resolveBinaryPath os cfg = .ok binary) :
    Shuffled (keptNames binary) d (rollback os cfg d).2 := by
  unfold rollback
  rw [hbinary]
  dsimp only
  split
  · have hremove : Shuffled (keptNames binary) d
        (os.remove .removePending d (sibling binary "rollback-tmp")) := shuffled_remove (by simp [keptNames])
    have haside : ∀ d₁, Shuffled (keptNames binary) d₁
        (setAside os binary (sibling binary "rollback-tmp") d₁).2 := by
      intro d₁
      unfold setAside
      split
      · split
        · next hrename => exact shuffled_rename (by simp [keptNames]) (by simp [keptNames]) hrename
        · exact .refl
      · exact .refl
    have hboth := hremove.trans (haside _)
    split
    · next heq =>
      rw [heq] at hboth
      exact hboth
    · next heq =>
      rw [heq] at hboth
      split
      · exact hboth
      · next hrename =>
        have hrolled := hboth.trans (shuffled_rename (by simp [keptNames]) (by simp [keptNames]) hrename)
        dsimp only
        split
        · exact hrolled.trans (shuffled_tryRename (by simp [keptNames]) (by simp [keptNames]))
        · exact hrolled
  · exact .refl

end Moves

/-! ## What an update brings -/

section Runs
variable {Key : Type} {x : Extern Key} {host : Host} {cfg : UpdateConfig} {pkg : Package}
  {archive b old : Bytes} {opts : ApplyOptions} {binary : Path} {o : UpdateOutcome}

/-- The names an update leaves alone, and where the contents of the binary and of its backup
come from. -/
theorem applyPackage_brings (hbinary : resolveBinaryPath os cfg = .ok binary)
    (h : (applyPackage x host os cfg pkg opts d).2 = d') :
    (∀ q ∉ ({sibling binary "new", binary, sibling binary "old"} : Set Path), d' q = d q) ∧
      ∀ q ∈ ({binary, sibling binary "old"} : Set Path), ∀ c, d' q = some c →
        d binary = some c ∨ d (sibling binary "old") = some c ∨
          c = pkg.binary ∧ verifyPackage x host cfg pkg = .ok () := by
  have hstaged : sibling binary "new" ≠ binary := sibling_ne_self
  have hbackup : sibling binary "new" ≠ sibling binary "old" := sibling_ne_sibling (by decide)
  -- files other than the staged one are as they were
  have hkept {d' : Disk} (hd' : ∀ q, q ≠ sibling binary "new" → d' q = d q) :
      (∀ q ∉ ({sibling binary "new", binary, sibling binary "old"} : Set Path), d' q = d q) ∧
        ∀ q ∈ ({binary, sibling binary "old"} : Set Path), ∀ c, d' q = some c →
          d binary = some c ∨ d (sibling binary "old") = some c ∨
            c = pkg.binary ∧ verifyPackage x host cfg pkg = .ok () := by
    refine ⟨fun q hq => hd' q fun heq => hq (.inl heq), ?_⟩
    rintro q (rfl | rfl) c hc
    · exact .inl ((hd' q hstaged.symm).symm.trans hc)
    · exact .inr (.inl ((hd' _ hbackup.symm).symm.trans hc))
  subst h
  unfold applyPackage
  rw [hbinary]
  split
  · exact hkept fun _ _ => rfl
  · next heq => cases heq
  · next hverify heq =>
    cases heq
    dsimp only
    split
    · next hstage => exact hkept fun q hq => stage_of_ne hstage hq
    · next d₁ hstage =>
      have hother (q : Path) (hq : q ≠ sibling binary "new") : d₁ q = d q := stage_of_ne hstage hq
      have hswap : Shuffled {sibling binary "new", binary, sibling binary "old"} d₁
        (swap os (sibling binary "new") binary (sibling binary "old") d₁).2 := shuffled_swap
      -- the staged file is the package's binary when the swap begins
      have hbrings : ∀ {d₂ : Disk}, Shuffled {sibling binary "new", binary, sibling binary "old"} d₁ d₂ →
          (∀ q ∉ ({sibling binary "new", binary, sibling binary "old"} : Set Path), d₂ q = d q) ∧
            ∀ q ∈ ({binary, sibling binary "old"} : Set Path), ∀ c, d₂ q = some c →
              d binary = some c ∨ d (sibling binary "old") = some c ∨
                c = pkg.binary ∧ verifyPackage x host cfg pkg = .ok () := by
        intro d₂ hmoved
        refine ⟨fun q hq => (hmoved.outside q hq).trans (hother q fun heq => hq (.inl heq)), ?_⟩
        intro q hq c hc
        rcases hmoved.inside q (.inr hq) c hc with ⟨p, rfl | rfl | rfl, hp⟩
        · cases (stage_ok hstage).symm.trans hp
          exact .inr (.inr ⟨rfl, hverify⟩)
        · exact .inl ((hother p hstaged.symm).symm.trans hp)
        · exact .inr (.inl ((hother _ hbackup.symm).symm.trans hp))
      split
      · exact hbrings (shuffled_remove (by simp))
      · split
        · next heq =>
          rw [heq] at hswap
          exact hbrings (hswap.trans (shuffled_remove (by simp)))
        · next heq =>
          rw [heq] at hswap
          exact hbrings hswap

/-! ## Runs -/

/-- What is asked of the program. -/
inductive Call where
  | update (host : Host) (os : Os) (archive : Bytes) (opts : ApplyOptions)
  | rollback (os : Os)

/-- Whatever it returns. -/
def Call.step (x : Extern Key) (cfg : UpdateConfig) (d : Disk) : Call → Option Disk
  | .update host os archive opts => some (Update.update x host os cfg archive opts d).2
  | .rollback os => some (Update.rollback os cfg d).2

/-- The contents were there under one of the names, or an update has brought them. -/
def Origin (x : Extern Key) (cfg : UpdateConfig) (binary : Path) (d₀ : Disk) (calls : List Call)
    (b : Bytes) : Prop :=
  (∃ q ∈ keptNames binary, d₀ q = some b) ∨
    ∃ host os archive opts, Call.update host os archive opts ∈ calls ∧ Authentic x host cfg archive b

theorem Origin.mono {calls calls' : List Call} (h : Origin x cfg binary d₀ calls b)
    (hle : calls ⊆ calls') : Origin x cfg binary d₀ calls' b := by
  rcases h with hold | ⟨host, os, archive, opts, hmem, hauthentic⟩
  · exact .inl hold
  · exact .inr ⟨host, os, archive, opts, hle hmem, hauthentic⟩

theorem resolve_of_configured (hcfg : cfg.binaryPath = some binary) :
    resolveBinaryPath os cfg = .ok binary := by
  rw [resolveBinaryPath, hcfg]

/-- One call: the contents of the three names come from them, or are authentic. -/
theorem origin_step (hcfg : cfg.binaryPath = some binary) {a : Call}
    (hstep : Call.step x cfg d a = some d') (hq : q ∈ keptNames binary) (hb : d' q = some b) :
    (∃ p ∈ keptNames binary, d p = some b) ∨
      ∃ host os archive opts, a = .update host os archive opts ∧ Authentic x host cfg archive b := by
  cases a with
  | rollback os =>
    cases hstep
    exact .inl ((shuffled_rollback (resolve_of_configured hcfg)).inside q hq b hb)
  | update host os archive opts =>
    cases hstep
    unfold Update.update at hb
    cases hread : fromReader x archive with
    | error e =>
      rw [hread] at hb
      exact .inl ⟨q, hq, hb⟩
    | ok pkg =>
      rw [hread] at hb
      have hbrings := applyPackage_brings (resolve_of_configured hcfg)
        (Eq.refl (applyPackage x host os cfg pkg opts d).2)
      by_cases hmoved : q ∈ ({binary, sibling binary "old"} : Set Path)
      · rcases hbrings.2 q hmoved b hb with hold | hold | ⟨rfl, hverify⟩
        · exact .inl ⟨_, .inl rfl, hold⟩
        · exact .inl ⟨_, .inr (.inl rfl), hold⟩
        · exact .inr ⟨host, os, archive, opts, rfl,
            authentic_of_verified (fromReader_ok hread) hverify⟩
      · refine .inl ⟨q, hq, (hbrings.1 q ?_).symm.trans hb⟩
        rintro (rfl | hmem)
        · rcases hq with heq | heq | heq
          · exact sibling_ne_self heq
          · exact sibling_ne_sibling (by decide) heq
          · exact sibling_ne_sibling (by decide) heq
        · exact hmoved hmem

/-- Whatever is called and whatever fails, the binary is one that was there before, under its own
name or one of the two next to it, or the authentic binary of an archive. -/
theorem origin_of_run (hcfg : cfg.binaryPath = some binary) {calls : List Call}
    (hrun : Run (Call.step x cfg) anyStep d₀ calls d) (hb : d binary = some b) :
    (∃ q ∈ keptNames binary, d₀ q = some b) ∨
      ∃ host os archive opts, Call.update host os archive opts ∈ calls ∧
        Authentic x host cfg archive b := by
  have hall : ∀ q ∈ keptNames binary, ∀ c, d q = some c → Origin x cfg binary d₀ calls c := by
    refine hrun.history (I := fun calls d => ∀ q ∈ keptNames binary, ∀ c, d q = some c →
      Origin x cfg binary d₀ calls c) (fun q hq c hc => .inl ⟨q, hq, hc⟩) ?_
    intro calls d a d' _ ih _ hstep q hq c hc
    rcases origin_step hcfg hstep hq hc with ⟨p, hp, hold⟩ | ⟨host, os, archive, opts, rfl, hauthentic⟩
    · exact (ih p hp c hold).mono (List.subset_append_left _ _)
    · exact .inr ⟨host, os, archive, opts, List.mem_append_right _ List.mem_cons_self, hauthentic⟩
  exact hall binary (.inl rfl) b hb

/-! ## When the binary stays -/

/-- The binary is backed up, the new one does not get into place, and the undo fails. -/
def UpdateLoses (x : Extern Key) (host : Host) (os : Os) (cfg : UpdateConfig) (archive : Bytes)
    (opts : ApplyOptions) (d : Disk) (binary : Path) : Prop :=
  (∃ pkg, fromReader x archive = .ok pkg ∧ Ready x host os cfg pkg opts) ∧
    os.exists .binaryExists d binary = true ∧ os.fails .backUp = none ∧ os.fails .install ≠ none ∧
      ¬ os.Restores

def Call.Loses (x : Extern Key) (cfg : UpdateConfig) (binary : Path) (d : Disk) : Call → Prop
  | .update host os archive opts => UpdateLoses x host os cfg archive opts d binary
  | .rollback os => RollbackLoses os d binary

theorem swapped_missing_iff {new : Bytes} {result : Except UpdateError Unit}
    (h : Swapped os d binary (sibling binary "old") new result d') (hb : d binary ≠ none) :
    d' binary ≠ none ↔ ¬ (os.exists .binaryExists d binary = true ∧ os.fails .backUp = none ∧
      os.fails .install ≠ none ∧ ¬ os.Restores) := by
  cases h with
  | installed _ hinstall hnew => simp [hnew, hinstall]
  | stuck _ hbackUp hsame _ => simp [hsame, hb, hbackUp]
  | restored _ _ _ hrestores hsame _ => simp [hsame, hb, hrestores]
  | lost hexists hbackUp hinstall hrestores hnone _ => simp [hnone, hexists, hbackUp, hinstall, hrestores]
  | revived hexists _ _ hold hback _ => simp [hback, hold, hexists]
  | untouched hexists _ _ hsame _ => simp [hsame, hb, hexists]

theorem update_missing_iff (hcfg : cfg.binaryPath = some binary) (hb : d binary ≠ none) :
    (update x host os cfg archive opts d).2 binary ≠ none ↔
      ¬ UpdateLoses x host os cfg archive opts d binary := by
  unfold update UpdateLoses
  cases hread : fromReader x archive with
  | error e => simp [hb]
  | ok pkg =>
    dsimp only
    rcases happly : applyPackage x host os cfg pkg opts d with ⟨result, d'⟩
    cases applyPackage_applied happly with
    | early hready hsame =>
      have hkept : d' binary = d binary := hsame binary fun b hresolve => by
        cases (resolve_of_configured hcfg).symm.trans hresolve
        exact sibling_ne_self.symm
      simp [hkept, hb, hready]
    | swapped hready hbinary hswap _ =>
      cases (resolve_of_configured hcfg).symm.trans hbinary
      simp [swapped_missing_iff hswap hb, hready]

/-- The last step of a rollback: what has been set aside becomes the backup. -/
theorem keepPending_of_set {pending backup : Path} {a : Bytes} (ha : d pending = some a) (hnone : d backup = none)
    (h : (if os.exists .pendingExists d pending then os.tryRename .keepPending d pending backup
      else d) = d') :
    if os.fails .pendingExists = none ∧ os.fails .keepPending = none then d' backup = some a
    else d' backup = none ∧ d' pending = some a := by
  subst h
  cases hexists : os.fails .pendingExists with
  | some e => simp [Os.exists, hexists, hnone, ha]
  | none =>
    cases hkeep : os.fails .keepPending with
    | some e => simp [Os.exists, hexists, ha, Os.tryRename, rename_of_fails hkeep, hnone]
    | none => simp [Os.exists, hexists, ha, Os.tryRename, rename_of_ok hkeep ha]

theorem keepPending_of_ne {pending backup : Path} (hpending : q ≠ pending) (hbackup : q ≠ backup)
    (h : (if os.exists .pendingExists d pending then os.tryRename .keepPending d pending backup
      else d) = d') : d' q = d q := by
  have hmoved : Shuffled {pending, backup} d (os.tryRename .keepPending d pending backup) :=
    shuffled_tryRename (by simp) (by simp)
  subst h
  split
  · exact hmoved.outside q fun hq => hq.elim hpending hbackup
  · rfl

/-- A rollback that succeeds puts the backup in place. The binary it finds there becomes the
backup, or stays where it has been set aside. -/
theorem rollback_ok {v : String} (hbinary : resolveBinaryPath os cfg = .ok binary)
    (h : rollback os cfg d = (.ok v, d')) :
    d' binary = d (sibling binary "old") ∧ d (sibling binary "old") ≠ none ∧
      (os.exists .binaryExists d binary = true →
        if os.fails .pendingExists = none ∧ os.fails .keepPending = none then
          d' (sibling binary "old") = d binary
        else d' (sibling binary "old") = none ∧ d' (sibling binary "rollback-tmp") = d binary) := by
  have hold : sibling binary "old" ≠ binary := sibling_ne_self
  have hpending : sibling binary "rollback-tmp" ≠ binary := sibling_ne_self
  have hboth : sibling binary "rollback-tmp" ≠ sibling binary "old" := sibling_ne_sibling (by decide)
  unfold rollback at h
  rw [hbinary] at h
  dsimp only at h
  by_cases hback : os.exists .backupExists d (sibling binary "old") = true
  · rw [if_pos hback] at h
    rcases (exists_iff.mp hback).2 with ⟨c, hc⟩
    generalize hd₁ : os.remove .removePending d (sibling binary "rollback-tmp") = d₁ at h
    have hbinary₁ : d₁ binary = d binary := by rw [← hd₁, remove_of_ne hpending.symm]
    have hbackup₁ : d₁ (sibling binary "old") = some c := by rw [← hd₁, remove_of_ne hboth.symm, hc]
    have hexists₁ : os.exists .binaryExists d₁ binary = os.exists .binaryExists d binary := by
      unfold Os.exists
      rw [hbinary₁]
    by_cases hexists : os.exists .binaryExists d binary = true
    · rcases (exists_iff.mp hexists).2 with ⟨a, ha⟩
      rw [setAside, hexists₁, if_pos hexists] at h
      cases haside : os.fails .setAside with
      | some e =>
        rw [rename_of_fails haside] at h
        cases h
      | none =>
        rw [rename_of_ok haside (hbinary₁.trans ha)] at h
        dsimp only at h
        generalize hd₂ : Function.update (Function.update d₁ binary none)
          (sibling binary "rollback-tmp") (some a) = d₂ at h
        have hbackup₂ : d₂ (sibling binary "old") = some c := by
          rw [← hd₂, Function.update_of_ne hboth.symm, Function.update_of_ne hold, hbackup₁]
        cases hroll : os.fails .rollBack with
        | some e =>
          rw [rename_of_fails hroll] at h
          cases h
        | none =>
          rw [rename_of_ok hroll hbackup₂] at h
          dsimp only at h
          generalize hd₃ : Function.update (Function.update d₂ (sibling binary "old") none) binary
            (some c) = d₃ at h
          have hbinary₃ : d₃ binary = some c := by rw [← hd₃, Function.update_self]
          have hbackup₃ : d₃ (sibling binary "old") = none := by
            rw [← hd₃, Function.update_of_ne hold, Function.update_self]
          have hpending₃ : d₃ (sibling binary "rollback-tmp") = some a := by
            rw [← hd₃, Function.update_of_ne hpending, Function.update_of_ne hboth, ← hd₂,
              Function.update_self]
          have hlast := (Prod.ext_iff.mp h).2
          dsimp only at hlast
          refine ⟨?_, by simp [hc], fun _ => ?_⟩
          · rw [keepPending_of_ne hpending.symm hold.symm hlast, hbinary₃, hc]
          · rw [ha]
            exact keepPending_of_set hpending₃ hbackup₃ hlast
    · have hmissing : os.exists .binaryExists d binary = false := by simpa using hexists
      rw [setAside, hexists₁, if_neg hexists] at h
      dsimp only at h
      cases hroll : os.fails .rollBack with
      | some e =>
        rw [rename_of_fails hroll] at h
        cases h
      | none =>
        rw [rename_of_ok hroll hbackup₁] at h
        have hlast := (Prod.ext_iff.mp h).2
        dsimp only at hlast
        refine ⟨?_, by simp [hc], fun hyes => absurd hyes hexists⟩
        rw [keepPending_of_ne hpending.symm hold.symm hlast, Function.update_self, hc]
  · rw [if_neg hback] at h
    cases h

theorem rollback_of_loses (hbinary : resolveBinaryPath os cfg = .ok binary)
    (h : RollbackLoses os d binary) : (rollback os cfg d).2 binary = none := by
  rcases h with ⟨hback, hexists, haside, hroll⟩
  rcases (exists_iff.mp hexists).2 with ⟨a, ha⟩
  have hpending : sibling binary "rollback-tmp" ≠ binary := sibling_ne_self
  rcases Option.ne_none_iff_exists'.mp hroll with ⟨e, he⟩
  unfold rollback
  rw [hbinary]
  dsimp only
  rw [if_pos hback]
  generalize hd₁ : os.remove .removePending d (sibling binary "rollback-tmp") = d₁
  have hbinary₁ : d₁ binary = d binary := by rw [← hd₁, remove_of_ne hpending.symm]
  have hexists₁ : os.exists .binaryExists d₁ binary = true := by
    unfold Os.exists at hexists ⊢
    rw [hbinary₁, hexists]
  rw [setAside, if_pos hexists₁, rename_of_ok haside (hbinary₁.trans ha)]
  dsimp only
  rw [rename_of_fails he]
  dsimp only
  rw [Function.update_of_ne hpending.symm, Function.update_self]

theorem rollback_missing_iff (hcfg : cfg.binaryPath = some binary) (hb : d binary ≠ none) :
    (rollback os cfg d).2 binary ≠ none ↔ ¬ RollbackLoses os d binary := by
  have hbinary : resolveBinaryPath os cfg = .ok binary := resolve_of_configured hcfg
  constructor
  · intro hthere hloses
    exact hthere (rollback_of_loses hbinary hloses)
  · intro hkeeps
    rcases hroll : rollback os cfg d with ⟨result, d'⟩
    cases result with
    | ok v =>
      have hok := rollback_ok hbinary hroll
      dsimp only
      rw [hok.1]
      exact hok.2.1
    | error e =>
      have hall : ∀ b, resolveBinaryPath os cfg = .ok b → ¬ RollbackLoses os d b := by
        intro b hb'
        cases hbinary.symm.trans hb'
        exact hkeeps
      have hkept := rollback_keeps_iff.mpr hall ⟨e, by rw [hroll]⟩ binary hbinary
      rw [hroll] at hkept
      rw [hkept.1]
      exact hb

/-- In a run that begins with a binary, the binary is there all along exactly if none of its calls
is one that loses it. -/
theorem present_iff_of_run (hcfg : cfg.binaryPath = some binary) {calls : List Call}
    (hb : d₀ binary ≠ none) (hrun : Run (Call.step x cfg) anyStep d₀ calls d) :
    (∀ calls₁ d₁, calls₁ <+: calls → Run (Call.step x cfg) anyStep d₀ calls₁ d₁ → d₁ binary ≠ none) ↔
      Run (Call.step x cfg) (fun d a => ¬ a.Loses x cfg binary d) d₀ calls d := by
  refine hrun.always_iff (I := fun _ => True) (P := fun d => d binary ≠ none) trivial hb
    (fun _ _ _ _ _ => trivial) ?_
  intro d a d' _ hthere hstep
  cases a with
  | update host os archive opts =>
    cases hstep
    exact update_missing_iff hcfg hthere
  | rollback os =>
    cases hstep
    exact rollback_missing_iff hcfg hthere

/-! ## Back and forth -/

theorem backUp_ok {backup : Path} (hne : backup ≠ binary)
    (hexists : os.exists .binaryExists d binary = true)
    (h : backUp os binary backup d = (.ok (), d')) :
    d' backup = d binary ∧ ∀ q, q ≠ backup → q ≠ binary → d' q = d q := by
  rcases (exists_iff.mp hexists).2 with ⟨a, ha⟩
  have hkept : os.remove .removeBackup d backup binary = some a := by rw [remove_of_ne hne.symm, ha]
  rw [backUp, if_pos hexists] at h
  cases hbackUp : os.fails .backUp with
  | some e =>
    simp only [rename_of_fails hbackUp] at h
    cases h
  | none =>
    simp only [rename_of_ok hbackUp hkept] at h
    cases h
    refine ⟨by rw [Function.update_self, ha], fun q hback hbin => ?_⟩
    rw [Function.update_of_ne hback, Function.update_of_ne hbin, remove_of_ne hback]

theorem install_ok {staged backup : Path} {new : Bytes} (hstaged : d staged = some new)
    (h : install os staged binary backup d = (.ok (), d')) :
    d' = Function.update (Function.update d staged none) binary (some new) := by
  unfold install at h
  cases hinstall : os.fails .install with
  | some e =>
    rw [rename_of_fails hinstall] at h
    cases h
  | none =>
    rw [rename_of_ok hinstall hstaged] at h
    cases h
    rfl

/-- An update that succeeds leaves the binary it has found as the backup. -/
theorem update_ok (hcfg : cfg.binaryPath = some binary)
    (hexists : os.exists .binaryExists d binary = true)
    (h : update x host os cfg archive opts d = (.ok o, d')) :
    (∃ pkg, fromReader x archive = .ok pkg ∧ verifyPackage x host cfg pkg = .ok () ∧
      d' binary = some pkg.binary) ∧ d' (sibling binary "old") = d binary := by
  have hstaged : sibling binary "new" ≠ binary := sibling_ne_self
  have hbackup : sibling binary "new" ≠ sibling binary "old" := sibling_ne_sibling (by decide)
  have hold : sibling binary "old" ≠ binary := sibling_ne_self
  unfold update at h
  cases hread : fromReader x archive with
  | error e =>
    rw [hread] at h
    cases h
  | ok pkg =>
    rw [hread] at h
    dsimp only at h
    unfold applyPackage at h
    rw [resolve_of_configured hcfg] at h
    split at h
    · cases h
    · next heq => cases heq
    · next hverify heq =>
      cases heq
      dsimp only at h
      split at h
      · cases h
      · next d₁ hstage =>
        have hother (q : Path) (hq : q ≠ sibling binary "new") : d₁ q = d q := stage_of_ne hstage hq
        have hexists₁ : os.exists .binaryExists d₁ binary = true := by
          unfold Os.exists at hexists ⊢
          rw [hother _ hstaged.symm, hexists]
        split at h
        · cases h
        · split at h
          · cases h
          · next d₂ hswap =>
            cases h
            unfold swap at hswap
            split at hswap
            · next d₃ hback =>
              have hbacked := backUp_ok hold hexists₁ hback
              have hnew : d₃ (sibling binary "new") = some pkg.binary := by
                rw [hbacked.2 _ hbackup hstaged, stage_ok hstage]
              rw [install_ok hnew hswap]
              refine ⟨⟨pkg, rfl, hverify, Function.update_self _ _ _⟩, ?_⟩
              rw [Function.update_of_ne hold, Function.update_of_ne hbackup.symm, hbacked.1,
                hother _ hstaged.symm]
            · next hfailed =>
              rw [hswap] at hfailed
              exact absurd rfl (hfailed d')

/-- The calls by which a rollback finds the binary and keeps it as the backup do not fail. -/
def Os.Keeps (os : Os) : Prop :=
  os.fails .binaryExists = none ∧ os.fails .pendingExists = none ∧ os.fails .keepPending = none

end Runs

/-! ## Two versions -/

def upgraded : Disk := (update newerExtern thisHost (osFailing []) installCfg [] {}
  (diskWith (some [7]) none)).2

theorem origin_of_run_upgraded :
    (∃ q ∈ keptNames ["bin", "scribe"], diskWith (some [7]) none q = some [1]) ∨
      ∃ host os archive opts,
        Call.update host os archive opts ∈ [Call.update thisHost (osFailing []) [] {}] ∧
          Authentic newerExtern host installCfg archive [1] := by
  have hrun : Run (Call.step newerExtern installCfg) anyStep (diskWith (some [7]) none)
      [.update thisHost (osFailing []) [] {}] upgraded := run_of_exec rfl
  exact origin_of_run rfl hrun (by decide +kernel)

theorem present_iff_of_run_upgraded :
    Run (Call.step newerExtern installCfg) anyStep (diskWith (some [7]) none)
        [.update thisHost (osFailing []) [] {}] upgraded ∧
      ∀ calls₁ d₁, calls₁ <+: [Call.update thisHost (osFailing []) [] {}] →
        Run (Call.step newerExtern installCfg) anyStep (diskWith (some [7]) none) calls₁ d₁ →
          d₁ ["bin", "scribe"] ≠ none := by
  have hrun : Run (Call.step newerExtern installCfg) anyStep (diskWith (some [7]) none)
      [.update thisHost (osFailing []) [] {}] upgraded := run_of_exec rfl
  refine ⟨hrun, (present_iff_of_run rfl (by decide +kernel) hrun).mpr (run_of_allowed rfl ?_)⟩
  rintro a ha d hloses
  cases List.mem_singleton.mp ha
  exact hloses.2.2.2.1 rfl

def downgraded : Disk := (rollback (osFailing []) installCfg upgraded).2

end ScribeLocal.Update
