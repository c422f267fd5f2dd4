import ScribeLocal.Update.Install

/-!
# What an update can bring to the binary's path

The bytes are those of a package whose manifest is signed and names their hash, or those of
the backup, which the undo brings back where there was no binary to back up.
-/
namespace ScribeLocal.Update
open Pipeline (Path)

/-! ## What is read of an archive -/

/-- The bytes of an entry, if its base name is `name`. -/
def EntryRead.named (name : String) : EntryRead → Option Bytes
  | .entry path bytes => if basename path = name then some bytes else none
  | _ => none

/-- The bytes of the last entry of that base name. -/
def lastNamed (name : String) (entries : List EntryRead) : Option Bytes :=
  (entries.filterMap (EntryRead.named name)).getLast?

section Read
variable {Key : Type} {x : Extern Key} {entry : EntryRead} {entries : List EntryRead}
  {parts parts' : Parts} {archive : Bytes} {pkg : Package}

theorem lastNamed_cons (name : String) (entry : EntryRead) (entries : List EntryRead) :
    lastNamed name (entry :: entries) = (lastNamed name entries).or (entry.named name) := by
  unfold lastNamed
  cases hentry : entry.named name with
  | none => simp [hentry]
  | some bytes =>
    rw [List.filterMap_cons_some hentry, List.getLast?_cons]
    cases (entries.filterMap (EntryRead.named name)).getLast? <;> rfl

theorem readEntry_ok (h : readEntry x parts entry = .ok parts') :
    parts'.manifestBytes = (entry.named manifestEntry).or parts.manifestBytes ∧
      parts'.signatureHex =
        ((entry.named sigEntry).map fun b => trim (x.utf8Lossy b)).or parts.signatureHex := by
  cases entry with
  | badEntry | badPath | unread => cases h
  | entry path bytes =>
    simp only [readEntry] at h
    simp only [EntryRead.named]
    split at h
    · next hname =>
      cases h
      simp [hname, manifestEntry, sigEntry]
    · next hmanifest =>
      rw [if_neg hmanifest]
      split at h
      · next hname =>
        cases h
        simp [hname]
      · next hsig =>
        rw [if_neg hsig]
        split at h
        · cases h
          exact ⟨rfl, rfl⟩
        · split at h <;> cases h <;> exact ⟨rfl, rfl⟩

/-- Of entries of one name the last one counts. -/
theorem readEntries_ok (h : entries.foldlM (readEntry x) parts = .ok parts') :
    parts'.manifestBytes = (lastNamed manifestEntry entries).or parts.manifestBytes ∧
      parts'.signatureHex =
        ((lastNamed sigEntry entries).map fun b => trim (x.utf8Lossy b)).or parts.signatureHex := by
  induction entries generalizing parts with
  | nil =>
    cases h
    exact ⟨rfl, rfl⟩
  | cons entry entries ih =>
    rw [List.foldlM_cons] at h
    cases hentry : readEntry x parts entry with
    | error e =>
      rw [hentry] at h
      cases h
    | ok parts₁ =>
      rw [hentry] at h
      have hrest := ih h
      have hfirst := readEntry_ok hentry
      rw [lastNamed_cons, lastNamed_cons, hrest.1, hrest.2, hfirst.1, hfirst.2, Option.or_assoc]
      refine ⟨rfl, ?_⟩
      cases lastNamed sigEntry entries <;> rfl

/-- Where a package that has been read comes from. -/
structure ReadFrom (x : Extern Key) (archive : Bytes) (pkg : Package) : Prop where
  source : ∃ entries sig, x.entries archive = .ok entries ∧
    lastNamed manifestEntry entries = some pkg.manifestBytes ∧ lastNamed sigEntry entries = some sig ∧
      pkg.signatureHex = trim (x.utf8Lossy sig)
  manifest : x.manifestFromBytes pkg.manifestBytes = .ok pkg.manifest

theorem required_ok {α : Type} {name : String} {o : Option α} {y : α} (h : required name o = .ok y) :
    o = some y := by
  cases o with
  | none => cases h
  | some z =>
    cases h
    rfl

theorem mapError_ok {α β γ : Type} {r : Except α γ} {f : α → β} {y : γ} (h : r.mapError f = .ok y) :
    r = .ok y := by
  cases r with
  | error e => cases h
  | ok z =>
    cases h
    rfl

theorem bind_ok {α β γ : Type} {r : Except γ α} {f : α → Except γ β} {y : β} (h : r >>= f = .ok y) :
    ∃ z, r = .ok z ∧ f z = .ok y := by
  cases r with
  | error e => cases h
  | ok z => exact ⟨z, rfl, h⟩

theorem fromReader_ok (h : fromReader x archive = .ok pkg) : ReadFrom x archive pkg := by
  unfold fromReader at h
  rcases bind_ok h with ⟨entries, hentries, h⟩
  rcases bind_ok h with ⟨parts, hparts, h⟩
  rcases bind_ok h with ⟨manifestBytes, hbytes, h⟩
  rcases bind_ok h with ⟨signatureHex, hsig, h⟩
  rcases bind_ok h with ⟨binary, -, h⟩
  rcases bind_ok h with ⟨manifest, hmanifest, h⟩
  cases h
  rcases readEntries_ok hparts with ⟨hfirst, hsecond⟩
  rw [required_ok hbytes, Option.or_none] at hfirst
  rw [required_ok hsig, Option.or_none] at hsecond
  rcases Option.map_eq_some_iff.mp hsecond.symm with ⟨sig, hlast, hsigHex⟩
  exact ⟨⟨entries, sig, mapError_ok hentries, hfirst.symm, hlast, hsigHex.symm⟩,
    mapError_ok hmanifest⟩

end Read

/-! ## What is verified -/

/-- The bytes are those that a signed manifest of the archive names by their hash, and the
manifest is one for this program and this machine. -/
def Authentic {Key : Type} (x : Extern Key) (host : Host) (cfg : UpdateConfig) (archive b : Bytes) :
    Prop :=
  ∃ entries manifestBytes sig publicKey key signature m,
    (x.entries archive = .ok entries ∧ lastNamed manifestEntry entries = some manifestBytes ∧
      lastNamed sigEntry entries = some sig) ∧
    (cfg.publicKey = some publicKey ∧ parsePublicKey x publicKey = .ok key ∧
      parseSignature x (trim (x.utf8Lossy sig)) = .ok signature ∧
        x.verifyStrict key manifestBytes signature = true) ∧
    x.manifestFromBytes manifestBytes = .ok m ∧
    x.hexEncode (x.sha256 b) = x.toLowercase (trim m.sha256) ∧
    m.name = "scribe" ∧
    (m.target = host.currentTarget ∨ m.target = "any" ∨ cfg.allowTargetMismatch = true)

section Verify
variable {Key : Type} {x : Extern Key} {host : Host} {cfg : UpdateConfig} {pkg : Package}
  {archive b : Bytes} {os : Os} {opts : ApplyOptions} {d : Disk} {binary : Path}

theorem checkSignature_ok (h : checkSignature x cfg pkg = .ok ()) :
    ∃ publicKey key signature, cfg.publicKey = some publicKey ∧ parsePublicKey x publicKey = .ok key ∧
      parseSignature x pkg.signatureHex = .ok signature ∧
        x.verifyStrict key pkg.manifestBytes signature = true := by
  unfold checkSignature at h
  rcases bind_ok h with ⟨publicKey, hpublic, h⟩
  rcases bind_ok h with ⟨key, hkey, h⟩
  rcases bind_ok h with ⟨signature, hsig, h⟩
  refine ⟨publicKey, key, signature, ?_, hkey, hsig, ?_⟩
  · unfold configuredKey at hpublic
    split at hpublic
    · next hkey =>
      cases hpublic
      exact hkey
    · cases hpublic
  · split at h
    · assumption
    · cases h

theorem checkSum_ok (h : checkSum x pkg = .ok ()) :
    x.hexEncode (x.sha256 pkg.binary) = x.toLowercase (trim pkg.manifest.sha256) := by
  unfold checkSum at h
  dsimp only at h
  split at h
  · assumption
  · cases h

theorem checkPolicy_ok {m : Manifest} (h : checkPolicy host cfg m = .ok ()) :
    m.name = "scribe" ∧
      (m.target = host.currentTarget ∨ m.target = "any" ∨ cfg.allowTargetMismatch = true) ∧
        (cfg.allowDowngrade = true ∨ versionLe m.version host.running = false) := by
  unfold checkPolicy at h
  split at h
  · cases h
  · next hname =>
    split at h
    · cases h
    · next htarget =>
      split at h
      · cases h
      · next hdown =>
        refine ⟨not_not.mp hname, ?_, ?_⟩
        · by_contra hno
          push Not at hno
          exact htarget ⟨hno.1, hno.2.2, hno.2.1⟩
        · rw [not_and_or, not_not] at hdown
          exact hdown.imp id Bool.eq_false_of_not_eq_true

/-- The binary of a package that has been read and verified is authentic. -/
theorem authentic_of_verified (hread : ReadFrom x archive pkg)
    (h : verifyPackage x host cfg pkg = .ok ()) : Authentic x host cfg archive pkg.binary := by
  unfold verifyPackage at h
  rcases bind_ok h with ⟨_, hsig, h⟩
  rcases bind_ok h with ⟨_, hsum, h⟩
  rcases hread.source with ⟨entries, sig, hentries, hmanifest, hlast, hhex⟩
  rcases checkSignature_ok hsig with ⟨publicKey, key, signature, hpublic, hkey, hparsed, hverified⟩
  rw [hhex] at hparsed
  have hpolicy := checkPolicy_ok h
  exact ⟨entries, pkg.manifestBytes, sig, publicKey, key, signature, pkg.manifest,
    ⟨hentries, hmanifest, hlast⟩, ⟨hpublic, hkey, hparsed, hverified⟩, hread.manifest,
    checkSum_ok hsum, hpolicy.1, hpolicy.2.1⟩

/-- Bytes that come to the binary's path in an update are authentic; or the rename into place has
failed, no binary was found there before, and they are the bytes of the backup. -/
theorem authentic_of_changed (hbinary : resolveBinaryPath os cfg = .ok binary)
    (hafter : (update x host os cfg archive opts d).2 binary = some b) (hbefore : d binary ≠ some b) :
    Authentic x host cfg archive b ∨
      (∃ e, (update x host os cfg archive opts d).1 = .error e) ∧ os.fails .install ≠ none ∧
        os.exists .binaryExists d binary = false ∧ d (sibling binary "old") = some b := by
  unfold update at hafter ⊢
  cases hread : fromReader x archive with
  | error e =>
    rw [hread] at hafter
    exact absurd hafter hbefore
  | ok pkg =>
    rw [hread] at hafter
    dsimp only at hafter ⊢
    rcases happly : applyPackage x host os cfg pkg opts d with ⟨result, d'⟩
    have happlied := applyPackage_applied happly
    rw [happly] at hafter
    cases happlied with
    | early _ hsame =>
      have hsame' : d' binary = d binary := hsame binary fun b hb => by
        cases hbinary.symm.trans hb
        exact sibling_ne_self.symm
      exact absurd (hsame'.symm.trans hafter) hbefore
    | swapped hready hbinary' hswap hresult =>
      cases hbinary.symm.trans hbinary'
      cases hswap with
      | installed _ _ hnew =>
        cases hnew.symm.trans hafter
        exact .inl (authentic_of_verified (fromReader_ok hread) hready.verified)
      | revived hexists hinstall _ _ hback =>
        refine .inr ⟨?_, hinstall, hexists, hback.symm.trans hafter⟩
        cases result with
        | error e => exact ⟨e, rfl⟩
        | ok o => cases hresult.mp ⟨o, rfl⟩
      | stuck _ _ hsame | restored _ _ _ _ hsame | untouched _ _ _ hsame =>
        exact absurd (hsame.symm.trans hafter) hbefore
      | lost _ _ _ _ hnone => cases hnone.symm.trans hafter

end Verify

/-! ## An undo where there was no binary -/

def hexDigit (n : ℕ) : Char := "0123456789abcdef".toList.getD n default

/-- Two digits for each byte. -/
def hexText (b : Bytes) : String :=
  String.ofList (b.flatMap fun x => [hexDigit (x.toNat / 16), hexDigit (x.toNat % 16)])

/-- A stand-in for the crates: one key, every signature is good, and a hash that is the bytes. -/
def openExtern (entries : List EntryRead) (m : Manifest) : Extern Unit where
  entries := fun _ => .ok entries
  utf8Lossy := fun _ => "sig"
  toLowercase := id
  manifestFromBytes := fun _ => .ok m
  hexEncode := hexText
  hexDecode := fun s => .ok (List.replicate (if s = "sig" then 64 else 32) 0)
  keyFromBytes := fun _ => .ok ()
  verifyStrict := fun _ _ _ => true
  sha256 := id

def newerManifest : Manifest := ⟨"scribe", "9.9.9", "any", "01", "", ""⟩

def newerExtern : Extern Unit :=
  openExtern [.entry "./manifest.json" [0], .entry "manifest.sig" [0], .entry "pkg/scribe" [1]]
    newerManifest

def thisHost : Host := ⟨"x86_64", "linux", "0.1.0"⟩

def installCfg : UpdateConfig := { publicKey := some "key", binaryPath := some ["bin", "scribe"] }

/-- All goes well, but for the calls that are given. -/
def osFailing (sites : List Site) : Os where
  currentExe := .error "unknown"
  fails := fun site => if site ∈ sites then some "failed" else none
  torn := none
  notFound := "not found"
  run := fun _ _ => .ok ⟨true, "exit status: 0", some "", ""⟩

def diskWith (binary backup : Option Bytes) : Disk :=
  Function.update (Function.update (fun _ => none) ["bin", "scribe"] binary) ["bin", "scribe.old"] backup

/-- The backup comes to the path of a binary that was missing, and no manifest names it. -/
theorem not_authentic_revived :
    (update newerExtern thisHost (osFailing [.install]) installCfg [] {}
      (diskWith none (some [9]))).2 ["bin", "scribe"] = some [9] ∧
    diskWith none (some [9]) ["bin", "scribe"] = none ∧
    ¬ Authentic newerExtern thisHost installCfg [] [9] := by
  refine ⟨by decide +kernel, by decide +kernel, ?_⟩
  rintro ⟨entries, manifestBytes, sig, publicKey, key, signature, m, -, -, hm, hsum, -⟩
  cases hm
  exact absurd hsum (by decide +kernel)

theorem authentic_of_changed_installed : Authentic newerExtern thisHost installCfg [] [1] := by
  have hbinary : resolveBinaryPath (osFailing []) installCfg = .ok ["bin", "scribe"] := rfl
  have hafter : (update newerExtern thisHost (osFailing []) installCfg [] {}
    (diskWith (some [7]) none)).2 ["bin", "scribe"] = some [1] := by decide +kernel
  have hbefore : diskWith (some [7]) none ["bin", "scribe"] ≠ some [1] := by decide +kernel
  exact (authentic_of_changed hbinary hafter hbefore).resolve_right fun h => h.2.1 rfl

end ScribeLocal.Update
