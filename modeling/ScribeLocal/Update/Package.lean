import ScribeLocal.Asr.Words
import ScribeLocal.Pipeline.ConcatList

/-!
# Update packages

A package is read from an archive and then verified: the signature covers the bytes of the
manifest, and the manifest gives the hash of the binary.
-/
namespace ScribeLocal.Update
open Pipeline (Path)

abbrev Bytes := List UInt8

structure Manifest where
  name : String
  version : String
  target : String
  sha256 : String
  createdAt : String
  notes : String
  deriving DecidableEq

inductive UpdateError where
  | misconfigured (m : String)
  | invalidPackage (m : String)
  | badSignature
  | checksumMismatch (expected actual : String)
  | downgrade (package running : String)
  | targetMismatch (package host : String)
  | sanityCheck (m : String)
  | migration (m : String)
  | noBackup
  | io (m : String)
  | other (m : String)
  deriving DecidableEq

/-- What the archive reader yields next. -/
inductive EntryRead where
  | badEntry (e : String)
  | badPath (e : String)
  | unread (e : String)
  | entry (path : String) (bytes : Bytes)
  deriving DecidableEq

/-- What other crates and the Unicode tables compute. -/
structure Extern (Key : Type) where
  /-- The entries of a gzip-compressed tar archive. -/
  entries : Bytes → Except String (List EntryRead)
  utf8Lossy : Bytes → String
  toLowercase : String → String
  manifestFromBytes : Bytes → Except String Manifest
  hexEncode : Bytes → String
  hexDecode : String → Except String Bytes
  keyFromBytes : Bytes → Except String Key
  verifyStrict : Key → Bytes → Bytes → Bool
  sha256 : Bytes → Bytes

/-- `str::trim`. -/
def trim (s : String) : String := String.ofList (Asr.trim s.toList)

/-! ## Reading -/

structure Package where
  manifestBytes : Bytes
  manifest : Manifest
  signatureHex : String
  binary : Bytes
  deriving DecidableEq

/-- What has been read of a package so far. -/
structure Parts where
  manifestBytes : Option Bytes := none
  signatureHex : Option String := none
  binary : Option Bytes := none

def manifestEntry : String := "manifest.json"
def sigEntry : String := "manifest.sig"
def binaryEntry : String := "scribe"

/-- What follows the last slash or backslash. -/
def basename (path : String) : String :=
  String.ofList (path.toList.reverse.takeWhile fun c => c.toNat ≠ 47 ∧ c.toNat ≠ 92).reverse

section Read
variable {Key : Type} (x : Extern Key)

def readEntry (parts : Parts) : EntryRead → Except UpdateError Parts
  | .badEntry e => .error (.invalidPackage ("bad tar entry: " ++ e))
  | .badPath e => .error (.invalidPackage ("bad entry path: " ++ e))
  | .unread e => .error (.io e)
  | .entry path buf =>
    let name := basename path
    if name = manifestEntry then .ok { parts with manifestBytes := some buf }
    else if name = sigEntry then .ok { parts with signatureHex := some (trim (x.utf8Lossy buf)) }
    else if name = binaryEntry then .ok { parts with binary := some buf }
    else if name = "scribe.exe" then .ok { parts with binary := some buf }
    else .ok parts

/-- The part is there, or the error names it. -/
def required {α : Type} (name : String) : Option α → Except UpdateError α
  | some y => .ok y
  | none => .error (.invalidPackage ("missing " ++ name))

def fromReader (archive : Bytes) : Except UpdateError Package := do
  let entries ← (x.entries archive).mapError fun e => .invalidPackage ("not a tar archive: " ++ e)
  let parts ← entries.foldlM (readEntry x) {}
  let manifestBytes ← required manifestEntry parts.manifestBytes
  let signatureHex ← required sigEntry parts.signatureHex
  let binary ← required binaryEntry parts.binary
  let manifest ← (x.manifestFromBytes manifestBytes).mapError fun e =>
    .invalidPackage ("bad manifest.json: " ++ e)
  .ok { manifestBytes, manifest, signatureHex, binary }

end Read

/-! ## Versions -/

/-- Compared from the left. -/
abbrev Version := ℕ ×ₗ ℕ ×ₗ ℕ

/-- `parse::<u64>().unwrap_or(0)` -/
def parseU64 (cs : List Char) : ℕ :=
  if cs ≠ [] ∧ cs.all Char.isDigit ∧ Nat.ofDigitChars 10 cs 0 < 2 ^ 64 then
    Nat.ofDigitChars 10 cs 0
  else 0

def parseVersion (v : String) : Version :=
  let core := ((Asr.trim v.toList).dropWhile (· == 'v')).takeWhile fun c => c ≠ '-' ∧ c ≠ '+'
  let parts := (core.splitOnP (· == '.')).map parseU64
  toLex (parts.getD 0 0, toLex (parts.getD 1 0, parts.getD 2 0))

def versionLe (a b : String) : Bool := decide (parseVersion a ≤ parseVersion b)

/-! ## Verifying -/

structure UpdateConfig where
  publicKey : Option String
  binaryPath : Option Path
  allowDowngrade : Bool := false
  allowTargetMismatch : Bool := false

/-- The machine, and the version of the process that runs on it. -/
structure Host where
  arch : String
  os : String
  running : String

def Host.currentTarget (host : Host) : String :=
  if host.os = "macos" then host.arch ++ "-apple-darwin"
  else if host.os = "linux" then host.arch ++ "-unknown-linux-gnu"
  else if host.os = "windows" then host.arch ++ "-pc-windows-msvc"
  else host.arch ++ "-" ++ host.os

section Verify
variable {Key : Type} (x : Extern Key)

def parsePublicKey (hexStr : String) : Except UpdateError Key := do
  let bytes ← (x.hexDecode (trim hexStr)).mapError fun e =>
    .misconfigured ("public_key is not hex: " ++ e)
  if bytes.length = 32 then
    (x.keyFromBytes bytes).mapError fun e => .misconfigured ("invalid ed25519 public key: " ++ e)
  else .error (.misconfigured "public_key must be 32 bytes")

def parseSignature (hexStr : String) : Except UpdateError Bytes := do
  let bytes ← (x.hexDecode (trim hexStr)).mapError fun e =>
    .invalidPackage ("signature is not hex: " ++ e)
  if bytes.length = 64 then .ok bytes else .error (.invalidPackage "signature must be 64 bytes")

def configuredKey (cfg : UpdateConfig) : Except UpdateError String :=
  match cfg.publicKey with
  | some hexStr => .ok hexStr
  | none => .error (.misconfigured "no [update].public_key set")

def checkSignature (cfg : UpdateConfig) (pkg : Package) : Except UpdateError Unit := do
  let publicKey ← configuredKey cfg
  let key ← parsePublicKey x publicKey
  let signature ← parseSignature x pkg.signatureHex
  if x.verifyStrict key pkg.manifestBytes signature then .ok () else .error .badSignature

def checkSum (pkg : Package) : Except UpdateError Unit :=
  let actual := x.hexEncode (x.sha256 pkg.binary)
  let expected := x.toLowercase (trim pkg.manifest.sha256)
  if actual = expected then .ok () else .error (.checksumMismatch expected actual)

def checkPolicy (host : Host) (cfg : UpdateConfig) (m : Manifest) : Except UpdateError Unit :=
  if m.name ≠ "scribe" then
    .error (.invalidPackage ("manifest name is \x60" ++ m.name ++ "\x60, expected \x60scribe\x60"))
  else if m.target ≠ host.currentTarget ∧ ¬ cfg.allowTargetMismatch ∧ m.target ≠ "any" then
    .error (.targetMismatch m.target host.currentTarget)
  else if ¬ cfg.allowDowngrade ∧ versionLe m.version host.running then
    .error (.downgrade m.version host.running)
  else .ok ()

def verifyPackage (host : Host) (cfg : UpdateConfig) (pkg : Package) : Except UpdateError Unit := do
  checkSignature x cfg pkg
  checkSum x pkg
  checkPolicy host cfg pkg.manifest

end Verify

end ScribeLocal.Update
