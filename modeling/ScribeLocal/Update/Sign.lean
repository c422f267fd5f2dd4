import ScribeLocal.Update.Signed

/-!
# Signing packages

The operator signs the bytes of a manifest that gives the hash of the binary. What has been
signed is read back as it was, and whoever has the public key accepts it with that binary only.
-/
namespace ScribeLocal.Update
open Pipeline (Path)

/-- What the crates compute for whoever signs. -/
structure Signer (Key SigningKey : Type) where
  fromBytes : Bytes → SigningKey
  toBytes : SigningKey → Bytes
  verifyingKey : SigningKey → Key
  verifyingKeyToBytes : Key → Bytes
  sign : SigningKey → Bytes → Bytes
  toVecPretty : Manifest → Bytes
  /-- A gzip-compressed tar archive of entries, or the error and what has been written. -/
  archive : List (String × Bytes) → Except (UpdateError × Bytes) Bytes

/-- `str::as_bytes` -/
def asBytes (s : String) : Bytes := s.toUTF8.data.toList

/-! ## Keys -/

section Sign
variable {Key SigningKey : Type} (x : Extern Key) (g : Signer Key SigningKey)

def fromPrivateHex (hexStr : String) : Except UpdateError SigningKey := do
  let bytes ← (x.hexDecode (trim hexStr)).mapError fun e => .other ("private key not hex: " ++ e)
  if bytes.length = 32 then .ok (g.fromBytes bytes)
  else .error (.other "private key must be 32 bytes")

def publicHex (key : SigningKey) : String :=
  x.hexEncode (g.verifyingKeyToBytes (g.verifyingKey key))

def privateHex (key : SigningKey) : String := x.hexEncode (g.toBytes key)

/-! ## `sign_package` -/

/-- Which of the calls to the file system fail, with their message. -/
structure SignFails where
  read : Option String
  create : Option String

def toSignedBytes (m : Manifest) : Bytes := g.toVecPretty m ++ [10]

/-- `Package::write` -/
def write (fails : SignFails) (path : Path) (manifestBytes : Bytes) (signatureHex : String)
    (binary : Bytes) (d : Disk) : Except UpdateError Unit × Disk :=
  match fails.create with
  | some e => (.error (.io e), d)
  | none =>
    match g.archive [(manifestEntry, manifestBytes), (sigEntry, asBytes signatureHex),
      (binaryEntry, binary)] with
    | .error (e, torn) => (.error e, Function.update d path (some torn))
    | .ok bytes => (.ok (), Function.update d path (some bytes))

def readFile (fails : SignFails) (notFound : String) (d : Disk) (p : Path) : Except UpdateError Bytes :=
  match fails.read, d p with
  | some e, _ => .error (.io e)
  | none, none => .error (.io notFound)
  | none, some bytes => .ok bytes

/-- The manifest of a binary. -/
def manifestOf (host : Host) (binary : Bytes) (version : String) (target : Option String)
    (notes createdAt : String) : Manifest where
  name := "scribe"
  version := version
  target := target.getD host.currentTarget
  sha256 := x.hexEncode (x.sha256 binary)
  createdAt := createdAt
  notes := notes

def signPackage (host : Host) (fails : SignFails) (notFound : String) (key : SigningKey)
    (binaryPath : Path) (version : String) (target : Option String) (notes createdAt : String)
    (out : Path) (d : Disk) : Except UpdateError Manifest × Disk :=
  match readFile fails notFound d binaryPath with
  | .error e => (.error e, d)
  | .ok binary =>
    let manifest := manifestOf x host binary version target notes createdAt
    let manifestBytes := toSignedBytes g manifest
    let signatureHex := x.hexEncode (g.sign key manifestBytes)
    match write g fails out manifestBytes signatureHex binary d with
    | (.error e, d) => (.error e, d)
    | (.ok (), d) => (.ok manifest, d)

end Sign

/-! ## Text that is trimmed -/

theorem trimStart_of_head {c : Char} {cs : List Char} (h : Asr.isWhitespace c = false) :
    Asr.trimStart (c :: cs) = c :: cs := by
  simp [Asr.trimStart, h]

/-- Text without whitespace is not trimmed. -/
theorem trim_of_dense {cs : List Char} (h : ∀ c ∈ cs, Asr.isWhitespace c = false) :
    Asr.trim cs = cs := by
  have hstart : ∀ l : List Char, (∀ c ∈ l, Asr.isWhitespace c = false) → Asr.trimStart l = l := by
    intro l hl
    cases l with
    | nil => rfl
    | cons c l => exact trimStart_of_head (hl c List.mem_cons_self)
  rw [Asr.trim, hstart cs h, hstart cs.reverse fun c hc => h c (List.mem_reverse.mp hc),
    List.reverse_reverse]

/-- A newline at the end is trimmed. -/
theorem trim_newline {cs : List Char} (h : ∀ c ∈ cs, Asr.isWhitespace c = false) :
    Asr.trim (cs ++ ['\n']) = cs := by
  cases cs with
  | nil => rfl
  | cons c cs =>
    have hlast : (c :: cs ++ ['\n']).reverse = '\n' :: (c :: cs).reverse := by simp
    have hnewline : Asr.trimStart ('\n' :: (c :: cs).reverse) = Asr.trimStart (c :: cs).reverse := rfl
    have hdense := trim_of_dense h
    rw [Asr.trim, trimStart_of_head (h c List.mem_cons_self)] at hdense
    rw [Asr.trim, List.cons_append, trimStart_of_head (h c List.mem_cons_self), ← List.cons_append,
      hlast, hnewline]
    exact hdense

/-! ## What the crates document -/

/-- What is written is read back, and a key accepts its own signatures. -/
structure Signer.Lawful {Key SigningKey : Type} (g : Signer Key SigningKey) (x : Extern Key) :
    Prop where
  entries_archive : ∀ m s b bytes,
    g.archive [(manifestEntry, m), (sigEntry, s), (binaryEntry, b)] = .ok bytes →
      x.entries bytes = .ok [.entry manifestEntry m, .entry sigEntry s, .entry binaryEntry b]
  utf8Lossy_asBytes : ∀ s, x.utf8Lossy (asBytes s) = s
  toLowercase_ascii : ∀ s : String, (∀ c ∈ s.toList, c.val < 128 ∧ c.isUpper = false) →
    x.toLowercase s = s
  manifestFromBytes_toVecPretty : ∀ m, x.manifestFromBytes (g.toVecPretty m ++ [10]) = .ok m
  hexEncode_digits : ∀ b, ∀ c ∈ (x.hexEncode b).toList, c ∈ "0123456789abcdef".toList
  hexDecode_hexEncode : ∀ b, x.hexDecode (x.hexEncode b) = .ok b
  toBytes_length : ∀ key, (g.toBytes key).length = 32
  fromBytes_toBytes : ∀ key, g.fromBytes (g.toBytes key) = key
  verifyingKey_length : ∀ key, (g.verifyingKeyToBytes (g.verifyingKey key)).length = 32
  keyFromBytes_verifyingKey : ∀ key,
    x.keyFromBytes (g.verifyingKeyToBytes (g.verifyingKey key)) = .ok (g.verifyingKey key)
  sign_length : ∀ key bytes, (g.sign key bytes).length = 64
  verifyStrict_sign : ∀ key bytes, x.verifyStrict (g.verifyingKey key) bytes (g.sign key bytes) = true

section Signed
variable {Key SigningKey : Type} {x : Extern Key} {g : Signer Key SigningKey}
  {key loaded : SigningKey} {host host' : Host} {cfg : UpdateConfig} {fails : SignFails}
  {notFound version notes createdAt : String} {target : Option String} {binaryPath out : Path}
  {d d' : Disk} {m : Manifest} {b b' bytes : Bytes}

/-! ## Keys that are read back -/

theorem hexEncode_dense (h : g.Lawful x) :
    ∀ c ∈ (x.hexEncode b).toList, Asr.isWhitespace c = false := by
  have hdigit : ∀ c ∈ "0123456789abcdef".toList, Asr.isWhitespace c = false := by
    simp [Asr.isWhitespace]
  exact fun c hc => hdigit c (h.hexEncode_digits b c hc)

theorem trim_hexEncode (h : g.Lawful x) : trim (x.hexEncode b) = x.hexEncode b := by
  rw [trim, trim_of_dense (hexEncode_dense h), String.ofList_toList]

theorem trim_hexEncode_newline (h : g.Lawful x) :
    trim (x.hexEncode b ++ "\n") = x.hexEncode b := by
  rw [trim, String.toList_append]
  exact (congrArg String.ofList (trim_newline (hexEncode_dense h))).trans String.ofList_toList

theorem hexEncode_injective (h : g.Lawful x) (heq : x.hexEncode b = x.hexEncode b') : b = b' := by
  have hdecoded := h.hexDecode_hexEncode b
  rw [heq, h.hexDecode_hexEncode b'] at hdecoded
  exact (Except.ok.inj hdecoded).symm

theorem toLowercase_hexEncode (h : g.Lawful x) : x.toLowercase (x.hexEncode b) = x.hexEncode b := by
  have hdigit : ∀ c ∈ "0123456789abcdef".toList, c.val < 128 ∧ c.isUpper = false := by
    simp
  exact h.toLowercase_ascii _ fun c hc => hdigit c (h.hexEncode_digits b c hc)

/-- The file of a private key gives the key. -/
theorem fromPrivateHex_file (h : g.Lawful x) :
    fromPrivateHex x g (trim (privateHex x g key ++ "\n")) = .ok key := by
  rw [fromPrivateHex, privateHex, trim_hexEncode_newline h, trim_hexEncode h, h.hexDecode_hexEncode]
  show (if (g.toBytes key).length = 32 then Except.ok (g.fromBytes (g.toBytes key)) else _) = _
  rw [if_pos (h.toBytes_length key), h.fromBytes_toBytes]

theorem parsePublicKey_publicHex (h : g.Lawful x) :
    parsePublicKey x (publicHex x g key) = .ok (g.verifyingKey key) := by
  rw [parsePublicKey, publicHex, trim_hexEncode h, h.hexDecode_hexEncode]
  show (if (g.verifyingKeyToBytes (g.verifyingKey key)).length = 32 then _ else _) = _
  rw [if_pos (h.verifyingKey_length key), h.keyFromBytes_verifyingKey]
  rfl

theorem parseSignature_sign (h : g.Lawful x) :
    parseSignature x (x.hexEncode (g.sign key bytes)) = .ok (g.sign key bytes) := by
  rw [parseSignature, trim_hexEncode h, h.hexDecode_hexEncode]
  show (if (g.sign key bytes).length = 64 then _ else _) = _
  rw [if_pos (h.sign_length key bytes)]

/-! ## Packages that are read back -/

/-- The package of a manifest and a binary. -/
def signedPackage (x : Extern Key) (g : Signer Key SigningKey) (key : SigningKey) (m : Manifest)
    (binary : Bytes) : Package where
  manifestBytes := toSignedBytes g m
  manifest := m
  signatureHex := x.hexEncode (g.sign key (toSignedBytes g m))
  binary := binary

theorem basename_manifestEntry : basename manifestEntry = manifestEntry := by decide +kernel

theorem basename_sigEntry : basename sigEntry = sigEntry := by decide +kernel

theorem basename_binaryEntry : basename binaryEntry = binaryEntry := by decide +kernel

theorem ok_bind {α β γ : Type} {y : α} {f : α → Except γ β} : (Except.ok y >>= f) = f y := rfl

theorem readEntries_signed {sig : Bytes} :
    [EntryRead.entry manifestEntry bytes, .entry sigEntry sig, .entry binaryEntry b].foldlM
      (readEntry x) {} = .ok ⟨some bytes, some (trim (x.utf8Lossy sig)), some b⟩ := by
  have hsig : sigEntry ≠ manifestEntry := by decide
  have hbinary : binaryEntry ≠ manifestEntry ∧ binaryEntry ≠ sigEntry := by decide
  simp only [List.foldlM_cons, List.foldlM_nil, readEntry, basename_manifestEntry,
    basename_sigEntry, basename_binaryEntry, if_neg hsig, if_neg hbinary.1, if_neg hbinary.2, if_true]
  rfl

theorem fromReader_signed (h : g.Lawful x) {archive : Bytes}
    (harchive : g.archive [(manifestEntry, toSignedBytes g m),
      (sigEntry, asBytes (x.hexEncode (g.sign key (toSignedBytes g m)))), (binaryEntry, b)] = .ok archive) :
    fromReader x archive = .ok (signedPackage x g key m b) := by
  have hmanifest : x.manifestFromBytes (toSignedBytes g m) = .ok m := h.manifestFromBytes_toVecPretty m
  unfold fromReader
  rw [h.entries_archive _ _ _ _ harchive]
  simp only [Except.mapError, ok_bind, readEntries_signed, required, hmanifest, h.utf8Lossy_asBytes,
    trim_hexEncode h]
  rfl

/-- The signature is good, so the hash and the policy decide. -/
theorem verifyPackage_signed (h : g.Lawful x) (hkey : cfg.publicKey = some (publicHex x g key))
    (hsha : m.sha256 = x.hexEncode (x.sha256 b)) :
    verifyPackage x host cfg (signedPackage x g key m b') =
      if x.sha256 b' = x.sha256 b then checkPolicy host cfg m
      else .error (.checksumMismatch m.sha256 (x.hexEncode (x.sha256 b'))) := by
  have hsignature : checkSignature x cfg (signedPackage x g key m b') = .ok () := by
    unfold checkSignature configuredKey
    rw [hkey]
    simp only [ok_bind, signedPackage, parsePublicKey_publicHex h, parseSignature_sign h,
      h.verifyStrict_sign, if_true]
  have hsum : checkSum x (signedPackage x g key m b') =
      if x.sha256 b' = x.sha256 b then .ok ()
      else .error (.checksumMismatch m.sha256 (x.hexEncode (x.sha256 b'))) := by
    unfold checkSum
    simp only [signedPackage, hsha, trim_hexEncode h, toLowercase_hexEncode h]
    congr 1
    exact propext ⟨fun heq => hexEncode_injective h heq, fun heq => congrArg x.hexEncode heq⟩
  rw [verifyPackage, hsignature, ok_bind, hsum]
  split <;> rfl

theorem checkPolicy_iff (hname : m.name = "scribe") :
    checkPolicy host cfg m = .ok () ↔
      (m.target = host.currentTarget ∨ m.target = "any" ∨ cfg.allowTargetMismatch = true) ∧
        (cfg.allowDowngrade = true ∨ versionLe m.version host.running = false) := by
  refine ⟨fun h => (checkPolicy_ok h).2, ?_⟩
  rintro ⟨htarget, hversion⟩
  unfold checkPolicy
  rw [if_neg (not_not.mpr hname), if_neg, if_neg]
  · rintro ⟨hdown, hle⟩
    rcases hversion with hallow | hnewer
    · exact hdown hallow
    · rw [hle] at hnewer
      cases hnewer
  · rintro ⟨hhost, hmismatch, hany⟩
    rcases htarget with heq | heq | hallow
    · exact hhost heq
    · exact hany heq
    · exact hmismatch hallow

/-- What a signing that succeeds leaves on the disk. -/
theorem signPackage_ok
    (hsign : signPackage x g host fails notFound key binaryPath version target notes createdAt out d =
      (.ok m, d')) :
    ∃ binary archive, d binaryPath = some binary ∧
      m = manifestOf x host binary version target notes createdAt ∧
      g.archive [(manifestEntry, toSignedBytes g m),
        (sigEntry, asBytes (x.hexEncode (g.sign key (toSignedBytes g m)))), (binaryEntry, binary)] =
          .ok archive ∧ d' = Function.update d out (some archive) := by
  unfold signPackage at hsign
  cases hread : readFile fails notFound d binaryPath with
  | error e =>
    rw [hread] at hsign
    cases hsign
  | ok binary =>
    have hbinary : d binaryPath = some binary := by
      unfold readFile at hread
      split at hread <;> cases hread
      assumption
    rw [hread] at hsign
    dsimp only at hsign
    refine ⟨binary, ?_⟩
    unfold write at hsign
    cases hcreate : fails.create with
    | some e =>
      rw [hcreate] at hsign
      cases hsign
    | none =>
      rw [hcreate] at hsign
      dsimp only at hsign
      split at hsign
      · next hwrite =>
        split at hwrite <;> cases hwrite
        cases hsign
      · next hwrite =>
        split at hwrite
        · cases hwrite
        · next archive harchive =>
          cases hwrite
          cases hsign
          exact ⟨archive, hbinary, rfl, harchive, rfl⟩

/-- What is signed with the key of a file is read back with its binary. Whoever has the public
key accepts it with a binary of that hash, on a machine it is for and above the version that
runs, and with no other. -/
theorem verified_of_signed (h : g.Lawful x)
    (hkey : fromPrivateHex x g (trim (privateHex x g key ++ "\n")) = .ok loaded)
    (hsign : signPackage x g host fails notFound loaded binaryPath version target notes createdAt out
      d = (.ok m, d')) :
    ∃ archive pkg, d' out = some archive ∧ (∀ q, q ≠ out → d' q = d q) ∧
      d binaryPath = some pkg.binary ∧ fromReader x archive = .ok pkg ∧ pkg.manifest = m ∧
      ∀ host' cfg, cfg.publicKey = some (publicHex x g key) → ∀ b,
        (verifyPackage x host' cfg { pkg with binary := b } = .ok () ↔
          x.sha256 b = x.sha256 pkg.binary ∧
          (target.getD host.currentTarget = host'.currentTarget ∨
            target.getD host.currentTarget = "any" ∨ cfg.allowTargetMismatch = true) ∧
          (cfg.allowDowngrade = true ∨ versionLe version host'.running = false)) ∧
        (x.sha256 b ≠ x.sha256 pkg.binary → verifyPackage x host' cfg { pkg with binary := b } =
          .error (.checksumMismatch m.sha256 (x.hexEncode (x.sha256 b)))) := by
  cases (fromPrivateHex_file h).symm.trans hkey
  rcases signPackage_ok hsign with ⟨binary, archive, hbinary, rfl, harchive, rfl⟩
  refine ⟨archive, signedPackage x g key _ binary, Function.update_self _ _ _,
    fun q hq => Function.update_of_ne hq _ _, hbinary, fromReader_signed h harchive, rfl, ?_⟩
  intro host' cfg hpublic b
  have hverify : verifyPackage x host' cfg
      (signedPackage x g key (manifestOf x host binary version target notes createdAt) b) = _ :=
    verifyPackage_signed h hpublic rfl
  show (verifyPackage x host' cfg (signedPackage x g key _ b) = .ok () ↔ _) ∧ _
  constructor
  · rw [hverify]
    split
    · next heq => exact (checkPolicy_iff rfl).trans (and_iff_right heq).symm
    · next hne => exact iff_of_false (by simp) fun hall => hne hall.1
  · intro hne
    exact hverify.trans (if_neg hne)

end Signed

/-! ## A stand-in for the crates -/

/-- One after a mark for each byte, and a mark that ends the entry. -/
def frames (entries : List Bytes) : Bytes := entries.flatMap fun b => b.flatMap (fun c => [1, c]) ++ [0]

def unframe : Bytes → List Bytes
  | [] => []
  | 0 :: rest => [] :: unframe rest
  | [_] => []
  | _ :: c :: rest => match unframe rest with
    | [] => [[c]]
    | b :: entries => (c :: b) :: entries

theorem unframe_entry (b rest : Bytes) :
    unframe (b.flatMap (fun c => [1, c]) ++ 0 :: rest) = b :: unframe rest := by
  induction b with
  | nil => rfl
  | cons c b ih =>
    rw [List.flatMap_cons, List.append_assoc]
    show (match unframe (b.flatMap (fun c => [1, c]) ++ 0 :: rest) with
      | [] => [[c]]
      | b :: entries => (c :: b) :: entries) = _
    rw [ih]

theorem unframe_frames (entries : List Bytes) (rest : Bytes) :
    unframe (frames entries ++ rest) = entries ++ unframe rest := by
  induction entries with
  | nil => rfl
  | cons b entries ih =>
    have hframe : frames (b :: entries) ++ rest =
        b.flatMap (fun c => [1, c]) ++ 0 :: (frames entries ++ rest) := by simp [frames]
    rw [hframe, unframe_entry, ih, List.cons_append]

def fromUtf8 (bytes : Bytes) : String := (String.fromUTF8? ⟨bytes.toArray⟩).getD ""

theorem fromUtf8_asBytes (s : String) : fromUtf8 (asBytes s) = s := by
  simp [fromUtf8, asBytes, String.fromUTF8?, String.fromUTF8, s.isValidUTF8]

def hexValue (c : Char) : ℕ := "0123456789abcdef".toList.idxOf c

def hexBytes : List Char → Bytes
  | a :: b :: cs => UInt8.ofNat (16 * hexValue a + hexValue b) :: hexBytes cs
  | _ => []

theorem hexValue_hexDigit (n : ℕ) (h : n < 16) : hexValue (hexDigit n) = n := by
  decide +revert

theorem mem_hexText {c : Char} {b : Bytes} (h : c ∈ (hexText b).toList) :
    c ∈ "0123456789abcdef".toList := by
  have hdigit : ∀ n < 16, hexDigit n ∈ "0123456789abcdef".toList := by decide +kernel
  rw [hexText, String.toList_ofList] at h
  rcases List.mem_flatMap.mp h with ⟨byte, -, hc⟩
  have hbyte : byte.toNat < 256 := byte.toNat_lt
  rcases List.mem_pair.mp hc with rfl | rfl
  · exact hdigit _ (by omega)
  · exact hdigit _ (Nat.mod_lt _ (by norm_num))

theorem hexBytes_hexText (b : Bytes) : hexBytes (hexText b).toList = b := by
  rw [hexText, String.toList_ofList]
  induction b with
  | nil => rfl
  | cons byte b ih =>
    have hbyte : byte.toNat < 256 := byte.toNat_lt
    have hvalue : 16 * hexValue (hexDigit (byte.toNat / 16)) + hexValue (hexDigit (byte.toNat % 16)) =
        byte.toNat := by
      rw [hexValue_hexDigit _ (by omega), hexValue_hexDigit _ (Nat.mod_lt _ (by norm_num))]
      exact Nat.div_add_mod byte.toNat 16
    rw [List.flatMap_cons, List.cons_append, List.cons_append, List.nil_append, hexBytes, ih, hvalue,
      UInt8.ofNat_toNat]

abbrev Seed := { b : Bytes // b.length = 32 }

def Seed.ofBytes (b : Bytes) : Seed := ⟨b.takeD 32 0, List.takeD_length _ _ _⟩

def Seed.sign (key : Seed) (bytes : Bytes) : Bytes := key.val ++ bytes.takeD 32 0

def standInExtern : Extern Seed where
  entries := fun archive => match unframe archive with
    | [m, s, b] => .ok [.entry manifestEntry m, .entry sigEntry s, .entry binaryEntry b]
    | _ => .error "unexpected end"
  utf8Lossy := fromUtf8
  toLowercase := String.toLower
  manifestFromBytes := fun bytes => match (unframe bytes).map fromUtf8 with
    | [name, version, target, sha256, createdAt, notes] =>
      .ok ⟨name, version, target, sha256, createdAt, notes⟩
    | _ => .error "missing field"
  hexEncode := hexText
  hexDecode := fun s => .ok (hexBytes s.toList)
  keyFromBytes := fun b => .ok (Seed.ofBytes b)
  verifyStrict := fun key bytes signature => signature == key.sign bytes
  sha256 := id

def standInSigner : Signer Seed Seed where
  fromBytes := Seed.ofBytes
  toBytes := Subtype.val
  verifyingKey := id
  verifyingKeyToBytes := Subtype.val
  sign := Seed.sign
  toVecPretty := fun m =>
    frames ([m.name, m.version, m.target, m.sha256, m.createdAt, m.notes].map asBytes)
  archive := fun entries => .ok (frames (entries.map Prod.snd))

theorem Seed.ofBytes_val (key : Seed) : Seed.ofBytes key.val = key := by
  apply Subtype.ext
  show key.val.takeD 32 0 = key.val
  rw [List.takeD_eq_take 0 key.property.ge, List.take_of_length_le key.property.le]

theorem standIn_lawful : standInSigner.Lawful standInExtern where
  entries_archive := by
    intro m s b bytes h
    cases h
    show (match unframe (frames [m, s, b]) with
      | [m, s, b] => _
      | _ => _) = _
    rw [← List.append_nil (frames [m, s, b]), unframe_frames]
    rfl
  utf8Lossy_asBytes := fromUtf8_asBytes
  toLowercase_ascii := by
    intro s h
    apply String.toList_injective
    show (s.map Char.toLower).toList = s.toList
    rw [String.toList_map]
    refine (List.map_congr_left fun c hc => ?_).trans (List.map_id _)
    exact dif_neg (of_decide_eq_false (h c hc).2)
  manifestFromBytes_toVecPretty := by
    intro m
    show (match (unframe (frames _ ++ [10])).map fromUtf8 with
      | [name, version, target, sha256, createdAt, notes] => _
      | _ => _) = _
    rw [unframe_frames]
    simp [unframe, fromUtf8_asBytes]
  hexEncode_digits := fun _ _ => mem_hexText
  hexDecode_hexEncode := fun b => congrArg Except.ok (hexBytes_hexText b)
  toBytes_length := Subtype.property
  fromBytes_toBytes := Seed.ofBytes_val
  verifyingKey_length := Subtype.property
  keyFromBytes_verifyingKey := fun key => congrArg Except.ok key.ofBytes_val
  sign_length := by
    intro key bytes
    show (key.val ++ bytes.takeD 32 0).length = 64
    rw [List.length_append, key.property, List.takeD_length]
  verifyStrict_sign := fun key bytes => beq_self_eq_true (key.sign bytes)

def releaseKey : Seed := ⟨List.replicate 32 7, List.length_replicate⟩

def releaseCfg : UpdateConfig where
  publicKey := some (publicHex standInExtern standInSigner releaseKey)
  binaryPath := some ["bin", "scribe"]

def buildDisk : Disk := Function.update (fun _ => none) ["build", "scribe"] (some [1, 2])

def released : Except UpdateError Manifest × Disk :=
  signPackage standInExtern standInSigner thisHost ⟨none, none⟩ "not found" releaseKey
    ["build", "scribe"] "0.2.0" none "" "2026-06-14T00:00:00Z" ["pkg"] buildDisk

theorem verified_of_signed_released : ∃ archive pkg, released.2 ["pkg"] = some archive ∧
    fromReader standInExtern archive = .ok pkg ∧ pkg.binary = [1, 2] ∧
    verifyPackage standInExtern thisHost releaseCfg pkg = .ok () ∧
    verifyPackage standInExtern thisHost releaseCfg { pkg with binary := [1, 3] } ≠ .ok () := by
  have hsign : signPackage standInExtern standInSigner thisHost ⟨none, none⟩ "not found" releaseKey
      ["build", "scribe"] "0.2.0" none "" "2026-06-14T00:00:00Z" ["pkg"] buildDisk =
      (.ok (manifestOf standInExtern thisHost [1, 2] "0.2.0" none "" "2026-06-14T00:00:00Z"),
        released.2) := rfl
  rcases verified_of_signed standIn_lawful (fromPrivateHex_file standIn_lawful) hsign with
    ⟨archive, pkg, hout, -, hbinary, hread, -, hverify⟩
  have hbytes : pkg.binary = [1, 2] := (Option.some.inj hbinary).symm
  have hnewer : versionLe "0.2.0" thisHost.running = false := by decide +kernel
  refine ⟨archive, pkg, hout, hread, hbytes, ?_, ?_⟩
  · exact (hverify thisHost releaseCfg rfl pkg.binary).1.mpr ⟨rfl, .inl rfl, .inr hnewer⟩
  · intro h
    have hsame : [1, 3] = pkg.binary := ((hverify thisHost releaseCfg rfl [1, 3]).1.mp h).1
    rw [hbytes] at hsame
    cases hsame

end ScribeLocal.Update
