import Mathlib
import ScribeLocal.Asr.Trim
import ScribeLocal.LexicalPath
import ScribeLocal.Pipeline.ConcatList

/-!
# The names under which an upload stores a segment

`put_segment` takes the file extension from the query or from the content type and joins it,
as text, into the paths of the temporary file and of the segment.
-/
namespace ScribeLocal.PutSegment
open Asr (trim isWhitespace mem_of_mem_trim exists_trim)
open LexicalPath
open Pipeline (zeroPadded zeroPadded_injective mem_zeroPadded toList_zeroPadded)

/-! ## The id of a recording -/

abbrev Id := BitVec 128

def nibble (id : Id) (i : ℕ) : ℕ := id.toNat / 16 ^ i % 16

/-- Lower-case, in groups of eight, four, four, four and twelve. -/
def hyphenated (id : Id) : List Char :=
  (List.range 32).flatMap fun i =>
    (if i = 8 ∨ i = 12 ∨ i = 16 ∨ i = 20 then ['-'] else []) ++
      [Nat.digitChar (nibble id (31 - i))]

/-! ## Where segments are stored -/

def trimStartMatches (c : Char) (cs : List Char) : List Char := cs.dropWhile (· == c)

def recordingDir (p : Platform) (blobs : List Char) (id : Id) : List Char :=
  join p blobs (hyphenated id)

def segmentsDir (p : Platform) (blobs : List Char) (id : Id) : List Char :=
  join p (recordingDir p blobs id) "segments".toList

/-- `{seq:06}.{ext}` -/
def segmentName (seq : ℤ) (ext : List Char) : List Char := (zeroPadded seq).toList ++ '.' :: ext

def segmentPath (p : Platform) (blobs : List Char) (id : Id) (seq : ℤ) (ext : List Char) :
    List Char :=
  join p (segmentsDir p blobs id) (segmentName seq (trimStartMatches '.' ext))

def segmentKey (id : Id) (seq : ℤ) (ext : List Char) : List Char :=
  hyphenated id ++ '/' :: ("segments".toList ++
    '/' :: segmentName seq (trimStartMatches '.' ext))

def resolveKey (p : Platform) (blobs key : List Char) : List Char := join p blobs key

/-! ## The handler -/

def extFromContentType (ct : String) : Option String :=
  match ct with
  | "audio/mp4" | "audio/m4a" | "audio/x-m4a" | "audio/aac" => some "m4a"
  | "audio/mpeg" | "audio/mp3" => some "mp3"
  | "audio/wav" | "audio/x-wav" | "audio/wave" => some "wav"
  | "audio/ogg" | "audio/opus" => some "ogg"
  | "audio/webm" => some "webm"
  | "audio/flac" | "audio/x-flac" => some "flac"
  | _ => none

def extFromHeaders (contentType : Option (List Char)) : List Char :=
  let ext := contentType.bind fun ct =>
    extFromContentType (String.ofList (trim (ct.takeWhile (· ≠ ';'))))
  (ext.getD "m4a").toList

/-- What is left of the query's `ext`. -/
def cleanExt (text : List Char) : List Char :=
  (trimStartMatches '.' (trim text)).map Char.toLower

def resolveExt (extQ contentType : Option (List Char)) : List Char :=
  match extQ with
  | some text => if cleanExt text ≠ [] then cleanExt text else extFromHeaders contentType
  | none => extFromHeaders contentType

/-- The two paths that an upload writes to. -/
structure UploadPaths where
  tmpPath : List Char
  finalPath : List Char

def putSegmentPaths (p : Platform) (blobs : List Char) (id : Id) (seq : ℤ)
    (extQ contentType : Option (List Char)) : UploadPaths where
  tmpPath := join p (segmentsDir p blobs id)
    ('.' :: segmentName seq (resolveExt extQ contentType) ++ ".partial".toList)
  finalPath := segmentPath p blobs id seq (resolveExt extQ contentType)

/-- Two paths are the same path if their components are. -/
def Same (p : Platform) (path path' : List Char) : Prop := components p path = components p path'

/-- Both paths are names in the segments folder, no other segment has either of them, and the
stored key leads to the segment. -/
structure Stays (p : Platform) (blobs : List Char) (id : Id) (seq : ℤ)
    (extQ contentType : Option (List Char)) : Prop where
  tmp : DirectChild p (segmentsDir p blobs id)
    (putSegmentPaths p blobs id seq extQ contentType).tmpPath
  final : DirectChild p (segmentsDir p blobs id)
    (putSegmentPaths p blobs id seq extQ contentType).finalPath
  apart : ∀ id' seq' extQ' contentType', (id', seq') ≠ (id, seq) →
    let paths := putSegmentPaths p blobs id seq extQ contentType
    let paths' := putSegmentPaths p blobs id' seq' extQ' contentType'
    ¬Same p paths.tmpPath paths'.tmpPath ∧ ¬Same p paths.tmpPath paths'.finalPath ∧
      ¬Same p paths.finalPath paths'.tmpPath ∧ ¬Same p paths.finalPath paths'.finalPath
  resolves : let ext := resolveExt extQ contentType
    Same p (resolveKey p blobs (segmentKey id seq ext)) (segmentPath p blobs id seq ext)

variable {p : Platform} {blobs ext : List Char} {id id' : Id} {seq seq' : ℤ}
  {extQ contentType : Option (List Char)} {c : Char}

/-! ## The id as a name -/

theorem digitChar_plain : ∀ n < 16, ∀ p : Platform,
    p.isSeparator (Nat.digitChar n) = false ∧ Nat.digitChar n ≠ '-' ∧ Nat.digitChar n ≠ '.' ∧
      Nat.digitChar n ≠ ':' := by
  intro n hn p
  cases p <;> interval_cases n <;> decide

theorem digitChar_injective {n m : ℕ} (hn : n < 16) (hm : m < 16)
    (h : Nat.digitChar n = Nat.digitChar m) : n = m := by
  have hall : ∀ n < 16, ∀ m < 16, Nat.digitChar n = Nat.digitChar m → n = m := by decide
  exact hall n hn m hm h

theorem nibble_lt (id : Id) (i : ℕ) : nibble id i < 16 := Nat.mod_lt _ (by decide)

theorem mem_hyphenated (h : c ∈ hyphenated id) : c = '-' ∨ ∃ n < 16, c = Nat.digitChar n := by
  rw [hyphenated, List.mem_flatMap] at h
  obtain ⟨i, -, hc⟩ := h
  rcases List.mem_append.mp hc with hdash | hdigit
  · split at hdash
    · exact .inl (List.mem_singleton.mp hdash)
    · cases hdash
  · exact .inr ⟨_, nibble_lt id _, List.mem_singleton.mp hdigit⟩

theorem hyphenated_plain (hc : c ∈ hyphenated id) (p : Platform) :
    p.isSeparator c = false ∧ c ≠ '.' ∧ c ≠ ':' := by
  rcases mem_hyphenated hc with rfl | ⟨n, hn, rfl⟩
  · cases p <;> decide
  · obtain ⟨hsep, -, hdot, hcolon⟩ := digitChar_plain n hn p
    exact ⟨hsep, hdot, hcolon⟩

/-- A number is its sixteen-valued digits. -/
theorem eq_of_nibbles {n a b : ℕ} (ha : a < 16 ^ n) (hb : b < 16 ^ n)
    (h : ∀ i < n, a / 16 ^ i % 16 = b / 16 ^ i % 16) : a = b := by
  induction n generalizing a b with
  | zero =>
    rw [pow_zero, Nat.lt_one_iff] at ha hb
    rw [ha, hb]
  | succ n ih =>
    have hlow : a % 16 = b % 16 := by simpa using h 0 (Nat.succ_pos n)
    have hhigh : a / 16 = b / 16 := by
      rw [pow_succ] at ha hb
      refine ih ((Nat.div_lt_iff_lt_mul (by decide)).mpr ha)
        ((Nat.div_lt_iff_lt_mul (by decide)).mpr hb) fun i hi => ?_
      rw [Nat.div_div_eq_div_mul, Nat.div_div_eq_div_mul, ← pow_succ']
      exact h (i + 1) (Nat.succ_lt_succ hi)
    rw [← Nat.div_add_mod a 16, ← Nat.div_add_mod b 16, hlow, hhigh]

theorem filter_hyphenated (id : Id) :
    (hyphenated id).filter (fun c => c ≠ '-') =
      (List.range 32).map fun i => Nat.digitChar (nibble id (31 - i)) := by
  rw [hyphenated, List.filter_flatMap, List.map_eq_flatMap]
  apply List.flatMap_congr
  intro i _
  have hdigit := (digitChar_plain _ (nibble_lt id (31 - i)) .unix).2.1
  split <;> simp [hdigit]

theorem hyphenated_injective (h : hyphenated id = hyphenated id') : id = id' := by
  have hdigits := congrArg (List.filter fun c => c ≠ '-') h
  rw [filter_hyphenated, filter_hyphenated, List.map_inj_left] at hdigits
  apply BitVec.eq_of_toNat_eq
  refine eq_of_nibbles (n := 32) id.isLt id'.isLt fun i hi => ?_
  have hi' := hdigits (31 - i) (List.mem_range.mpr (by omega))
  have hsub : 31 - (31 - i) = i := by omega
  rw [hsub] at hi'
  exact digitChar_injective (nibble_lt id i) (nibble_lt id' i) hi'

/-! ## The parts of a path -/

theorem digit_mem_hyphenated (id : Id) : Nat.digitChar (nibble id 31) ∈ hyphenated id :=
  List.mem_flatMap.mpr ⟨0, by decide, List.mem_append_right _ (List.mem_singleton_self _)⟩

theorem plain_hyphenated (p : Platform) (id : Id) (v : List Char) :
    Plain p (hyphenated id ++ v) := by
  have hdigit := digit_mem_hyphenated id
  refine plain_append (fun c hc => (hyphenated_plain hc p).1) hdigit
    (hyphenated_plain hdigit p).2.1 ?_
  have htwo : 2 ≤ (hyphenated id).length := by simp [hyphenated, List.range_succ]
  rw [driveLength_append htwo]
  exact if_neg fun hdrive => (hyphenated_plain (List.mem_of_getElem? hdrive.2.2) p).2.2 rfl

theorem pieces_hyphenated (p : Platform) (id : Id) :
    pieces p (hyphenated id) = [.normal (hyphenated id)] := by
  have hdigit := digit_mem_hyphenated id
  exact pieces_of_plain (fun c hc => (hyphenated_plain hc p).1) hdigit
    (hyphenated_plain hdigit p).2.1

theorem segments_plain (p : Platform) : ∀ c ∈ "segments".toList, p.isSeparator c = false := by
  cases p <;> simp [Platform.isSeparator]

theorem plain_segments (p : Platform) : Plain p "segments".toList :=
  plain_append (v := []) (segments_plain p) (c := 's') (by simp) (by decide) (if_neg (by simp))

theorem pieces_segments (p : Platform) :
    pieces p "segments".toList = [.normal "segments".toList] :=
  pieces_of_plain (segments_plain p) (c := 's') (by simp) (by decide)

theorem zeroPadded_plain (hc : c ∈ (zeroPadded seq).toList) (p : Platform) :
    p.isSeparator c = false ∧ c ≠ '.' ∧ c.isAlpha = false := by
  rcases mem_zeroPadded hc with rfl | hdigit
  · cases p <;> decide
  · refine ⟨isSeparator_of_isAlphanum (by simp [Char.isAlphanum, hdigit]), ?_, ?_⟩
    · rintro rfl
      cases hdigit
    · grind [Char.isDigit, Char.isAlpha, Char.isUpper, Char.isLower]

theorem exists_mem_zeroPadded (seq : ℤ) : ∃ c, c ∈ (zeroPadded seq).toList := by
  obtain ⟨k, htext⟩ := toList_zeroPadded seq
  obtain ⟨c, cs, hdigits⟩ := List.exists_cons_of_ne_nil (@Nat.toDigits_ne_nil seq.natAbs 10)
  exact ⟨c, by rw [htext, hdigits]; simp⟩

/-! ## The names in the folder -/

/-- What a name starts with, `dots` being nothing or the dot of a temporary file. -/
def stem (dots : List Char) (seq : ℤ) : List Char := dots ++ (zeroPadded seq).toList ++ ['.']

theorem stem_plain {dots : List Char} (hdots : ∀ c ∈ dots, c = '.') (hc : c ∈ stem dots seq)
    (p : Platform) : p.isSeparator c = false ∧ c.isAlpha = false := by
  have hdot : p.isSeparator '.' = false ∧ Char.isAlpha '.' = false := by cases p <;> decide
  rw [stem, List.mem_append, List.mem_append, List.mem_singleton] at hc
  rcases hc with (hc | hc) | rfl
  · rw [hdots c hc]
    exact hdot
  · exact ⟨(zeroPadded_plain hc p).1, (zeroPadded_plain hc p).2.2⟩
  · exact hdot

theorem exists_mem_stem (dots : List Char) (seq : ℤ) : ∃ c ∈ stem dots seq, c ≠ '.' := by
  obtain ⟨c, hc⟩ := exists_mem_zeroPadded seq
  exact ⟨c, by simp [stem, hc], (zeroPadded_plain hc .unix).2.1⟩

theorem plain_stem {dots : List Char} (hdots : ∀ c ∈ dots, c = '.') (p : Platform) (seq : ℤ)
    (v : List Char) : Plain p (stem dots seq ++ v) := by
  obtain ⟨c, hc, hdot⟩ := exists_mem_stem dots seq
  refine plain_append (fun c hc => (stem_plain hdots hc p).1) hc hdot ?_
  refine driveLength_of_head fun a ha => ?_
  obtain ⟨b, rest, hstem⟩ := List.exists_cons_of_ne_nil (List.ne_nil_of_mem hc)
  rw [hstem, List.cons_append, List.head?_cons, Option.mem_some_iff] at ha
  exact (stem_plain hdots (by rw [hstem, ← ha]; exact List.mem_cons_self) p).2

/-- The number is read off the start of a name. -/
theorem seq_eq_of_stem {dots dots' u u' : List Char} (hdots : ∀ c ∈ dots, c = '.')
    (hdots' : ∀ c ∈ dots', c = '.') (h : stem dots seq ++ u = stem dots' seq' ++ u') :
    seq = seq' := by
  have hread : ∀ {dots u : List Char} {seq : ℤ}, (∀ c ∈ dots, c = '.') →
      (trimStartMatches '.' (stem dots seq ++ u)).takeWhile (· ≠ '.') = (zeroPadded seq).toList := by
    intro dots u seq hdots
    have hno : ∀ c ∈ (zeroPadded seq).toList, c ≠ '.' :=
      fun c hc => (zeroPadded_plain hc .unix).2.1
    obtain ⟨c, hc⟩ := exists_mem_zeroPadded seq
    obtain ⟨a, rest, hdigits⟩ := List.exists_cons_of_ne_nil (List.ne_nil_of_mem hc)
    have hname : stem dots seq ++ u = dots ++ ((zeroPadded seq).toList ++ '.' :: u) := by
      simp [stem]
    rw [trimStartMatches, hname, List.dropWhile_append_of_pos (by simpa using hdots), hdigits,
      List.cons_append, List.dropWhile_cons_of_neg (by simp [hno a (by simp [hdigits])]),
      ← List.cons_append, ← hdigits, List.takeWhile_append_of_pos (by simpa using hno),
      List.takeWhile_cons_of_neg (by simp), List.append_nil]
  apply zeroPadded_injective
  rw [← hread (u := u) hdots, h, hread hdots']

/-! ## The paths -/

theorem components_segmentsDir (p : Platform) (blobs : List Char) (id : Id) :
    components p (segmentsDir p blobs id) =
      components p blobs ++ [.normal (hyphenated id), .normal "segments".toList] := by
  have hid : Plain p (hyphenated id) := by simpa using plain_hyphenated p id []
  rw [segmentsDir, components_join (plain_segments p), recordingDir, components_join hid,
    pieces_hyphenated, pieces_segments, List.append_assoc]
  rfl

/-- Whatever the extension is, a name tells the recording and the number apart. -/
theorem eq_of_same {dots dots' : List Char} {v v' : List Char} (hdots : ∀ c ∈ dots, c = '.')
    (hdots' : ∀ c ∈ dots', c = '.')
    (h : Same p (join p (segmentsDir p blobs id) (stem dots seq ++ v))
      (join p (segmentsDir p blobs id') (stem dots' seq' ++ v'))) : (id', seq') = (id, seq) := by
  obtain ⟨c, hc, hdot⟩ := exists_mem_stem dots seq
  obtain ⟨c', hc', hdot'⟩ := exists_mem_stem dots' seq'
  obtain ⟨u, t, hpieces⟩ := pieces_append (fun c hc => (stem_plain hdots hc p).1) hc hdot v
  obtain ⟨u', t', hpieces'⟩ := pieces_append (fun c hc => (stem_plain hdots' hc p).1) hc' hdot' v'
  rw [Same, components_join (plain_stem hdots p seq v),
    components_join (plain_stem hdots' p seq' v'), components_segmentsDir, components_segmentsDir, hpieces, hpieces', List.append_assoc,
    List.append_assoc, List.append_cancel_left_eq] at h
  simp only [List.cons_append, List.nil_append, List.cons.injEq, Component.normal.injEq] at h
  obtain ⟨hid, -, hstem, -⟩ := h
  rw [hyphenated_injective hid, seq_eq_of_stem hdots hdots' hstem]

theorem segmentPath_eq (p : Platform) (blobs : List Char) (id : Id) (seq : ℤ) (ext : List Char) :
    segmentPath p blobs id seq ext =
      join p (segmentsDir p blobs id) (stem [] seq ++ trimStartMatches '.' ext) := by
  simp [segmentPath, segmentName, stem]

theorem tmpPath_eq (p : Platform) (blobs : List Char) (id : Id) (seq : ℤ)
    (extQ contentType : Option (List Char)) :
    (putSegmentPaths p blobs id seq extQ contentType).tmpPath =
      join p (segmentsDir p blobs id)
        (stem ['.'] seq ++ (resolveExt extQ contentType ++ ".partial".toList)) := by
  simp [putSegmentPaths, segmentName, stem]

theorem finalPath_eq (p : Platform) (blobs : List Char) (id : Id) (seq : ℤ)
    (extQ contentType : Option (List Char)) :
    (putSegmentPaths p blobs id seq extQ contentType).finalPath =
      join p (segmentsDir p blobs id)
        (stem [] seq ++ trimStartMatches '.' (resolveExt extQ contentType)) :=
  segmentPath_eq p blobs id seq _

theorem resolveKey_segmentKey (p : Platform) (blobs : List Char) (id : Id) (seq : ℤ)
    (ext : List Char) :
    Same p (resolveKey p blobs (segmentKey id seq ext)) (segmentPath p blobs id seq ext) := by
  have hslash : p.isSeparator '/' = true := by cases p <;> rfl
  have hname : segmentName seq (trimStartMatches '.' ext) =
      stem [] seq ++ trimStartMatches '.' ext := by simp [segmentName, stem]
  rw [Same, resolveKey, segmentKey, components_join (plain_hyphenated p id _), segmentPath_eq,
    components_join (plain_stem (by simp) p seq _), components_segmentsDir,
    pieces_append_cons hslash, pieces_append_cons hslash, pieces_hyphenated, pieces_segments, hname]
  simp

/-! ## The extension -/

theorem isSeparator_toLower (p : Platform) (c : Char) :
    p.isSeparator c.toLower = p.isSeparator c := by
  by_cases hupper : c.isUpper
  · have hc : c.isAlpha = true := by simp [Char.isAlpha, hupper]
    have hlower : c.toLower.isAlpha = true := by
      rw [Char.isAlpha, Char.isLower_toLower_eq_isAlpha, hc, Bool.or_true]
    have hplain : ∀ d : Char, d.isAlpha = true → p.isSeparator d = false :=
      fun d hd => isSeparator_of_isAlphanum (by simp [Char.isAlphanum, hd])
    rw [hplain c hc, hplain c.toLower hlower]
  · rw [Char.toLower_eq_of_not_isUpper hupper]

theorem extFromHeaders_plain (contentType : Option (List Char)) :
    ∀ c ∈ extFromHeaders contentType, p.isSeparator c = false := by
  have hknown : ∀ ct e, extFromContentType ct = some e → ∀ c ∈ e.toList, c.isAlphanum = true := by
    intro ct e he
    unfold extFromContentType at he
    split at he <;> cases he <;> simp
  intro c hc
  apply isSeparator_of_isAlphanum
  unfold extFromHeaders at hc
  cases hext : contentType.bind fun ct =>
      extFromContentType (String.ofList (trim (ct.takeWhile (· ≠ ';')))) with
  | none =>
    rw [hext] at hc
    exact (by simp : ∀ c ∈ "m4a".toList, c.isAlphanum = true) c hc
  | some e =>
    rw [hext] at hc
    obtain ⟨ct, -, he⟩ := Option.bind_eq_some_iff.mp hext
    exact hknown _ e he c hc

/-- Trimming takes no separator away. -/
theorem cleanExt_plain_iff (p : Platform) (text : List Char) :
    (∀ c ∈ cleanExt text, p.isSeparator c = false) ↔ ∀ c ∈ text, p.isSeparator c = false := by
  simp only [cleanExt, List.forall_mem_map, isSeparator_toLower]
  constructor
  · intro h c hc
    by_contra hsep
    rw [Bool.not_eq_false] at hsep
    have hchar : isWhitespace c = false ∧ (c == '.') = false := by
      cases p <;> simp [Platform.isSeparator] at hsep
      · rw [hsep]
        decide
      · rcases hsep with rfl | rfl <;> decide
    obtain ⟨before, after, hbefore, hafter, htext⟩ := exists_trim text
    rw [htext, List.mem_append, List.mem_append] at hc
    rcases hc with (hc | hc) | hc
    · rw [hbefore c hc] at hchar
      cases hchar.1
    · rw [← List.takeWhile_append_dropWhile (p := (· == '.')) (l := trim text),
        List.mem_append] at hc
      rcases hc with hdot | hrest
      · rw [List.mem_takeWhile_imp hdot] at hchar
        cases hchar.2
      · rw [h c hrest] at hsep
        cases hsep
    · rw [hafter c hc] at hchar
      cases hchar.1
  · intro h c hc
    exact h c (mem_of_mem_trim ((List.dropWhile_sublist _).subset hc))

theorem resolveExt_plain_iff (p : Platform) (extQ contentType : Option (List Char)) :
    (∀ c ∈ resolveExt extQ contentType, p.isSeparator c = false) ↔
      ∀ text, extQ = some text → ∀ c ∈ text, p.isSeparator c = false := by
  unfold resolveExt
  cases extQ with
  | none => simpa using extFromHeaders_plain contentType
  | some text =>
    simp only [Option.some.injEq, forall_eq']
    rw [← cleanExt_plain_iff p text]
    split
    case isTrue => rfl
    case isFalse hempty =>
      rw [not_not] at hempty
      rw [hempty]
      exact iff_of_true (extFromHeaders_plain contentType) (by simp)

/-! ## What a separator does -/

/-- The temporary file is a name in the folder exactly if the extension has no separator. -/
theorem directChild_tmpPath_iff :
    DirectChild p (segmentsDir p blobs id)
        (putSegmentPaths p blobs id seq extQ contentType).tmpPath ↔
      ∀ c ∈ resolveExt extQ contentType, p.isSeparator c = false := by
  have hdots : ∀ c ∈ ['.'], c = '.' := by simp
  have htail : ∀ c ∈ ".partial".toList, p.isSeparator c = false := by
    cases p <;> simp [Platform.isSeparator]
  obtain ⟨c, hc, hdot⟩ := exists_mem_stem ['.'] seq
  rw [tmpPath_eq, directChild_join_iff (plain_stem hdots p seq _)]
  exact exists_pieces_iff (d := 'p') (fun c hc => (stem_plain hdots hc p).1) hc hdot htail
    (by simp) (by decide)

theorem directChild_segmentPath (hext : ∀ c ∈ ext, p.isSeparator c = false) :
    DirectChild p (segmentsDir p blobs id) (segmentPath p blobs id seq ext) := by
  have hdots : ∀ c ∈ [], c = '.' := by simp
  obtain ⟨c, hc, hdot⟩ := exists_mem_stem [] seq
  rw [segmentPath_eq, directChild_join_iff (plain_stem hdots p seq _)]
  refine ⟨_, pieces_of_plain (fun c hc => ?_) (List.mem_append_left _ hc) hdot⟩
  rcases List.mem_append.mp hc with hc | hc
  · exact (stem_plain hdots hc p).1
  · exact hext c ((List.dropWhile_sublist _).subset hc)

/-- The paths stay in the folder exactly if the query's extension has no separator. -/
theorem stays_iff (p : Platform) (blobs : List Char) (id : Id) (seq : ℤ)
    (extQ contentType : Option (List Char)) :
    Stays p blobs id seq extQ contentType ↔
      ∀ text, extQ = some text → ∀ c ∈ text, p.isSeparator c = false := by
  rw [← resolveExt_plain_iff p extQ contentType]
  constructor
  · exact fun h => directChild_tmpPath_iff.mp h.tmp
  · intro hext
    refine ⟨directChild_tmpPath_iff.mpr hext, directChild_segmentPath hext, ?_,
      resolveKey_segmentKey p blobs id seq _⟩
    intro id' seq' extQ' contentType' hne
    have hnil : ∀ c ∈ [], c = '.' := by simp
    have hdot : ∀ c ∈ ['.'], c = '.' := by simp
    refine ⟨?_, ?_, ?_, ?_⟩ <;> intro h
    · rw [tmpPath_eq, tmpPath_eq] at h
      exact hne (eq_of_same hdot hdot h)
    · rw [tmpPath_eq, finalPath_eq] at h
      exact hne (eq_of_same hdot hnil h)
    · rw [tmpPath_eq, finalPath_eq] at h
      exact hne (eq_of_same hnil hdot h)
    · rw [finalPath_eq, finalPath_eq] at h
      exact hne (eq_of_same hnil hnil h)

/-- What is left of the extension `../../x` without its leading dots makes three components of the
name, one of them a parent. -/
theorem not_stays :
    ¬∀ (p : Platform) (blobs : List Char) (id : Id) (seq : ℤ)
      (extQ contentType : Option (List Char)), Stays p blobs id seq extQ contentType := by
  intro h
  have hplain := (stays_iff .unix "/srv/blobs".toList 0 1 (some "../../x".toList) none).mp
    (h _ _ _ _ _ _) _ rfl '/' (by simp)
  cases hplain

end ScribeLocal.PutSegment
