import ScribeLocal.Pipeline.JsonBlock
import ScribeLocal.Pipeline.Utterances

/-!
# The model's corrections

`correct_names` of the merge stage: the language model sees the numbered lines and answers
with corrections, which are applied one after the other. A correction that strays too far in
length from the line is left out.
-/
namespace ScribeLocal.Pipeline

structure ChatMessage where
  role : String
  content : String

def ChatMessage.system (content : String) : ChatMessage := ⟨"system", content⟩

def ChatMessage.user (content : String) : ChatMessage := ⟨"user", content⟩

structure Correction where
  i : ℕ
  text : String
  deriving DecidableEq

/-- The lines the model is shown. -/
def numberedLines (utts : List GroupedUtterance) : String :=
  utts.zipIdx.foldl (fun transcript u =>
    let line := Embed.trim u.1.text
    if line.isEmpty then transcript
    else transcript ++ (toString u.2 ++ ": " ++ line ++ "\n")) ""

def namesHint (names : List String) : String :=
  if names.isEmpty then ""
  else "Known correct names/terms (prefer these spellings): " ++ ", ".intercalate names ++ ".\n"

def correctionMessages (names : List String) (transcript : String) : List ChatMessage :=
  [.system "You correct speech-to-text transcription errors. Respond with only JSON.",
    .user (namesHint names ++
      "Below are numbered transcript lines from speech-to-text. Fix ONLY clear " ++
      "transcription errors: misheard proper nouns, names, and obviously wrong words. Do NOT " ++
      "paraphrase, translate, summarise, reorder, merge, or split lines, and do not change " ++
      "text that is already correct. Keep the wording and length as close to the original as " ++
      "possible. Return ONLY a JSON array of objects \x7b\"i\": <line number>, \"text\": " ++
      "\"<corrected line>\"\x7d for the lines you actually changed; return [] if nothing needs " ++
      "fixing.\n\nLines:\n" ++ transcript)]

/-- The utterances, and how many corrections were applied. -/
def applyCorrection (s : List GroupedUtterance × ℕ) (c : Correction) :
    List GroupedUtterance × ℕ :=
  match s.1[c.i]? with
  | none => s
  | some u =>
    let new := Embed.trim c.text
    if new.isEmpty || new == u.text then s
    else
      let origLen : ℤ := u.text.length
      let newLen : ℤ := new.length
      -- the corrected line must stay close in length to the original
      if max (origLen / 3) 12 < (origLen - newLen).natAbs then s
      else (s.1.set c.i { u with text := new }, s.2 + 1)

/-- `chat` answers unless it fails, and `fromStr` is the JSON reader. -/
def correctNames (chat : String → List ChatMessage → Option String)
    (fromStr : String → Option (List Correction)) (model : String) (names : List String)
    (utts : List GroupedUtterance) : Except Panic (List GroupedUtterance × ℕ) :=
  if utts.isEmpty then .ok (utts, 0)
  else
    let transcript := numberedLines utts
    if transcript.isEmpty then .ok (utts, 0)
    else
      match chat model (correctionMessages names transcript) with
      | none => .ok (utts, 0)
      | some raw => do
        match ← firstJsonArray raw with
        | none => .ok (utts, 0)
        | some arr =>
          match fromStr arr with
          | none => .ok (utts, 0)
          | some parsed => .ok (parsed.foldl applyCorrection (utts, 0))

/-! ## The corrections of a reply -/

variable {chat : String → List ChatMessage → Option String}
  {fromStr : String → Option (List Correction)} {model : String} {names : List String}
  {utts : List GroupedUtterance} {edits : List Correction} {n applied : ℕ}
  {u : GroupedUtterance}

/-- The corrections that the reply holds, none where it cannot be read. -/
def corrections (chat : String → List ChatMessage → Option String)
    (fromStr : String → Option (List Correction)) (model : String) (names : List String)
    (utts : List GroupedUtterance) : List Correction :=
  if (numberedLines utts).isEmpty then []
  else
    match chat model (correctionMessages names (numberedLines utts)) with
    | none => []
    | some raw =>
      match firstJsonArray raw with
      | .ok (some arr) => (fromStr arr).getD []
      | _ => []

/-- The stage does nothing but apply them. -/
theorem correctNames_eq : correctNames chat fromStr model names utts =
    .ok ((corrections chat fromStr model names utts).foldl applyCorrection (utts, 0)) := by
  unfold correctNames corrections
  by_cases hutts : utts.isEmpty
  · obtain rfl : utts = [] := List.isEmpty_iff.mp hutts
    rfl
  · rw [if_neg hutts]
    dsimp only
    by_cases hlines : (numberedLines utts).isEmpty
    · rw [if_pos hlines, if_pos hlines]
      rfl
    · rw [if_neg hlines, if_neg hlines]
      cases hraw : chat model (correctionMessages names (numberedLines utts)) with
      | none => rfl
      | some raw =>
        obtain ⟨block, hblock⟩ := square.exists_firstBlock raw
        have harray : firstJsonArray raw = .ok block := hblock
        dsimp only
        rw [harray]
        cases block with
        | none => rfl
        | some arr => cases hparsed : fromStr arr <;> simp [hparsed, bind, Except.bind]

/-! ## One line -/

/-- The lengths differ by at most twelve, or a third of the first. -/
def Within (len len' : ℕ) : Prop := ((len : ℤ) - len').natAbs ≤ max 12 (len / 3)

instance (len len' : ℕ) : Decidable (Within len len') := inferInstanceAs (Decidable (_ ≤ _))

/-- The line after one correction for it. -/
def settle (text new : String) : String :=
  if new ≠ "" ∧ Within text.length new.length then new else text

/-- The corrections for line `n`. -/
def textsAt (edits : List Correction) (n : ℕ) : List String :=
  (edits.filter fun c => c.i = n).map fun c => Embed.trim c.text

theorem within_self (len : ℕ) : Within len len := by
  simp [Within]

theorem applyCorrection_eq (s : List GroupedUtterance × ℕ) (c : Correction) :
    (applyCorrection s c).1[n]? =
      if c.i = n then s.1[n]?.map fun u => { u with text := settle u.text (Embed.trim c.text) }
      else s.1[n]? := by
  unfold applyCorrection
  cases hu : s.1[c.i]? with
  | none =>
    by_cases hn : c.i = n
    · subst hn
      simp [hu]
    · simp [hn]
  | some u =>
    dsimp only
    by_cases hn : c.i = n
    · subst hn
      rw [if_pos rfl, hu, Option.map_some]
      by_cases hsame : Embed.trim c.text = "" ∨ Embed.trim c.text = u.text
      · have hskip : settle u.text (Embed.trim c.text) = u.text := by
          rcases hsame with hempty | heq
          · simp [settle, hempty]
          · rw [settle, heq, ite_self]
        rw [if_pos (by simpa using hsame), hu, hskip]
      · rw [if_neg (by simpa using hsame)]
        rw [not_or] at hsame
        by_cases hclose : Within u.text.length (Embed.trim c.text).length
        · rw [if_neg (by unfold Within at hclose; omega), settle, if_pos ⟨hsame.1, hclose⟩,
            List.getElem?_set_self']
          simp [hu]
        · rw [if_pos (by unfold Within at hclose; omega), settle, if_neg (by simp [hclose]), hu]
    · rw [if_neg hn]
      split
      · rfl
      · split
        · rfl
        · exact List.getElem?_set_ne hn

/-- Each line goes its own way. -/
theorem foldl_applyCorrection_eq (s : List GroupedUtterance × ℕ) (edits : List Correction) :
    (edits.foldl applyCorrection s).1 =
      s.1.mapIdx fun n u => { u with text := (textsAt edits n).foldl settle u.text } := by
  apply List.ext_getElem?
  intro n
  rw [List.getElem?_mapIdx]
  induction edits generalizing s with
  | nil => simp [textsAt]
  | cons c edits ih =>
    rw [List.foldl_cons, ih, applyCorrection_eq]
    by_cases hn : c.i = n
    · rw [if_pos hn, Option.map_map]
      congr 1
      funext u
      simp [textsAt, hn]
    · simp [textsAt, hn]

/-- No entry for the line is too far from it in length, and yet near enough to an entry before it
that is not. -/
def NoDetour (text : String) (entries : List String) : Prop :=
  entries.Pairwise fun a b => b ≠ "" → Within text.length a.length → Within a.length b.length →
    Within text.length b.length

instance (text : String) (entries : List String) : Decidable (NoDetour text entries) :=
  inferInstanceAs (Decidable (List.Pairwise _ _))

theorem settle_eq_or (text new : String) :
    settle text new = text ∨
      settle text new = new ∧ new ≠ "" ∧ Within text.length new.length := by
  unfold settle
  by_cases h : new ≠ "" ∧ Within text.length new.length
  · exact .inr ⟨if_pos h, h⟩
  · exact .inl (if_neg h)

/-- Where one stands is the line itself or an entry near it. -/
theorem foldl_settle_within {text : String} {entries : List String} (h : NoDetour text entries) :
    entries.foldl settle text = text ∨ entries.foldl settle text ∈ entries ∧
      entries.foldl settle text ≠ "" ∧
        Within text.length (entries.foldl settle text).length := by
  induction entries using List.reverseRecOn with
  | nil => exact .inl rfl
  | append_singleton entries new ih =>
    obtain ⟨hbefore, -, hnew⟩ := List.pairwise_append.mp h
    rw [List.foldl_concat]
    rcases settle_eq_or (entries.foldl settle text) new with hkept | ⟨htaken, hne, hclose⟩
    · rw [hkept]
      rcases ih hbefore with hown | ⟨hmem, hnear⟩
      · exact .inl hown
      · exact .inr ⟨List.mem_append_left _ hmem, hnear⟩
    · rw [htaken]
      refine .inr ⟨List.mem_append_right _ (List.mem_singleton_self new), hne, ?_⟩
      rcases ih hbefore with hown | ⟨hmem, -, hnear⟩
      · rwa [hown] at hclose
      · exact hnew _ hmem new (List.mem_singleton_self new) hne hnear hclose

/-- Two texts that are each within twelve characters of nothing are so of each other. -/
theorem within_of_within_zero {len len' : ℕ} (h : Within len 0) (h' : Within 0 len') :
    Within len len' := by
  unfold Within at *
  omega

/-- With two entries a detour ends too far away. -/
theorem noDetour_of_within {text : String} {entries : List String} (htwo : entries.length ≤ 2)
    (h : Within text.length (entries.foldl settle text).length) : NoDetour text entries := by
  match entries with
  | [] => exact .nil
  | [a] => exact List.pairwise_singleton _ a
  | [a, b] =>
    refine List.pairwise_pair.mpr fun hb hnear hclose => ?_
    by_cases ha : a = ""
    · subst ha
      exact within_of_within_zero hnear hclose
    · have hfirst : settle text a = a := if_pos ⟨ha, hnear⟩
      have hsecond : settle a b = b := if_pos ⟨hb, hclose⟩
      rwa [List.foldl_cons, List.foldl_cons, List.foldl_nil, hfirst, hsecond] at h

/-! ## All lines -/

/-- Nothing but the text has changed, and the text not by much. -/
structure Nudged (before after : GroupedUtterance) : Prop where
  frame : after = { before with text := after.text }
  text : after.text = before.text ∨
    after.text ≠ "" ∧ Within before.text.length after.text.length

theorem nudged_of_noDetour {entries : List String} (h : NoDetour u.text entries) :
    Nudged u { u with text := entries.foldl settle u.text } := by
  refine ⟨rfl, ?_⟩
  rcases foldl_settle_within h with heq | ⟨-, hnear⟩
  · exact .inl heq
  · exact .inr hnear

theorem Nudged.within {entries : List String}
    (h : Nudged u { u with text := entries.foldl settle u.text }) :
    Within u.text.length (entries.foldl settle u.text).length := by
  rcases h.text with heq | ⟨-, hclose⟩
  · have hsame : entries.foldl settle u.text = u.text := heq
    rw [hsame]
    exact within_self _
  · exact hclose

theorem forall₂_nudged_iff (s : List GroupedUtterance × ℕ) (edits : List Correction) :
    List.Forall₂ Nudged s.1 (edits.foldl applyCorrection s).1 ↔ ∀ n u, s.1[n]? = some u →
      Nudged u { u with text := (textsAt edits n).foldl settle u.text } := by
  rw [foldl_applyCorrection_eq, List.forall₂_iff_get]
  simp only [List.length_mapIdx, true_and, List.get_eq_getElem, List.getElem_mapIdx]
  constructor
  · intro hall n u hu
    obtain ⟨hn, rfl⟩ := List.getElem?_eq_some_iff.mp hu
    exact hall n hn hn
  · intro hall n hn _
    exact hall n _ (List.getElem?_eq_getElem hn)

/-- No line of the transcript goes a detour. -/
def Direct (utts : List GroupedUtterance) (edits : List Correction) : Prop :=
  ∀ n u, utts[n]? = some u → NoDetour u.text (textsAt edits n)

/-- The stage never fails. It only nudges the lines where none goes a detour; and where the reply
corrects no line more than twice, that is the only way. -/
theorem nudged_of_direct (chat : String → List ChatMessage → Option String)
    (fromStr : String → Option (List Correction)) (model : String) (names : List String)
    (utts : List GroupedUtterance) : ∃ after applied,
      correctNames chat fromStr model names utts = .ok (after, applied) ∧
        List.Forall₂ (fun b a => a = { b with text := a.text }) utts after ∧
        (Direct utts (corrections chat fromStr model names utts) →
          List.Forall₂ Nudged utts after) ∧
        ((∀ n, (textsAt (corrections chat fromStr model names utts) n).length ≤ 2) →
          List.Forall₂ Nudged utts after →
            Direct utts (corrections chat fromStr model names utts)) := by
  have hiff := forall₂_nudged_iff (utts, 0) (corrections chat fromStr model names utts)
  refine ⟨_, _, correctNames_eq, ?_, ?_, ?_⟩
  · rw [foldl_applyCorrection_eq, List.forall₂_iff_get]
    simp
  · intro hdirect
    exact hiff.mpr fun n u hu => nudged_of_noDetour (hdirect n u hu)
  · intro htwo hnudged n u hu
    exact noDetour_of_within (htwo n) (hiff.mp hnudged n u hu).within

/-- One line, and a reply that corrects it twice. -/
def said : List GroupedUtterance := [⟨some 0, 0, 900, "We met Sam.", []⟩]

def insistent : String :=
  "[\x7b\"i\": 0, \"text\": \"We met Samuel Jackson.\"\x7d, " ++
    "\x7b\"i\": 0, \"text\": \"We met Samuel Jackson at the inn.\"\x7d]"

def read (s : String) : Option (List Correction) :=
  if s = insistent then
    some [⟨0, "We met Samuel Jackson."⟩, ⟨0, "We met Samuel Jackson at the inn."⟩]
  else none

theorem corrections_insistent :
    corrections (fun _ _ => some insistent) read "qwen3" [] said =
      [⟨0, "We met Samuel Jackson."⟩, ⟨0, "We met Samuel Jackson at the inn."⟩] := by
  decide +kernel

/-- Eleven characters become twenty-two, and twenty-two become thirty-three. -/
theorem not_nudged : ¬ ∀ (chat : String → List ChatMessage → Option String)
    (fromStr : String → Option (List Correction)) (model : String) (names : List String)
    (utts after : List GroupedUtterance) (applied : ℕ),
    correctNames chat fromStr model names utts = .ok (after, applied) →
      List.Forall₂ Nudged utts after := by
  intro h
  have hrun := @correctNames_eq (fun _ _ => some insistent) read "qwen3" [] said
  rw [corrections_insistent] at hrun
  have hiff := forall₂_nudged_iff (said, 0)
    [⟨0, "We met Samuel Jackson."⟩, ⟨0, "We met Samuel Jackson at the inn."⟩]
  generalize [Correction.mk 0 _, _].foldl applyCorrection (said, 0) = s at hrun hiff
  have hclose := (hiff.mp (h _ _ _ _ _ s.1 s.2 hrun) 0 _ rfl).within
  exact absurd hclose (by decide)

/-- The reply is read as two corrections near the line, and one that is not. -/
def readNear (s : String) : Option (List Correction) :=
  if s = insistent then
    some [⟨0, "We met Samuel."⟩, ⟨0, "We met Samuel Jackson at the inn."⟩, ⟨0, "We met Samantha."⟩]
  else none

theorem corrections_readNear : corrections (fun _ _ => some insistent) readNear "qwen3" [] said =
    [⟨0, "We met Samuel."⟩, ⟨0, "We met Samuel Jackson at the inn."⟩, ⟨0, "We met Samantha."⟩] := by
  decide +kernel

theorem direct_readNear :
    Direct said (corrections (fun _ _ => some insistent) readNear "qwen3" [] said) := by
  rw [corrections_readNear]
  intro n u hu
  cases n with
  | zero =>
    cases hu
    decide +kernel
  | succ n => cases hu

theorem nudged_of_direct_readNear : ∃ after applied,
    correctNames (fun _ _ => some insistent) readNear "qwen3" [] said = .ok (after, applied) ∧
      List.Forall₂ Nudged said after := by
  obtain ⟨after, applied, hrun, -, hnudged, -⟩ :=
    nudged_of_direct (fun _ _ => some insistent) readNear "qwen3" [] said
  exact ⟨after, applied, hrun, hnudged direct_readNear⟩

end ScribeLocal.Pipeline
