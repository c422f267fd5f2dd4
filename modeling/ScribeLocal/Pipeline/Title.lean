import ScribeLocal.Pipeline.JsonBlock
import ScribeLocal.Pipeline.SplitLines

/-!
# Provisional titles

At the end of a live pass, `title::regenerate` hands the model what was said last and takes a
title from its reply.
-/
namespace ScribeLocal.Pipeline
open Asr (isWhitespace trim trim_append)
open Utf8

/-- Cap on what is fed to the title model. -/
def maxChars : ℕ := 6000

/-- The texts of the utterances, a line each. -/
def titleText (utts : List (List Char)) : List Char := joined (utts.map trim)

/-- What the model is handed, if there are utterances: the most recent context. `split_off` takes
an offset in bytes. -/
def titlePrompt (utts : List (List Char)) : Except Panic (Option (List Char)) :=
  if utts.isEmpty then .ok none
  else
    let text := titleText utts
    let len := (bytes text).length
    if maxChars < len then
      match splitAt (len - maxChars) text with
      | none => .error .notCharBoundary
      | some (_, recent) => .ok (some recent)
    else .ok (some text)

/-- `str::trim_matches` -/
def trimMatches (p : Char → Bool) (s : List Char) : List Char :=
  ((s.dropWhile p).reverse.dropWhile p).reverse

/-- First non-empty line, surrounding quotes stripped, length-capped. -/
def cleanTitle (raw : List Char) : Option (List Char) :=
  (((lines raw).map trim).find? fun l => !l.isEmpty).bind fun line =>
    let t := trim (trimMatches (fun c => c == '"' || c == '\'' || c == '\x60') line)
    if t.isEmpty then none else some (t.take 120)

/-- The title that is set, if one is. `chat` answers the prompt or fails. -/
def regenerate (utts : List (List Char)) (chat : List Char → Option (List Char)) :
    Except Panic (Option (List Char)) := do
  match ← titlePrompt utts with
  | none => return none
  | some text => return (chat text).bind cleanTitle

/-- The prompt is the end of the text, no longer than the cap; whatever the model answers, the
pass goes on behind it. -/
structure Refreshes (utts : List (List Char)) : Prop where
  exists_prompt : ∃ prompt, titlePrompt utts = .ok prompt ∧
    ∀ text ∈ prompt, text <:+ titleText utts ∧ text.length ≤ maxChars
  completes : ∀ chat, ∃ title, regenerate utts chat = .ok title

/-- The text is not over the cap, or its last bytes up to the cap start with a character. -/
def CutsBetween (utts : List (List Char)) : Prop :=
  (bytes (titleText utts)).length ≤ maxChars ∨
    ∃ earlier recent, titleText utts = earlier ++ recent ∧ (bytes recent).length = maxChars

variable {utts : List (List Char)} {text : List Char}

theorem length_le_bytes (s : List Char) : s.length ≤ (bytes s).length := by
  induction s with
  | nil => rfl
  | cons c s ih =>
    have hpos := c.utf8Size_pos
    rw [length_bytes_cons, List.length_cons]
    omega

theorem titleText_of_isEmpty (h : utts.isEmpty = true) : titleText utts = [] := by
  rw [List.isEmpty_iff] at h
  rw [h]
  rfl

/-- What can be handed over: the whole text, or its last bytes up to the cap. -/
theorem titlePrompt_eq_some (h : titlePrompt utts = .ok (some text)) :
    text = titleText utts ∧ (bytes text).length ≤ maxChars ∨
      ∃ earlier, titleText utts = earlier ++ text ∧ (bytes text).length = maxChars := by
  rw [titlePrompt] at h
  split at h
  · cases h
  · dsimp only at h
    split at h
    case isTrue hover =>
      cases hsplit : splitAt ((bytes (titleText utts)).length - maxChars) (titleText utts) with
      | none =>
        rw [hsplit] at h
        cases h
      | some p =>
        rw [hsplit] at h
        cases h
        obtain ⟨heq, hlength⟩ := splitAt_eq_some_iff.mp hsplit
        have hsum := congrArg (fun s => (bytes s).length) heq
        simp only [bytes_append, List.length_append] at hsum
        exact .inr ⟨p.1, heq, by omega⟩
    case isFalse hfits =>
      cases h
      exact .inl ⟨rfl, not_lt.mp hfits⟩

theorem titlePrompt_of_cutsBetween (h : CutsBetween utts) : ∃ prompt, titlePrompt utts = .ok prompt := by
  rw [titlePrompt]
  split
  · exact ⟨none, rfl⟩
  · dsimp only
    split
    case isTrue hover =>
      obtain ⟨earlier, recent, heq, hlength⟩ := h.resolve_left (not_le.mpr hover)
      have hsum : (bytes (titleText utts)).length - maxChars = (bytes earlier).length := by
        rw [heq, bytes_append, List.length_append]
        omega
      rw [hsum, heq, splitAt_bytes]
      exact ⟨some recent, rfl⟩
    case isFalse => exact ⟨_, rfl⟩

theorem cutsBetween_of_titlePrompt {prompt : Option (List Char)} (h : titlePrompt utts = .ok prompt) :
    CutsBetween utts := by
  cases prompt with
  | none =>
    rw [titlePrompt] at h
    split at h
    case isTrue hempty =>
      rw [CutsBetween, titleText_of_isEmpty hempty]
      exact .inl (Nat.zero_le _)
    case isFalse =>
      dsimp only at h
      split at h
      · split at h <;> cases h
      · cases h
  | some text =>
    obtain ⟨rfl, hle⟩ | ⟨earlier, heq, hlength⟩ := titlePrompt_eq_some h
    · exact .inl hle
    · exact .inr ⟨earlier, text, heq, hlength⟩

/-- The title is refreshed exactly if the cut falls between two characters. -/
theorem refreshes_iff (utts : List (List Char)) : Refreshes utts ↔ CutsBetween utts := by
  constructor
  · intro h
    obtain ⟨prompt, hprompt, -⟩ := h.exists_prompt
    exact cutsBetween_of_titlePrompt hprompt
  · intro h
    obtain ⟨prompt, hprompt⟩ := titlePrompt_of_cutsBetween h
    constructor
    · refine ⟨prompt, hprompt, fun text htext => ?_⟩
      rw [Option.mem_def.mp htext] at hprompt
      have hchars := length_le_bytes text
      obtain ⟨heq, hle⟩ | ⟨earlier, heq, hlength⟩ := titlePrompt_eq_some hprompt
      · exact ⟨heq ▸ List.suffix_refl _, hchars.trans hle⟩
      · exact ⟨⟨earlier, heq.symm⟩, hchars.trans hlength.le⟩
    · intro chat
      rw [regenerate, hprompt]
      cases prompt with
      | none => exact ⟨none, rfl⟩
      | some text => exact ⟨_, rfl⟩

/-- A word of one two-byte letter. -/
theorem length_bytes_replicate (n : ℕ) : (bytes (List.replicate n 'é')).length = 2 * n := by
  induction n with
  | zero => rfl
  | succ n ih =>
    have hsize : 'é'.utf8Size = 2 := by decide
    rw [List.replicate_succ, length_bytes_cons, ih, hsize]
    omega

theorem trim_replicate (n : ℕ) : trim (List.replicate n 'é') = List.replicate n 'é' := by
  have hletter : ∀ c ∈ List.replicate n 'é', isWhitespace c = false := fun c hc => by
    rw [List.eq_of_mem_replicate hc]
    decide
  have htrim := @trim_append (List.replicate n 'é') [] [] (by simp) (by simp)
    (fun c hc => hletter c (List.mem_of_mem_head? hc))
    (fun c hc => hletter c (List.mem_of_getLast? hc))
  rwa [List.nil_append, List.append_nil] at htrim

/-- One utterance of 3001 letters of two bytes: the cut falls into the second letter. -/
theorem not_refreshes : ¬∀ utts : List (List Char), Refreshes utts := by
  intro h
  obtain ⟨prompt, hprompt, -⟩ := (h [List.replicate 3001 'é']).exists_prompt
  have htext : titleText [List.replicate 3001 'é'] = List.replicate 3001 'é' ++ ['\n'] := by
    rw [titleText, List.map_singleton, trim_replicate, joined_singleton]
  have hlength : (bytes (titleText [List.replicate 3001 'é'])).length = 6003 := by
    rw [htext, bytes_append, List.length_append, length_bytes_replicate]
    rfl
  have hinside : splitAt 3 (titleText [List.replicate 3001 'é']) = none := by
    rw [htext]
    rfl
  rw [titlePrompt, List.isEmpty_cons, if_neg Bool.false_ne_true] at hprompt
  dsimp only at hprompt
  rw [hlength, if_pos (by decide), show 6003 - maxChars = 3 from rfl, hinside] at hprompt
  cases hprompt

end ScribeLocal.Pipeline
