import ScribeLocal.Asr.Trim

/-!
# Parts for condensing

`split_on_lines` of the summarize stage packs the lines of a text into parts that fit a
budget of characters.
-/
namespace ScribeLocal.Pipeline
open Asr (isWhitespace trim trim_eq_nil_iff)

/-! ## Lines -/

/-- `str::split_inclusive('\n')` -/
def splitInclusive : List Char → List (List Char)
  | [] => []
  | c :: text =>
    if c = '\n' then [c] :: splitInclusive text
    else match splitInclusive text with
      | [] => [[c]]
      | line :: lines => (c :: line) :: lines

def stripSuffix (c : Char) (line : List Char) : Option (List Char) :=
  if line.getLast? = some c then some line.dropLast else none

/-- A line ends in a newline, or in a carriage return and a newline. -/
def stripLineEnd (line : List Char) : List Char :=
  match stripSuffix '\n' line with
  | none => line
  | some line => (stripSuffix '\r' line).getD line

/-- `str::lines` -/
def lines (text : List Char) : List (List Char) := (splitInclusive text).map stripLineEnd

/-! ## Parts -/

/-- The variables of the loop. -/
structure Parts where
  parts : List (List Char)
  current : List Char

/-- The parts take over a `current` that has no room for the line. -/
def Parts.makeRoom (budget : ℕ) (s : Parts) (line : List Char) : Parts :=
  if s.current ≠ [] ∧ budget < s.current.length + (line.length + 1) then
    ⟨s.parts ++ [s.current], []⟩
  else s

def Parts.push (budget : ℕ) (s : Parts) (line : List Char) : Parts :=
  let s := s.makeRoom budget line
  { s with current := s.current ++ line ++ ['\n'] }

def splitOnLines (text : List Char) (budget : ℕ) : List (List Char) :=
  let s := (lines text).foldl (Parts.push budget) ⟨[], []⟩
  let parts := if (trim s.current).isEmpty then s.parts else s.parts ++ [s.current]
  if parts.isEmpty then [text] else parts

/-! ## What the parts should be -/

/-- The lines, each followed by a newline. -/
def joined (lines : List (List Char)) : List Char := lines.flatMap (· ++ ['\n'])

def BlankLine (line : List Char) : Prop := ∀ c ∈ line, isWhitespace c = true

/-- The parts hold the lines in order. A final run of blank lines may be missing, and a text
of blank lines may stand as it is. -/
def Covers (text : List Char) (parts : List (List Char)) : Prop :=
  (∃ kept dropped, lines text = kept ++ dropped ∧ (∀ line ∈ dropped, BlankLine line) ∧
    parts.flatten = joined kept) ∨
  ((∀ line ∈ lines text, BlankLine line) ∧ parts.flatten = text)

/-- At most `budget` characters, or a single line of the text that is itself over the budget: the
line with its newline, or the text as it stands. -/
def Fits (text : List Char) (budget : ℕ) (part : List Char) : Prop :=
  part.length ≤ budget ∨ ∃ line ∈ lines text, budget < line.length ∧
    (part = line ++ ['\n'] ∨ part = text ∧ lines text = [line])

structure Condensable (text : List Char) (budget : ℕ) (parts : List (List Char)) : Prop where
  ne_nil : parts ≠ []
  covers : Covers text parts
  fits : ∀ part ∈ parts, Fits text budget part

/-- Blank lines that have room in one part, or one blank line. -/
def KeptWhole (text : List Char) (budget : ℕ) : Prop :=
  (∀ line ∈ lines text, BlankLine line) ∧
    ((joined (lines text)).length ≤ budget ∨ (lines text).length ≤ 1)

/-- At most `budget` characters, or a single line. -/
def FitsOrLine (budget : ℕ) (part : List Char) : Prop :=
  part.length ≤ budget ∨ (lines part).length = 1

/-! ## Lines and newlines -/

variable {text line : List Char} {kept held ls : List (List Char)} {budget : ℕ} {s : Parts}

theorem splitInclusive_newline (h : '\n' ∉ line) :
    splitInclusive (line ++ ['\n']) = [line ++ ['\n']] := by
  induction line with
  | nil => rfl
  | cons c line ih =>
    rw [List.mem_cons, not_or] at h
    rw [List.cons_append, splitInclusive, if_neg (Ne.symm h.1), ih h.2]

/-- No newline but at the end. -/
theorem exists_of_mem_splitInclusive (h : line ∈ splitInclusive text) :
    ∃ body, '\n' ∉ body ∧ (line = body ∨ line = body ++ ['\n']) := by
  induction text generalizing line with
  | nil => simp [splitInclusive] at h
  | cons c text ih =>
    by_cases hc : c = '\n'
    · rw [splitInclusive, if_pos hc, List.mem_cons] at h
      cases h with
      | inl h => exact ⟨[], List.not_mem_nil, .inr (by rw [h, hc]; rfl)⟩
      | inr h => exact ih h
    · rw [splitInclusive, if_neg hc] at h
      cases hs : splitInclusive text with
      | nil =>
        rw [hs, List.mem_singleton] at h
        exact ⟨[c], by simpa using Ne.symm hc, .inl h⟩
      | cons first rest =>
        rw [hs] at h ih
        cases List.mem_cons.mp h with
        | inl h =>
          obtain ⟨body, hbody, heq⟩ := ih List.mem_cons_self
          have hnot : '\n' ∉ c :: body := by simpa [Ne.symm hc] using hbody
          exact ⟨c :: body, hnot, heq.imp (by simp [h, ·]) (by simp [h, ·])⟩
        | inr h => exact ih (List.mem_cons_of_mem _ h)

theorem mem_of_mem_stripSuffix {c d : Char} {short : List Char}
    (h : stripSuffix c line = some short) (hd : d ∈ short) : d ∈ line := by
  rw [stripSuffix] at h
  split at h
  · cases h
    exact List.mem_of_mem_dropLast hd
  · cases h

theorem stripSuffix_append (c : Char) (line : List Char) :
    stripSuffix c (line ++ [c]) = some line := by
  rw [stripSuffix, if_pos List.getLast?_concat, List.dropLast_concat]

theorem stripSuffix_eq_none {c : Char} (h : c ∉ line) : stripSuffix c line = none :=
  if_neg fun hlast => h (List.mem_of_getLast? hlast)

theorem newline_notMem (h : line ∈ lines text) : '\n' ∉ line := by
  obtain ⟨raw, hraw, rfl⟩ := List.mem_map.mp h
  obtain ⟨body, hbody, rfl | rfl⟩ := exists_of_mem_splitInclusive hraw
  · rwa [stripLineEnd, stripSuffix_eq_none hbody]
  · have hstrip : stripLineEnd (body ++ ['\n']) = (stripSuffix '\r' body).getD body := by
      rw [stripLineEnd, stripSuffix_append]
    rw [hstrip]
    cases hr : stripSuffix '\r' body with
    | none => exact hbody
    | some short => exact fun hn => hbody (mem_of_mem_stripSuffix hr hn)

theorem length_lines_newline (h : '\n' ∉ line) : (lines (line ++ ['\n'])).length = 1 := by
  rw [lines, splitInclusive_newline h]
  rfl

@[simp] theorem joined_nil : joined [] = [] := rfl

theorem joined_append : joined (kept ++ held) = joined kept ++ joined held := List.flatMap_append

theorem joined_singleton : joined [line] = line ++ ['\n'] := List.flatMap_singleton ..

theorem joined_eq_nil_iff : joined ls = [] ↔ ls = [] := by
  cases ls with
  | nil => simp
  | cons line ls => simp [joined]

theorem length_joined_singleton : (joined [line]).length = line.length + 1 := by
  rw [joined_singleton, List.length_append, List.length_singleton]

/-- Only blank lines are trimmed to nothing. -/
theorem trim_joined_eq_nil_iff : trim (joined ls) = [] ↔ ∀ line ∈ ls, BlankLine line := by
  rw [trim_eq_nil_iff]
  constructor
  · intro h line hline c hc
    exact h c (List.mem_flatMap.mpr ⟨line, hline, List.mem_append_left _ hc⟩)
  · intro h c hc
    obtain ⟨line, hline, hc⟩ := List.mem_flatMap.mp hc
    cases List.mem_append.mp hc with
    | inl hc => exact h line hline c hc
    | inr hc => rw [List.mem_singleton.mp hc]; rfl

/-! ## The loop -/

/-- The lines that have become parts, and those that `current` holds. A line of exactly `budget`
characters has no room beside another. -/
structure Packed (budget : ℕ) (kept held : List (List Char)) (s : Parts) : Prop where
  parts_eq : s.parts.flatten = joined kept
  current_eq : s.current = joined held
  fits_parts : ∀ part ∈ s.parts,
    part.length ≤ budget ∨ ∃ line ∈ kept, budget ≤ line.length ∧ part = joined [line]
  fits_current : (joined held).length ≤ budget ∨ held.length ≤ 1
  exact_parts : ∀ line ∈ kept, line.length = budget → joined [line] ∈ s.parts
  exact_current : ∀ line ∈ held, line.length = budget → held = [line]

namespace Packed

theorem start : Packed budget [] [] ⟨[], []⟩ where
  parts_eq := rfl
  current_eq := rfl
  fits_parts := nofun
  fits_current := .inr (Nat.zero_le _)
  exact_parts := nofun
  exact_current := nofun

/-- What `current` holds is itself a part that fits, or a line with no room for its newline. -/
theorem fits_joined (hs : Packed budget kept held s) (hheld : held ≠ []) :
    (joined held).length ≤ budget ∨
      ∃ line ∈ held, budget ≤ line.length ∧ joined held = joined [line] := by
  by_cases hle : (joined held).length ≤ budget
  · exact .inl hle
  · have hone := hs.fits_current.resolve_left hle
    have hpos := List.length_pos_iff.mpr hheld
    obtain ⟨line, rfl⟩ := List.length_eq_one_iff.mp (by omega : held.length = 1)
    rw [length_joined_singleton] at hle
    exact .inr ⟨line, List.mem_singleton_self line, by omega, rfl⟩

/-- The parts with `current` behind them. -/
theorem flushed (hs : Packed budget kept held s) (hheld : held ≠ []) :
    Packed budget (kept ++ held) [] ⟨s.parts ++ [s.current], []⟩ where
  parts_eq := by
    rw [List.flatten_append, List.flatten_singleton, hs.parts_eq, hs.current_eq, joined_append]
  current_eq := rfl
  fits_parts := by
    intro part hpart
    cases List.mem_append.mp hpart with
    | inl hpart =>
      exact (hs.fits_parts part hpart).imp_right fun ⟨line, hline, hlong⟩ =>
        ⟨line, List.mem_append_left _ hline, hlong⟩
    | inr hpart =>
      rw [List.mem_singleton.mp hpart, hs.current_eq]
      exact (hs.fits_joined hheld).imp_right fun ⟨line, hline, hlong⟩ =>
        ⟨line, List.mem_append_right _ hline, hlong⟩
  fits_current := .inr (Nat.zero_le _)
  exact_parts := by
    intro line hline hlen
    cases List.mem_append.mp hline with
    | inl hkept => exact List.mem_append_left _ (hs.exact_parts line hkept hlen)
    | inr hheld =>
      apply List.mem_append_right
      rw [hs.current_eq, hs.exact_current line hheld hlen]
      exact List.mem_singleton_self _
  exact_current := nofun

theorem append (hs : Packed budget kept held s)
    (hroom : held = [] ∨ (joined held).length + (line.length + 1) ≤ budget) :
    Packed budget kept (held ++ [line]) { s with current := s.current ++ line ++ ['\n'] } where
  parts_eq := hs.parts_eq
  current_eq := by
    rw [joined_append, joined_singleton, ← hs.current_eq, List.append_assoc]
  fits_parts := hs.fits_parts
  fits_current := by
    cases hroom with
    | inl hnil => exact .inr (by rw [hnil]; simp)
    | inr hle =>
      rw [joined_append, List.length_append, length_joined_singleton]
      exact .inl hle
  exact_parts := hs.exact_parts
  exact_current := by
    intro line' hline' hlen
    cases hroom with
    | inl hnil =>
      subst hnil
      rw [List.mem_singleton.mp hline']
      rfl
    | inr hle =>
      -- what has room beside the new line is shorter than the budget, and so is the line
      cases List.mem_append.mp hline' with
      | inl hheld =>
        rw [hs.exact_current line' hheld hlen, length_joined_singleton] at hle
        omega
      | inr hnew =>
        rw [List.mem_singleton.mp hnew] at hlen
        omega

theorem push (hs : Packed budget kept held s) (line : List Char) :
    ∃ kept' held', kept' ++ held' = kept ++ held ++ [line] ∧ held' ≠ [] ∧
      Packed budget kept' held' (s.push budget line) := by
  rw [Parts.push, Parts.makeRoom]
  by_cases hfull : s.current ≠ [] ∧ budget < s.current.length + (line.length + 1)
  · rw [if_pos hfull]
    have hheld : held ≠ [] := by
      rw [hs.current_eq, ne_eq, joined_eq_nil_iff] at hfull
      exact hfull.1
    exact ⟨kept ++ held, [line], rfl, List.cons_ne_nil _ _, (hs.flushed hheld).append (.inl rfl)⟩
  · rw [if_neg hfull]
    have hroom : held = [] ∨ (joined held).length + (line.length + 1) ≤ budget := by
      rw [hs.current_eq, ne_eq, joined_eq_nil_iff] at hfull
      by_cases hheld : held = []
      · exact .inl hheld
      · exact .inr (by grind)
    exact ⟨kept, held ++ [line], by rw [List.append_assoc], by simp, hs.append hroom⟩

theorem run (ls : List (List Char)) : ∃ kept held, kept ++ held = ls ∧
    (held = [] → (ls.foldl (Parts.push budget) ⟨[], []⟩).parts = []) ∧
    Packed budget kept held (ls.foldl (Parts.push budget) ⟨[], []⟩) := by
  induction ls using List.reverseRecOn with
  | nil => exact ⟨[], [], rfl, fun _ => rfl, start⟩
  | append_singleton ls line ih =>
    obtain ⟨kept, held, rfl, -, hs⟩ := ih
    obtain ⟨kept', held', heq, hne, hs'⟩ := hs.push line
    rw [List.foldl_concat]
    exact ⟨kept', held', heq, fun hnil => absurd hnil hne, hs'⟩

theorem kept_eq_nil (hs : Packed budget kept held s) (h : s.parts = []) : kept = [] := by
  have hparts := hs.parts_eq
  rw [h] at hparts
  exact joined_eq_nil_iff.mp hparts.symm

end Packed

/-- Nothing is flushed as long as everything has room. -/
theorem parts_foldl_push (hroom : s.current.length + (joined ls).length ≤ budget) :
    (ls.foldl (Parts.push budget) s).parts = s.parts := by
  induction ls generalizing s with
  | nil => rfl
  | cons line ls ih =>
    have hlen : (joined (line :: ls)).length = line.length + 1 + (joined ls).length := by
      rw [← List.singleton_append, joined_append, List.length_append, length_joined_singleton]
    have hstay : s.makeRoom budget line = s := if_neg (by omega)
    rw [List.foldl_cons, Parts.push, hstay, ih]
    simp only [List.length_append, List.length_singleton]
    omega

/-! ## The result -/

/-- A line is a part that fits exactly if it is over the budget, where its newline has no room. -/
theorem fits_joined_singleton_iff (h : line ∈ lines text) (hlong : budget ≤ line.length) :
    Fits text budget (joined [line]) ↔ line.length ≠ budget := by
  unfold Fits
  rw [length_joined_singleton, joined_singleton]
  constructor
  · rintro (hle | ⟨line', hline', hover, hsame | ⟨-, hall⟩⟩) hexact
    · omega
    · rw [List.append_cancel_right hsame] at hexact
      omega
    · rw [hall, List.mem_singleton] at h
      rw [h] at hexact
      omega
  · intro hne
    exact .inr ⟨line, h, by omega, .inl rfl⟩

/-- Once all lines are in parts, these fit if no line has exactly `budget` characters. -/
theorem Packed.fits_iff (hs : Packed budget kept held s) (hkept : ∀ line ∈ kept, line ∈ lines text) :
    (∀ part ∈ s.parts, Fits text budget part) ↔ ∀ line ∈ kept, line.length ≠ budget := by
  constructor
  · intro hfits line hline hexact
    have hpart := hfits _ (hs.exact_parts line hline hexact)
    exact (fits_joined_singleton_iff (hkept line hline) hexact.ge).mp hpart hexact
  · intro hne part hpart
    rcases hs.fits_parts part hpart with hle | ⟨line, hline, hlong, rfl⟩
    · exact .inl hle
    · exact (fits_joined_singleton_iff (hkept line hline) hlong).mpr (hne line hline)

theorem lines_eq_nil_iff : lines text = [] ↔ text = [] := by
  rw [lines, List.map_eq_nil_iff]
  cases text with
  | nil => simp [splitInclusive]
  | cons c text =>
    rw [splitInclusive]
    split
    · simp
    · split <;> simp

/-- The parts, and the last `current` unless it is blank. -/
theorem splitOnLines_cases (text : List Char) (budget : ℕ) :
    KeptWhole text budget ∧ splitOnLines text budget = [text] ∨
      ∃ kept held s, kept ++ held = lines text ∧ Packed budget kept held s ∧
        held ≠ [] ∧ ((∀ line ∈ held, BlankLine line) ∧ s.parts ≠ [] ∧
          splitOnLines text budget = s.parts ∨
        ¬(∀ line ∈ held, BlankLine line) ∧ splitOnLines text budget = s.parts ++ [s.current]) := by
  obtain ⟨kept, held, hlines, hlast, hs⟩ := @Packed.run budget (lines text)
  rw [splitOnLines]
  generalize (lines text).foldl (Parts.push budget) ⟨[], []⟩ = s at hs hlast
  by_cases hblank : ∀ line ∈ held, BlankLine line
  · have htrim : trim s.current = [] := by rwa [hs.current_eq, trim_joined_eq_nil_iff]
    simp only [htrim, List.isEmpty_nil, if_true]
    by_cases hparts : s.parts = []
    · have hheld : held = lines text := by rw [← hlines, hs.kept_eq_nil hparts, List.nil_append]
      have hroom := hs.fits_current
      rw [hheld] at hblank hroom
      exact .inl ⟨⟨hblank, hroom⟩, by rw [hparts]; rfl⟩
    · simp only [List.isEmpty_iff, hparts, if_false]
      exact .inr ⟨kept, held, s, hlines, hs, mt hlast hparts, .inl ⟨hblank, hparts, rfl⟩⟩
  · have htrim : trim s.current ≠ [] := by rwa [hs.current_eq, ne_eq, trim_joined_eq_nil_iff]
    have hheld : held ≠ [] := by
      rintro rfl
      exact hblank (by simp)
    simp only [List.isEmpty_iff, htrim, if_false, List.append_eq_nil_iff, List.cons_ne_nil,
      and_false]
    exact .inr ⟨kept, held, s, hlines, hs, hheld, .inr ⟨hblank, rfl⟩⟩

/-- Blank lines that have room in one part are not taken from the text. -/
theorem splitOnLines_of_keptWhole (h : KeptWhole text budget) :
    splitOnLines text budget = [text] := by
  obtain ⟨hblank, hroom⟩ := h
  have hparts : ((lines text).foldl (Parts.push budget) ⟨[], []⟩).parts = [] := by
    rcases hroom with hroom | hone
    · exact parts_foldl_push (by simpa using hroom)
    · match hlines : lines text with
      | [] => rfl
      | [line] => rfl
      | _ :: _ :: _ =>
        rw [hlines] at hone
        simp at hone
  obtain ⟨kept, held, hlines, -, hs⟩ := @Packed.run budget (lines text)
  have hheld : ∀ line ∈ held, BlankLine line := fun line hline =>
    hblank line (hlines ▸ List.mem_append_right _ hline)
  have htrim := trim_joined_eq_nil_iff.mpr hheld
  rw [← hs.current_eq] at htrim
  simp only [splitOnLines, htrim, hparts, List.isEmpty_nil, if_true]

theorem condensable_whole_iff (hblank : ∀ line ∈ lines text, BlankLine line) :
    Condensable text budget [text] ↔ Fits text budget text := by
  constructor
  · intro h
    exact h.fits text (List.mem_singleton_self text)
  · intro hfits
    exact ⟨List.cons_ne_nil _ _, .inr ⟨hblank, List.flatten_singleton⟩, by simpa using hfits⟩

/-- No line has exactly `budget` characters, but for a blank one at the end. -/
def NoneExact (text : List Char) (budget : ℕ) : Prop :=
  ∀ before line after, lines text = before ++ line :: after → line.length = budget →
    after = [] ∧ BlankLine line

/-- The last lines are in `current`. -/
theorem Packed.noneExact_iff (hs : Packed budget kept held s) (hlines : kept ++ held = lines text)
    (hheld : held ≠ []) (hblank : ∀ line ∈ held, BlankLine line) :
    NoneExact text budget ↔ ∀ line ∈ kept, line.length ≠ budget := by
  constructor
  · intro hnone line hline hexact
    obtain ⟨before, after, rfl⟩ := List.append_of_mem hline
    have hafter := (hnone before line (after ++ held) (by simp [← hlines]) hexact).1
    exact hheld (List.append_eq_nil_iff.mp hafter).2
  · intro hkept before line after hsplit hexact
    rw [← hlines, List.append_eq_append_iff] at hsplit
    rcases hsplit with ⟨between, -, rfl⟩ | ⟨between, rfl, hrest⟩
    · have hmem : line ∈ between ++ line :: after := by simp
      have honly := hs.exact_current line hmem hexact
      refine ⟨?_, hblank line hmem⟩
      cases between with
      | nil => exact (List.cons.inj honly).2
      | cons b bs => simp at honly
    · cases between with
      | nil =>
        have hmem : line ∈ held := by
          rw [List.nil_append] at hrest
          rw [← hrest]
          exact List.mem_cons_self
        have honly := hs.exact_current line hmem hexact
        rw [List.nil_append, honly] at hrest
        exact ⟨(List.cons.inj hrest).2, hblank line hmem⟩
      | cons b bs =>
        obtain ⟨rfl, -⟩ := List.cons.inj hrest
        exact absurd hexact (hkept line (by simp))

/-- The last line is not blank, or stands beside one that is not. -/
theorem Packed.noneExact_iff_of_not_blank (hs : Packed budget kept held s)
    (hlines : kept ++ held = lines text) (hblank : ¬∀ line ∈ held, BlankLine line) :
    NoneExact text budget ↔ ∀ line ∈ lines text, line.length ≠ budget := by
  constructor
  · intro hnone line hline hexact
    obtain ⟨before, after, hsplit⟩ := List.append_of_mem hline
    obtain ⟨rfl, hline⟩ := hnone before line after hsplit hexact
    have hlast : (kept ++ held).getLast? = some line := by
      rw [hlines, hsplit, List.getLast?_concat]
    have hmem : line ∈ held := by
      rw [List.getLast?_append] at hlast
      cases hheld : held.getLast? with
      | none =>
        rw [List.getLast?_eq_none_iff] at hheld
        simp [hheld] at hblank
      | some last =>
        rw [hheld, Option.some_or] at hlast
        rw [← Option.some.inj hlast]
        exact List.mem_of_getLast? hheld
    have honly := hs.exact_current line hmem hexact
    apply hblank
    rw [honly]
    simpa using hline
  · intro hne before line after hsplit hexact
    exact absurd hexact (hne line (by simp [hsplit]))

/-- The parts of a text are right if no line has exactly as many characters as the budget, but for a
blank one at the end; and those of a text that comes back as it is if the text fits. -/
theorem condensable_iff (text : List Char) (budget : ℕ) :
    Condensable text budget (splitOnLines text budget) ↔
      (KeptWhole text budget → Fits text budget text) ∧
        (¬KeptWhole text budget → NoneExact text budget) := by
  by_cases hwhole : KeptWhole text budget
  · rw [splitOnLines_of_keptWhole hwhole, condensable_whole_iff hwhole.1]
    simp [hwhole]
  · rcases splitOnLines_cases text budget with ⟨h, -⟩ | ⟨kept, held, s, hlines, hs, hheld, hparts⟩
    · exact absurd h hwhole
    · have hkept : ∀ line ∈ kept, line ∈ lines text := fun line hline =>
        hlines ▸ List.mem_append_left _ hline
      simp only [hwhole, false_implies, not_false_eq_true, true_implies, true_and]
      rcases hparts with ⟨hblank, hne, heq⟩ | ⟨hblank, heq⟩
      · rw [heq, hs.noneExact_iff hlines hheld hblank, ← hs.fits_iff hkept]
        exact ⟨Condensable.fits, fun hfits =>
          ⟨hne, .inl ⟨kept, held, hlines.symm, hblank, hs.parts_eq⟩, hfits⟩⟩
      · have hflushed := hs.flushed hheld
        rw [hlines] at hflushed
        rw [heq, hs.noneExact_iff_of_not_blank hlines hblank,
          ← hflushed.fits_iff fun line hline => hline]
        exact ⟨Condensable.fits, fun hfits =>
          ⟨by simp, .inl ⟨lines text, [], (List.append_nil _).symm, nofun, hflushed.parts_eq⟩,
            hfits⟩⟩

/-- A line of two characters for a budget of two: three characters with its newline. -/
theorem not_condensable :
    ¬∀ (text : List Char) (budget : ℕ), 1 ≤ budget →
      Condensable text budget (splitOnLines text budget) := by
  intro h
  have hnone := ((condensable_iff ['a', 'b'] 2).mp (h ['a', 'b'] 2 (by decide))).2
  have hwhole : ¬KeptWhole ['a', 'b'] 2 := fun hwhole =>
    absurd (hwhole.1 ['a', 'b'] List.mem_cons_self 'a' List.mem_cons_self) (by decide)
  exact absurd (hnone hwhole [] ['a', 'b'] [] rfl rfl).2 fun hblank =>
    absurd (hblank 'a' List.mem_cons_self) (by decide)

/-! ## Requests -/

theorem splitOnLines_ne_nil (text : List Char) (budget : ℕ) : splitOnLines text budget ≠ [] := by
  rcases splitOnLines_cases text budget with
    ⟨-, heq⟩ | ⟨-, -, s, -, -, -, ⟨-, hne, heq⟩ | ⟨-, heq⟩⟩
  · simp [heq]
  · rwa [heq]
  · simp [heq]

/-- The parts of a text that says something fit, or are single lines. -/
theorem fitsOrLine_of_mem (hsaid : ∃ line ∈ lines text, ¬BlankLine line) {part : List Char}
    (h : part ∈ splitOnLines text budget) : FitsOrLine budget part := by
  have hpacked {kept held : List (List Char)} {s : Parts} (hs : Packed budget kept held s)
      (hkept : ∀ line ∈ kept, line ∈ lines text) (hpart : part ∈ s.parts) :
      FitsOrLine budget part := by
    rcases hs.fits_parts part hpart with hle | ⟨line, hline, -, rfl⟩
    · exact .inl hle
    · rw [joined_singleton]
      exact .inr (length_lines_newline (newline_notMem (hkept line hline)))
  rcases splitOnLines_cases text budget with
    ⟨⟨hblank, -⟩, -⟩ | ⟨kept, held, s, hlines, hs, hheld, ⟨-, -, heq⟩ | ⟨-, heq⟩⟩
  · obtain ⟨line, hline, hnot⟩ := hsaid
    exact absurd (hblank line hline) hnot
  · rw [heq] at h
    exact hpacked hs (fun line hline => hlines ▸ List.mem_append_left _ hline) h
  · rw [heq] at h
    exact hpacked (hs.flushed hheld) (fun line hline => hlines ▸ hline) h

end ScribeLocal.Pipeline
