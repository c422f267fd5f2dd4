import ScribeLocal.Pipeline.SplitLines

/-!
# Texts within a text

A text that starts and ends at line breaks of a longer one has its lines among the lines of
the longer one, also after white space is trimmed around that.
-/
namespace ScribeLocal.Pipeline
open Asr (isWhitespace trim trimStart trim_append exists_trim)

variable {m text line a b : List Char}

/-- The line is one of the text's, and not blank. -/
def Said (text line : List Char) : Prop := line ∈ lines text ∧ ¬ BlankLine line

/-- `m` is part of the text, with line breaks around it. -/
def OwnLines (m text : List Char) : Prop :=
  ∃ b a, text = b ++ m ++ a ∧ (∀ c ∈ b.getLast?, c = '\n') ∧ (∀ c ∈ a.head?, c = '\n')

/-- Something other than white space at both ends. -/
structure Tidy (m : List Char) : Prop where
  ne_nil : m ≠ []
  head : ∀ c ∈ m.head?, isWhitespace c = false
  last : ∀ c ∈ m.getLast?, isWhitespace c = false

/-! ## Lines -/

theorem splitInclusive_append_newline (a b : List Char) :
    splitInclusive (a ++ '\n' :: b) = splitInclusive (a ++ ['\n']) ++ splitInclusive b := by
  induction a with
  | nil => simp [splitInclusive]
  | cons c a ih =>
    by_cases hc : c = '\n'
    · simp only [List.cons_append, splitInclusive, if_pos hc, ih]
    · simp only [List.cons_append, splitInclusive, if_neg hc, ih]
      have hne : splitInclusive (a ++ ['\n']) ≠ [] := by
        intro hnil
        have hlines : lines (a ++ ['\n']) = [] := by rw [lines, hnil, List.map_nil]
        exact absurd (lines_eq_nil_iff.mp hlines) (by simp)
      cases hs : splitInclusive (a ++ ['\n']) with
      | nil => exact absurd hs hne
      | cons line ls => rfl

theorem lines_append_newline (a b : List Char) :
    lines (a ++ '\n' :: b) = lines (a ++ ['\n']) ++ lines b := by
  rw [lines, splitInclusive_append_newline, List.map_append]
  rfl

theorem flatten_splitInclusive (text : List Char) : (splitInclusive text).flatten = text := by
  induction text with
  | nil => rfl
  | cons c text ih =>
    rw [splitInclusive]
    split
    · rw [List.flatten_cons, ih, List.singleton_append]
    · cases hs : splitInclusive text with
      | nil =>
        rw [hs] at ih
        rw [← ih]
        rfl
      | cons line ls =>
        rw [hs] at ih
        rw [← ih]
        rfl

theorem isPrefix_of_stripSuffix {c : Char} {short : List Char} (h : stripSuffix c line = some short) :
    short <+: line := by
  rw [stripSuffix] at h
  split at h
  · cases h
    exact List.dropLast_prefix line
  · cases h

theorem isPrefix_getD_strip {c : Char} : (stripSuffix c line).getD line <+: line := by
  cases h : stripSuffix c line with
  | none => exact List.prefix_refl line
  | some short => exact isPrefix_of_stripSuffix h

theorem isPrefix_stripLineEnd (line : List Char) : stripLineEnd line <+: line := by
  unfold stripLineEnd
  split
  · exact List.prefix_refl line
  · next hn => exact isPrefix_getD_strip.trans (isPrefix_of_stripSuffix hn)

/-- A line stands in its text as it is. -/
theorem infix_of_mem_lines (h : line ∈ lines text) : line <:+: text := by
  obtain ⟨raw, hraw, rfl⟩ := List.mem_map.mp h
  have hinfix := List.infix_of_mem_flatten hraw
  rw [flatten_splitInclusive] at hinfix
  exact (isPrefix_stripLineEnd raw).isInfix.trans hinfix

/-- A newline behind a text that does not end in one ends its last line. -/
theorem exists_splitInclusive_newline (hne : m ≠ []) (hlast : ∀ c ∈ m.getLast?, c ≠ '\n') :
    ∃ ls last, splitInclusive m = ls ++ [last] ∧ splitInclusive (m ++ ['\n']) = ls ++ [last ++ ['\n']] ∧
      last.getLast? = m.getLast? := by
  induction m with
  | nil => exact absurd rfl hne
  | cons c m ih =>
    cases m with
    | nil =>
      have hc : c ≠ '\n' := hlast c rfl
      exact ⟨[], [c], by simp [splitInclusive, hc], by simp [splitInclusive, hc], rfl⟩
    | cons d m =>
      have hlast' : ∀ x ∈ (d :: m).getLast?, x ≠ '\n' := fun x hx => hlast x (by simpa using hx)
      obtain ⟨ls, last, hs, hs', heq⟩ := ih (List.cons_ne_nil d m) hlast'
      by_cases hc : c = '\n'
      · refine ⟨[c] :: ls, last, ?_, ?_, ?_⟩
        · rw [splitInclusive, if_pos hc, hs, List.cons_append]
        · rw [List.cons_append, splitInclusive, if_pos hc, hs', List.cons_append]
        · rw [heq, List.getLast?_cons_cons]
      · cases ls with
        | nil =>
          refine ⟨[], c :: last, ?_, ?_, ?_⟩
          · rw [splitInclusive, if_neg hc, hs]
            rfl
          · rw [List.cons_append, splitInclusive, if_neg hc, hs']
            rfl
          · rw [List.getLast?_cons_cons, ← heq]
            cases last with
            | nil => exact absurd heq.symm (by simp)
            | cons x last => exact List.getLast?_cons_cons
        | cons first ls =>
          refine ⟨(c :: first) :: ls, last, ?_, ?_, ?_⟩
          · rw [splitInclusive, if_neg hc, hs]
            rfl
          · rw [List.cons_append, splitInclusive, if_neg hc, hs']
            rfl
          · rw [heq, List.getLast?_cons_cons]

theorem stripSuffix_of_last {c : Char} (h : ∀ d ∈ line.getLast?, d ≠ c) :
    stripSuffix c line = none :=
  if_neg fun hlast => h c hlast rfl

theorem Tidy.last_ne (hm : Tidy m) {c : Char} (hc : isWhitespace c = true) :
    ∀ d ∈ m.getLast?, d ≠ c := by
  intro d hd heq
  have hfalse := hm.last d hd
  rw [heq, hc] at hfalse
  cases hfalse

theorem Tidy.lines_newline (hm : Tidy m) : lines (m ++ ['\n']) = lines m := by
  obtain ⟨ls, last, hs, hs', heq⟩ := exists_splitInclusive_newline hm.ne_nil (hm.last_ne rfl)
  have hr : stripSuffix '\r' last = none :=
    stripSuffix_of_last (heq ▸ hm.last_ne rfl)
  have hn : stripSuffix '\n' last = none :=
    stripSuffix_of_last (heq ▸ hm.last_ne rfl)
  have hend : stripLineEnd (last ++ ['\n']) = stripLineEnd last := by
    simp only [stripLineEnd, stripSuffix_append, hn, hr, Option.getD_none]
  rw [lines, lines, hs, hs', List.map_append, List.map_append, List.map_singleton,
    List.map_singleton, hend]

theorem eq_nil_or_concat_newline (h : ∀ c ∈ b.getLast?, c = '\n') : b = [] ∨ ∃ b', b = b' ++ ['\n'] := by
  rcases List.eq_nil_or_concat b with rfl | ⟨b', c, rfl⟩
  · exact .inl rfl
  · have hc : c = '\n' := h c (by simp)
    exact .inr ⟨b', by rw [List.concat_eq_append, hc]⟩

theorem OwnLines.mem_lines (h : OwnLines m text) (hm : Tidy m) (hline : line ∈ lines m) :
    line ∈ lines text := by
  obtain ⟨b, a, rfl, hb, ha⟩ := h
  have hend : line ∈ lines (m ++ a) := by
    cases a with
    | nil => rwa [List.append_nil]
    | cons c a =>
      rw [ha c rfl, lines_append_newline, hm.lines_newline]
      exact List.mem_append_left _ hline
  obtain rfl | ⟨b, rfl⟩ := eq_nil_or_concat_newline hb
  · exact hend
  · rw [List.append_assoc, List.append_assoc, List.singleton_append, lines_append_newline]
    exact List.mem_append_right _ hend

theorem mem_stripSuffix {c d : Char} {short : List Char} (h : stripSuffix c line = some short)
    (hne : d ≠ c) (hd : d ∈ line) : d ∈ short := by
  rw [stripSuffix] at h
  split at h
  · next hlast =>
    cases h
    rw [← List.dropLast_append_getLast? c hlast, List.mem_append] at hd
    exact hd.resolve_right fun heq => hne (List.mem_singleton.mp heq)
  · cases h

theorem mem_stripLineEnd {d : Char} (hd : d ∈ line) (hblank : isWhitespace d = false) :
    d ∈ stripLineEnd line := by
  have hne : ∀ c, isWhitespace c = true → d ≠ c := by
    rintro c hc rfl
    rw [hblank] at hc
    cases hc
  unfold stripLineEnd
  split
  · exact hd
  · next short hn =>
    have hshort := mem_stripSuffix hn (hne _ rfl) hd
    cases hr : stripSuffix '\r' short with
    | none => exact hshort
    | some shorter => exact mem_stripSuffix hr (hne _ rfl) hshort

theorem exists_said {c : Char} (hmem : c ∈ text) (hc : isWhitespace c = false) :
    ∃ line, Said text line := by
  rw [← flatten_splitInclusive text] at hmem
  obtain ⟨raw, hraw, hin⟩ := List.mem_flatten.mp hmem
  refine ⟨stripLineEnd raw, List.mem_map_of_mem hraw, fun hblank => ?_⟩
  have htrue := hblank c (mem_stripLineEnd hin hc)
  rw [hc] at htrue
  cases htrue

/-- A text that is not white space says something. -/
theorem Tidy.exists_said (hm : Tidy m) : ∃ line, Said m line := by
  cases m with
  | nil => exact absurd rfl hm.ne_nil
  | cons c m => exact Pipeline.exists_said List.mem_cons_self (hm.head c rfl)

/-! ## Trimming -/

theorem head_trimStart (text : List Char) :
    ∀ c ∈ (trimStart text).head?, isWhitespace c = false := by
  intro c hc
  have h := List.head?_dropWhile_not isWhitespace text
  rw [show text.dropWhile isWhitespace = trimStart text from rfl, Option.mem_def.mp hc] at h
  simpa using h

theorem trimStart_suffix (text : List Char) : trimStart text <:+ text := List.dropWhile_suffix _

theorem tidy_trim (h : trim text ≠ []) : Tidy (trim text) where
  ne_nil := h
  head := by
    intro c hc
    apply head_trimStart text c
    obtain ⟨gone, hgone⟩ := trimStart_suffix (trimStart text).reverse
    have hne : trimStart (trimStart text).reverse ≠ [] := fun hnil => h (by rw [trim, hnil]; rfl)
    rw [trim, List.head?_reverse] at hc
    rw [← List.getLast?_reverse, ← hgone, List.getLast?_append_of_ne_nil _ hne]
    exact hc
  last := by
    intro c hc
    rw [trim, List.getLast?_reverse] at hc
    exact head_trimStart _ c hc

theorem exists_trimStart (text : List Char) :
    ∃ gone, (∀ c ∈ gone, isWhitespace c = true) ∧ text = gone ++ trimStart text :=
  ⟨text.takeWhile isWhitespace, fun _ hc => List.mem_takeWhile_imp hc,
    List.takeWhile_append_dropWhile.symm⟩

/-- Trimming takes nothing from the text that stands in lines of its own. -/
theorem OwnLines.trim (h : OwnLines m text) (hm : Tidy m) : OwnLines m (Asr.trim text) := by
  obtain ⟨b, a, rfl, hb, ha⟩ := h
  obtain ⟨front, hfront, hbeq⟩ := exists_trimStart b
  obtain ⟨back, hback, haeq⟩ := exists_trimStart a.reverse
  have ha' : a = (trimStart a.reverse).reverse ++ back.reverse := by
    rw [← List.reverse_append, ← haeq, List.reverse_reverse]
  have heq : Asr.trim (b ++ m ++ a) = trimStart b ++ m ++ (trimStart a.reverse).reverse := by
    have hwhole : b ++ m ++ a =
        front ++ (trimStart b ++ m ++ (trimStart a.reverse).reverse) ++ back.reverse := by
      conv_lhs => rw [hbeq, ha']
      simp only [List.append_assoc]
    rw [hwhole]
    apply trim_append hfront (by simpa using hback)
    · intro c hc
      rw [List.append_assoc, List.head?_append] at hc
      cases hs : (trimStart b).head? with
      | some d =>
        rw [hs] at hc
        cases hc
        exact head_trimStart b c hs
      | none =>
        rw [hs, List.head?_append_of_ne_nil _ hm.ne_nil] at hc
        exact hm.head c hc
    · intro c hc
      rw [List.getLast?_append, List.getLast?_reverse] at hc
      cases hs : (trimStart a.reverse).head? with
      | some d =>
        rw [hs] at hc
        cases hc
        exact head_trimStart _ c hs
      | none =>
        rw [hs, List.getLast?_append_of_ne_nil _ hm.ne_nil] at hc
        exact hm.last c hc
  refine ⟨trimStart b, (trimStart a.reverse).reverse, heq, ?_, ?_⟩
  · intro c hc
    apply hb c
    by_cases hnil : trimStart b = []
    · rw [hnil] at hc
      cases hc
    · rw [hbeq, List.getLast?_append_of_ne_nil _ hnil]
      exact hc
  · intro c hc
    apply ha c
    by_cases hnil : (trimStart a.reverse).reverse = []
    · rw [hnil] at hc
      cases hc
    · rw [ha', List.head?_append_of_ne_nil _ hnil]
      exact hc

end ScribeLocal.Pipeline
