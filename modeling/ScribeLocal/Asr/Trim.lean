import Mathlib.Data.List.TakeWhile
import Mathlib.Tactic
import ScribeLocal.Asr.Words

/-!
# White space around a text
-/
namespace ScribeLocal.Asr

variable {cs : List Char} {c : Char}

theorem trimStart_append {before : List Char} (h : ∀ c ∈ before, isWhitespace c = true) :
    trimStart (before ++ cs) = trimStart cs :=
  List.dropWhile_append_of_pos h

theorem trimStart_eq (h : ∀ c ∈ cs.head?, isWhitespace c = false) : trimStart cs = cs := by
  cases cs with
  | nil => rfl
  | cons c cs => rw [trimStart, List.dropWhile_cons_of_neg (by simp [h c rfl])]

/-- White space goes from both sides. -/
theorem trim_append {before after : List Char} (hbefore : ∀ c ∈ before, isWhitespace c = true)
    (hafter : ∀ c ∈ after, isWhitespace c = true) (hhead : ∀ c ∈ cs.head?, isWhitespace c = false)
    (hlast : ∀ c ∈ cs.getLast?, isWhitespace c = false) : trim (before ++ cs ++ after) = cs := by
  have hafter' : ∀ c ∈ after.reverse, isWhitespace c = true := by simpa using hafter
  rw [trim, List.append_assoc, trimStart_append hbefore]
  cases cs with
  | nil =>
    have hnil : trimStart ([] ++ after) = [] := by
      rw [List.nil_append, ← List.append_nil after, trimStart_append hafter]
      rfl
    rw [hnil]
    rfl
  | cons c cs =>
    have hstart : trimStart (c :: cs ++ after) = c :: cs ++ after :=
      trimStart_eq (by simpa using hhead)
    rw [hstart, List.reverse_append, trimStart_append hafter',
      trimStart_eq (by rwa [List.head?_reverse]), List.reverse_reverse]

theorem exists_trim (cs : List Char) : ∃ before after, (∀ c ∈ before, isWhitespace c = true) ∧
    (∀ c ∈ after, isWhitespace c = true) ∧ cs = before ++ trim cs ++ after := by
  have hsplit : (trimStart cs).reverse.takeWhile isWhitespace ++ trimStart (trimStart cs).reverse =
      (trimStart cs).reverse := List.takeWhile_append_dropWhile
  refine ⟨cs.takeWhile isWhitespace, ((trimStart cs).reverse.takeWhile isWhitespace).reverse,
    fun c hc => List.mem_takeWhile_imp hc,
    fun c hc => List.mem_takeWhile_imp (List.mem_reverse.mp hc), ?_⟩
  rw [List.append_assoc, trim, ← List.reverse_append, hsplit, List.reverse_reverse]
  exact List.takeWhile_append_dropWhile.symm

theorem mem_of_mem_trim (h : c ∈ trim cs) : c ∈ cs := by
  obtain ⟨before, after, -, -, heq⟩ := exists_trim cs
  rw [heq]
  exact List.mem_append_left _ (List.mem_append_right _ h)

/-- Only white space is trimmed to nothing. -/
theorem trim_eq_nil_iff : trim cs = [] ↔ ∀ c ∈ cs, isWhitespace c = true := by
  constructor
  · intro h
    obtain ⟨before, after, hbefore, hafter, heq⟩ := exists_trim cs
    rw [h, List.append_nil] at heq
    intro c hc
    rw [heq, List.mem_append] at hc
    exact hc.elim (hbefore c) (hafter c)
  · intro h
    have hnil := @trim_append [] cs [] h (by simp) (by simp) (by simp)
    simpa using hnil

end ScribeLocal.Asr
