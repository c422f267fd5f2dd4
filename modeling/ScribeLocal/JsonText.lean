import Mathlib.Tactic

/-!
# Serializations of JSON values

The grammar, with white space wherever it is allowed.
-/
namespace ScribeLocal.JsonText

def Blank (s : List Char) : Prop := ∀ c ∈ s, c = ' ' ∨ c = '\t' ∨ c = '\n' ∨ c = '\r'

def Digits (s : List Char) : Prop := s ≠ [] ∧ ∀ c ∈ s, '0' ≤ c ∧ c ≤ '9'

/-- No leading zeros, digits on both sides of the point, and digits in the exponent. -/
inductive Number : List Char → Prop
  | mk {sign int frac exp : List Char} :
    sign = [] ∨ sign = ['-'] →
    int = ['0'] ∨ Digits int ∧ int.head? ≠ some '0' →
    (frac = [] ∨ ∃ ds, Digits ds ∧ frac = '.' :: ds) →
    (exp = [] ∨ ∃ e sign ds, (e = 'e' ∨ e = 'E') ∧ (sign = [] ∨ sign = ['+'] ∨ sign = ['-']) ∧
      Digits ds ∧ exp = e :: sign ++ ds) →
    Number (sign ++ int ++ frac ++ exp)

def HexDigit (c : Char) : Prop := '0' ≤ c ∧ c ≤ '9' ∨ 'a' ≤ c ∧ c ≤ 'f' ∨ 'A' ≤ c ∧ c ≤ 'F'

instance (c : Char) : Decidable (HexDigit c) := inferInstanceAs (Decidable (_ ∨ _))

/-- What stands between the quotes of a string. -/
inductive Contents : List Char → Prop
  | nil : Contents []
  | char {c : Char} {s : List Char} :
    c ≠ '"' → c ≠ '\\' → ' ' ≤ c → Contents s → Contents (c :: s)
  | escape {c : Char} {s : List Char} :
    c ∈ ['"', '\\', '/', 'b', 'f', 'n', 'r', 't'] → Contents s → Contents ('\\' :: c :: s)
  | unicode {c₁ c₂ c₃ c₄ : Char} {s : List Char} :
    HexDigit c₁ → HexDigit c₂ → HexDigit c₃ → HexDigit c₄ → Contents s →
    Contents ('\\' :: 'u' :: c₁ :: c₂ :: c₃ :: c₄ :: s)

inductive Quoted : List Char → Prop
  | mk {s : List Char} : Contents s → Quoted ('"' :: s ++ ['"'])

inductive Symbol
  | value
  | array
  | object
  | elements
  | members

/-- The texts of each symbol of the grammar. -/
inductive Text : Symbol → List Char → Prop
  | null : Text .value "null".toList
  | false : Text .value "false".toList
  | true : Text .value "true".toList
  | number {s : List Char} : Number s → Text .value s
  | string {s : List Char} : Quoted s → Text .value s
  | arrayValue {s : List Char} : Text .array s → Text .value s
  | objectValue {s : List Char} : Text .object s → Text .value s
  | emptyArray {b : List Char} : Blank b → Text .array ('[' :: b ++ [']'])
  | array {s : List Char} : Text .elements s → Text .array ('[' :: s ++ [']'])
  | emptyObject {b : List Char} : Blank b → Text .object ('\x7b' :: b ++ ['\x7d'])
  | object {s : List Char} : Text .members s → Text .object ('\x7b' :: s ++ ['\x7d'])
  | element {b v b' : List Char} :
    Blank b → Text .value v → Blank b' → Text .elements (b ++ v ++ b')
  | elements {s t : List Char} :
    Text .elements s → Text .elements t → Text .elements (s ++ ',' :: t)
  | member {b₁ name b₂ b₃ v b₄ : List Char} :
    Blank b₁ → Quoted name → Blank b₂ → Blank b₃ → Text .value v → Blank b₄ →
    Text .members (b₁ ++ name ++ b₂ ++ ':' :: b₃ ++ v ++ b₄)
  | members {s t : List Char} :
    Text .members s → Text .members t → Text .members (s ++ ',' :: t)

/-! ## Characters that bracket nothing -/

/-- Neither a quote nor a bracket. -/
def Plain (c : Char) : Prop := c ≠ '"' ∧ c ≠ '[' ∧ c ≠ ']' ∧ c ≠ '\x7b' ∧ c ≠ '\x7d'

instance (c : Char) : Decidable (Plain c) := inferInstanceAs (Decidable (_ ∧ _))

variable {s : List Char}

theorem Blank.plain (h : Blank s) : ∀ c ∈ s, Plain c := by
  intro c hc
  rcases h c hc with rfl | rfl | rfl | rfl <;> decide

theorem Digits.plain (h : Digits s) : ∀ c ∈ s, Plain c := by
  intro c hc
  obtain ⟨hlow, hhigh⟩ := h.2 c hc
  refine ⟨?_, ?_, ?_, ?_, ?_⟩
  · rintro rfl
    exact absurd hlow (by decide)
  all_goals
    rintro rfl
    exact absurd hhigh (by decide)

theorem Number.plain (h : Number s) : ∀ c ∈ s, Plain c := by
  cases h with
  | mk hsign hint hfrac hexp =>
    simp only [List.forall_mem_append]
    refine ⟨⟨⟨?_, ?_⟩, ?_⟩, ?_⟩
    · rcases hsign with rfl | rfl <;> simp [Plain]
    · rcases hint with rfl | ⟨hdigits, -⟩
      · simp [Plain]
      · exact hdigits.plain
    · rcases hfrac with rfl | ⟨ds, hdigits, rfl⟩
      · exact nofun
      · exact List.forall_mem_cons.mpr ⟨by decide, hdigits.plain⟩
    · rcases hexp with rfl | ⟨e, sign, ds, he, hsign, hdigits, rfl⟩
      · exact nofun
      · simp only [List.forall_mem_append, List.forall_mem_cons]
        refine ⟨⟨?_, ?_⟩, hdigits.plain⟩
        · rcases he with rfl | rfl <;> decide
        · rcases hsign with rfl | rfl | rfl <;> simp [Plain]

end ScribeLocal.JsonText
