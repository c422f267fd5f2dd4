import Mathlib.Tactic

/-!
# Text as UTF-8

The bytes of a text, offsets into them, and slices, which fail inside a character.
-/
namespace ScribeLocal.Utf8

def bytes (s : List Char) : List UInt8 := s.flatMap String.utf8EncodeChar

/-- One byte at a time, `b as char`. -/
def latin (s : List Char) : List Char := (bytes s).map fun b => Char.ofNat b.toNat

/-- The offset of the first `c`. -/
def find (c : Char) : List Char → Option ℕ
  | [] => none
  | d :: s => if d = c then some 0 else (find c s).map (d.utf8Size + ·)

/-- What lies before the offset and what lies behind it, when the offset is the boundary of
a character. -/
def splitAt : ℕ → List Char → Option (List Char × List Char)
  | 0, s => some ([], s)
  | _ + 1, [] => none
  | n + 1, c :: s =>
    if c.utf8Size ≤ n + 1 then (splitAt (n + 1 - c.utf8Size) s).map fun p => (c :: p.1, p.2)
    else none

/-- `&s[start..stop]` -/
def slice (s : List Char) (start stop : ℕ) : Option (List Char) :=
  if stop < start then none
  else (splitAt start s).bind fun p => (splitAt (stop - start) p.2).map Prod.fst

variable {s t : List Char} {c : Char}

@[simp] theorem bytes_nil : bytes [] = [] := rfl

@[simp] theorem bytes_append : bytes (s ++ t) = bytes s ++ bytes t := List.flatMap_append

theorem bytes_cons : bytes (c :: s) = String.utf8EncodeChar c ++ bytes s := List.flatMap_cons ..

theorem length_bytes_cons : (bytes (c :: s)).length = c.utf8Size + (bytes s).length := by
  rw [bytes_cons, List.length_append, String.length_utf8EncodeChar]

@[simp] theorem length_latin : (latin s).length = (bytes s).length := List.length_map _

theorem latin_append : latin (s ++ t) = latin s ++ latin t := by
  rw [latin, bytes_append, List.map_append]
  rfl

/-! ## Single characters -/

theorem latin_of_ascii (h : c.toNat < 128) : latin [c] = [c] := by
  have hval : c.val.toNat ≤ 127 := Nat.le_of_lt_succ h
  have hbyte : (UInt8.ofNat c.val.toNat).toNat = c.toNat := by
    rw [UInt8.toNat_ofNat']
    exact Nat.mod_eq_of_lt (by omega)
  rw [latin, bytes_cons, String.utf8EncodeChar, if_pos hval]
  simp only [bytes_nil, List.append_nil, List.map_cons, List.map_nil, hbyte, Char.ofNat_toNat]

theorem utf8Size_of_ascii (h : c.toNat < 128) : c.utf8Size = 1 := by
  have hval : c.val ≤ 127 := Nat.le_of_lt_succ h
  exact if_pos hval

theorem toNat_ofNat {n : ℕ} (h : n.isValidChar) : (Char.ofNat n).toNat = n := by
  rw [Char.ofNat, dif_pos h]
  rfl

/-- Every byte of another character lies outside ASCII. -/
theorem le_of_mem_latin (h : 128 ≤ c.toNat) {d : Char} (hd : d ∈ latin [c]) : 128 ≤ d.toNat := by
  obtain ⟨b, hb, rfl⟩ := List.mem_map.mp hd
  have hsmall : b.toNat < 256 := b.toNat_lt
  have hvalid : (b.toNat).isValidChar := .inl (by omega)
  rw [toNat_ofNat hvalid]
  have hval : ¬c.val.toNat ≤ 127 := Nat.not_le_of_lt h
  rw [bytes_cons, bytes_nil, List.append_nil, String.utf8EncodeChar] at hb
  simp only [hval, if_false] at hb
  split at hb <;> (try split at hb) <;>
    simp only [List.mem_cons, List.not_mem_nil, or_false] at hb <;>
    rcases hb with rfl | rfl | rfl | rfl <;>
    rw [UInt8.toNat_ofNat'] <;> omega

theorem latin_ne_nil (c : Char) : latin [c] ≠ [] := by
  rw [latin, bytes_cons, bytes_nil, List.append_nil, ne_eq, List.map_eq_nil_iff]
  exact String.utf8EncodeChar_ne_nil

/-! ## Offsets -/

theorem splitAt_bytes (s t : List Char) : splitAt (bytes s).length (s ++ t) = some (s, t) := by
  induction s with
  | nil => cases t <;> rfl
  | cons c s ih =>
    have hpos := c.utf8Size_pos
    rw [length_bytes_cons, List.cons_append]
    obtain ⟨n, hn⟩ : ∃ n, c.utf8Size + (bytes s).length = n + 1 :=
      ⟨c.utf8Size + (bytes s).length - 1, by omega⟩
    rw [hn, splitAt, if_pos (by omega), ← hn, Nat.add_sub_cancel_left, ih]
    rfl

/-- A text is split only where one character ends and the next begins. -/
theorem splitAt_eq_some_iff {n : ℕ} {p : List Char × List Char} :
    splitAt n s = some p ↔ s = p.1 ++ p.2 ∧ (bytes p.1).length = n := by
  constructor
  · intro h
    induction s generalizing n p with
    | nil =>
      cases n with
      | zero =>
        cases h
        exact ⟨rfl, rfl⟩
      | succ n => cases h
    | cons c s ih =>
      cases n with
      | zero =>
        cases h
        exact ⟨rfl, rfl⟩
      | succ n =>
        rw [splitAt] at h
        split at h
        case isTrue hle =>
          obtain ⟨q, hq, rfl⟩ := Option.map_eq_some_iff.mp h
          obtain ⟨hs, hn⟩ := ih hq
          exact ⟨congrArg (c :: ·) hs, by rw [length_bytes_cons, hn]; omega⟩
        case isFalse => cases h
  · rintro ⟨rfl, rfl⟩
    exact splitAt_bytes p.1 p.2

/-- A slice between two boundaries is the text between them. -/
theorem slice_bytes (s t u : List Char) :
    slice (s ++ t ++ u) (bytes s).length ((bytes s).length + (bytes t).length) = some t := by
  rw [slice, if_neg (by omega), List.append_assoc, splitAt_bytes, Option.bind_some,
    Nat.add_sub_cancel_left, splitAt_bytes]
  rfl

theorem find_append (h : c ∉ s) (t : List Char) : find c (s ++ c :: t) = some (bytes s).length := by
  induction s with
  | nil => exact if_pos rfl
  | cons d s ih =>
    rw [List.mem_cons, not_or] at h
    rw [List.cons_append, find, if_neg (Ne.symm h.1), ih h.2, length_bytes_cons]
    rfl

theorem find_eq_none (h : c ∉ s) : find c s = none := by
  induction s with
  | nil => rfl
  | cons d s ih =>
    rw [List.mem_cons, not_or] at h
    rw [find, if_neg (Ne.symm h.1), ih h.2]
    rfl

theorem drop_latin (s t : List Char) : (latin (s ++ t)).drop (bytes s).length = latin t := by
  rw [latin_append, ← length_latin, List.drop_left]

end ScribeLocal.Utf8
