import ScribeLocal.JsonText
import ScribeLocal.Utf8

/-!
# The JSON in a reply

`first_json_array` of the merge stage and `first_json_object` of the summarize stage: one
pass over the bytes from the first opening bracket on, to the bracket that closes it.
-/
namespace ScribeLocal.Pipeline
open JsonText Utf8

/-- The variables of the loop. The depth is an `i32`, which takes two gigabytes of brackets to leave
its range. -/
structure Scan where
  depth : ℤ
  inStr : Bool
  escape : Bool

/-- One byte inside a string. -/
def Scan.inside (st : Scan) (c : Char) : Scan :=
  if st.escape then { st with escape := false }
  else if c = '\\' then { st with escape := true }
  else if c = '"' then { st with inStr := false }
  else st

/-- The loop: the index of the bracket that takes the depth to zero, in `bytes[i] as char`. -/
def scan (opening closing : Char) : Scan → List Char → Option ℕ
  | _, [] => none
  | st, c :: cs =>
    if st.inStr then (scan opening closing (st.inside c) cs).map (· + 1)
    else if c = '"' then (scan opening closing { st with inStr := true } cs).map (· + 1)
    else if c = opening then
      (scan opening closing { st with depth := st.depth + 1 } cs).map (· + 1)
    else if c = closing then
      if st.depth - 1 = 0 then some 0
      else (scan opening closing { st with depth := st.depth - 1 } cs).map (· + 1)
    else (scan opening closing st cs).map (· + 1)

/-- A slice at an offset that is not a boundary. -/
inductive Panic
  | notCharBoundary

def firstBlock (opening closing : Char) (s : String) : Except Panic (Option String) :=
  match find opening s.toList with
  | none => .ok none
  | some start =>
    match scan opening closing ⟨0, false, false⟩ ((latin s.toList).drop start) with
    | none => .ok none
    | some i =>
      match slice s.toList start (start + i + 1) with
      | none => .error .notCharBoundary
      | some block => .ok (some (String.ofList block))

def firstJsonArray : String → Except Panic (Option String) := firstBlock '[' ']'

def firstJsonObject : String → Except Panic (Option String) := firstBlock '\x7b' '\x7d'

/-! ## Bytes and characters -/

/-- A pair of brackets. -/
structure Brackets (opening closing : Char) : Prop where
  pair : opening = '[' ∧ closing = ']' ∨ opening = '\x7b' ∧ closing = '\x7d'

variable {opening closing : Char} {st : Scan} {s t : List Char} {c : Char} {d : ℤ}

theorem Brackets.opening_lt (h : Brackets opening closing) : opening.toNat < 128 := by
  rcases h.pair with ⟨rfl, -⟩ | ⟨rfl, -⟩ <;> decide

theorem Brackets.closing_lt (h : Brackets opening closing) : closing.toNat < 128 := by
  rcases h.pair with ⟨-, rfl⟩ | ⟨-, rfl⟩ <;> decide

theorem Brackets.ne (h : Brackets opening closing) : closing ≠ opening := by
  rcases h.pair with ⟨rfl, rfl⟩ | ⟨rfl, rfl⟩ <;> decide

/-- The scan stands where it stood before `s`. -/
def Passes (opening closing : Char) (st : Scan) (s : List Char) (st' : Scan) : Prop :=
  ∀ rest, scan opening closing st (s ++ rest) =
    (scan opening closing st' rest).map (· + s.length)

theorem Passes.nil : Passes opening closing st [] st := by
  intro rest
  simp

theorem Passes.append {st' st'' : Scan} (h : Passes opening closing st s st')
    (h' : Passes opening closing st' t st'') : Passes opening closing st (s ++ t) st'' := by
  intro rest
  rw [List.append_assoc, h, h', Option.map_map]
  congr 1
  funext i
  simp only [Function.comp_apply, List.length_append]
  omega

theorem Passes.cons {st' st'' : Scan} (h : Passes opening closing st [c] st')
    (h' : Passes opening closing st' s st'') : Passes opening closing st (c :: s) st'' :=
  h.append h'

theorem passes_inside (h : st.inStr = true) (c : Char) :
    Passes opening closing st [c] (st.inside c) := by
  intro rest
  rw [List.singleton_append, scan, if_pos h]
  rfl

theorem passes_quote (h : st.inStr = false) :
    Passes opening closing st ['"'] { st with inStr := true } := by
  intro rest
  rw [List.singleton_append, scan, if_neg (by simp [h]), if_pos rfl]
  rfl

theorem Brackets.passes_opening (hb : Brackets opening closing) (h : st.inStr = false) :
    Passes opening closing st [opening] { st with depth := st.depth + 1 } := by
  intro rest
  have hquote : opening ≠ '"' := by
    rcases hb.pair with ⟨rfl, -⟩ | ⟨rfl, -⟩ <;> decide
  rw [List.singleton_append, scan, if_neg (by simp [h]), if_neg hquote, if_pos rfl]
  rfl

theorem Brackets.scan_closing (hb : Brackets opening closing) (h : st.inStr = false)
    (rest : List Char) : scan opening closing st (closing :: rest) =
      if st.depth - 1 = 0 then some 0
      else (scan opening closing { st with depth := st.depth - 1 } rest).map (· + 1) := by
  have hquote : closing ≠ '"' := by
    rcases hb.pair with ⟨-, rfl⟩ | ⟨-, rfl⟩ <;> decide
  rw [scan, if_neg (by simp [h]), if_neg hquote, if_neg hb.ne, if_pos rfl]

theorem passes_other (h : st.inStr = false) (hquote : c ≠ '"') (hopening : c ≠ opening)
    (hclosing : c ≠ closing) : Passes opening closing st [c] st := by
  intro rest
  rw [List.singleton_append, scan, if_neg (by simp [h]), if_neg hquote, if_neg hopening,
    if_neg hclosing]
  rfl

/-- An escape is pending only inside a string. -/
def Scan.Sane (st : Scan) : Prop := st.escape = true → st.inStr = true

theorem Scan.Sane.inside (h : st.inStr = true) (c : Char) : (st.inside c).Sane := by
  rcases st with ⟨depth, inStr, escape⟩
  obtain rfl : inStr = true := h
  unfold Scan.inside Scan.Sane
  cases escape
  · by_cases hslash : c = '\\'
    · simp [hslash]
    · by_cases hquote : c = '"' <;> simp [hslash, hquote]
  · simp

/-- Every character is passed, except the bracket that closes the block. -/
theorem Brackets.passes_or_closes (hb : Brackets opening closing) (hst : st.Sane) (c : Char) :
    (c = closing ∧ st.inStr = false ∧ st.depth - 1 = 0) ∨
      ∃ st', st'.Sane ∧ Passes opening closing st [c] st' := by
  cases hin : st.inStr with
  | true => exact .inr ⟨_, .inside hin c, passes_inside hin c⟩
  | false =>
    have hescape : st.escape = false := by
      by_contra hne
      rw [hst (eq_true_of_ne_false hne)] at hin
      cases hin
    have hsane (depth : ℤ) (inStr : Bool) : Scan.Sane ⟨depth, inStr, st.escape⟩ := by
      intro h
      rw [hescape] at h
      cases h
    by_cases hquote : c = '"'
    · exact .inr ⟨_, hsane _ _, hquote ▸ passes_quote hin⟩
    · by_cases hopening : c = opening
      · refine .inr ⟨{ st with depth := st.depth + 1 }, hsane _ _, ?_⟩
        rw [hopening]
        exact hb.passes_opening hin
      · by_cases hclosing : c = closing
        · by_cases hdepth : st.depth - 1 = 0
          · exact .inl ⟨hclosing, rfl, hdepth⟩
          · refine .inr ⟨{ st with depth := st.depth - 1 }, hsane _ _, fun rest => ?_⟩
            rw [hclosing, List.singleton_append, hb.scan_closing hin, if_neg hdepth]
            rfl
        · exact .inr ⟨st, hst, passes_other hin hquote hopening hclosing⟩

/-- What a character outside ASCII, or a byte of one, does to the scan. -/
def Scan.foreign (st : Scan) : Scan :=
  if st.inStr then { st with escape := false } else st

theorem Brackets.passes_foreign (hb : Brackets opening closing) (h : 128 ≤ c.toNat) :
    Passes opening closing st [c] st.foreign := by
  have hopening := hb.opening_lt
  have hclosing := hb.closing_lt
  have hne {a : Char} (ha : a.toNat < 128) : c ≠ a := by
    rintro rfl
    omega
  have hslash : c ≠ '\\' := hne (by decide)
  have hquote : c ≠ '"' := hne (by decide)
  cases hin : st.inStr with
  | true =>
    have hinside : st.inside c = st.foreign := by
      rcases st with ⟨depth, inStr, escape⟩
      obtain rfl : inStr = true := hin
      cases escape <;> simp [Scan.inside, Scan.foreign, hslash, hquote]
    exact hinside ▸ passes_inside hin c
  | false =>
    have hforeign : st.foreign = st := by simp [Scan.foreign, hin]
    rw [hforeign]
    exact passes_other hin hquote (hne hopening) (hne hclosing)

theorem Scan.foreign_foreign (st : Scan) : st.foreign.foreign = st.foreign := by
  cases h : st.inStr <;> simp [Scan.foreign, h]

theorem Scan.Sane.foreign (h : st.Sane) : st.foreign.Sane := by
  unfold Scan.Sane Scan.foreign at *
  cases hin : st.inStr with
  | true => simp
  | false => simpa [hin] using h

/-- However many bytes the character has, they do what the character does. -/
theorem Brackets.passes_foreigns (hb : Brackets opening closing) (hne : s ≠ [])
    (h : ∀ c ∈ s, 128 ≤ c.toNat) : Passes opening closing st s st.foreign := by
  induction s generalizing st with
  | nil => exact absurd rfl hne
  | cons c s ih =>
    rw [List.forall_mem_cons] at h
    have hfirst : Passes opening closing st [c] st.foreign := hb.passes_foreign h.1
    by_cases hnil : s = []
    · exact hnil ▸ hfirst
    · have hrest : Passes opening closing st.foreign s st.foreign.foreign := ih hnil h.2
      rw [st.foreign_foreign] at hrest
      exact hfirst.cons hrest

/-- The scan over the bytes ends at the character where the scan over the characters ends. -/
theorem Brackets.scan_latin (hb : Brackets opening closing) (hst : st.Sane) (s : List Char) :
    (scan opening closing st (latin s)).map (· + 1) =
      (scan opening closing st s).map fun i => (bytes (s.take (i + 1))).length := by
  induction s generalizing st with
  | nil => rfl
  | cons c s ih =>
    have hlatin : latin (c :: s) = latin [c] ++ latin s := latin_append (s := [c])
    rw [hlatin]
    have hgoes {st' : Scan} (hst' : st'.Sane) (hchar : Passes opening closing st [c] st')
        (hbytes : Passes opening closing st (latin [c]) st') :
        (scan opening closing st (latin [c] ++ latin s)).map (· + 1) =
          (scan opening closing st (c :: s)).map fun i => (bytes ((c :: s).take (i + 1))).length := by
      have hcons := hchar s
      have hrest := congrArg (Option.map (· + (latin [c]).length)) (ih hst')
      rw [List.singleton_append] at hcons
      rw [hbytes, hcons]
      simp only [Option.map_map] at hrest ⊢
      convert hrest using 2
      · funext i
        simp only [Function.comp_apply]
        omega
      · funext i
        simp only [Function.comp_apply, List.length_singleton, List.take_succ_cons,
          length_bytes_cons, length_latin, bytes_nil, List.length_nil]
        omega
    by_cases hascii : c.toNat < 128
    · rcases hb.passes_or_closes hst c with ⟨rfl, hin, hdepth⟩ | ⟨st', hst', hpasses⟩
      · rw [latin_of_ascii hascii, List.singleton_append, hb.scan_closing hin, if_pos hdepth,
          hb.scan_closing hin, if_pos hdepth]
        simp [length_bytes_cons, utf8Size_of_ascii hascii]
      · exact hgoes hst' hpasses (by rwa [latin_of_ascii hascii])
    · have hforeign : 128 ≤ c.toNat := by omega
      exact hgoes hst.foreign (hb.passes_foreign hforeign)
        (hb.passes_foreigns (latin_ne_nil c) fun d hd => le_of_mem_latin hforeign hd)

/-! ## The block in the text -/

/-- Up to the first opening bracket nothing matters, and from there on it is characters. -/
theorem Brackets.firstBlock_eq (hb : Brackets opening closing) (h : opening ∉ s) (t : List Char) :
    firstBlock opening closing (String.ofList (s ++ opening :: t)) =
      .ok ((scan opening closing ⟨0, false, false⟩ (opening :: t)).map fun i =>
        String.ofList ((opening :: t).take (i + 1))) := by
  have hsane : Scan.Sane ⟨0, false, false⟩ := nofun
  have hscan := hb.scan_latin hsane (opening :: t)
  unfold firstBlock
  rw [String.toList_ofList, find_append h]
  dsimp only
  rw [drop_latin]
  cases hi : scan opening closing ⟨0, false, false⟩ (latin (opening :: t)) with
  | none =>
    rw [hi, Option.map_none, eq_comm, Option.map_eq_none_iff] at hscan
    rw [hscan]
    rfl
  | some i =>
    rw [hi, Option.map_some, eq_comm, Option.map_eq_some_iff] at hscan
    obtain ⟨j, hj, hlength⟩ := hscan
    have hslice := slice_bytes s ((opening :: t).take (j + 1)) ((opening :: t).drop (j + 1))
    rw [List.append_assoc, List.take_append_drop, hlength, ← Nat.add_assoc] at hslice
    dsimp only
    rw [hslice, hj]
    rfl

/-- No slice falls inside a character. -/
theorem Brackets.exists_firstBlock (hb : Brackets opening closing) (s : String) :
    ∃ block, firstBlock opening closing s = .ok block := by
  by_cases h : opening ∈ s.toList
  · obtain ⟨t, u, hsplit, hfirst⟩ := List.eq_append_cons_of_mem h
    have hs : String.ofList (t ++ opening :: u) = s := by rw [← hsplit, String.ofList_toList]
    exact ⟨_, hs ▸ hb.firstBlock_eq hfirst u⟩
  · refine ⟨none, ?_⟩
    rw [firstBlock, find_eq_none h]

/-! ## The grammar -/

theorem passes_plain (hb : Brackets opening closing) (h : st.inStr = false)
    (hs : ∀ c ∈ s, Plain c) : Passes opening closing st s st := by
  induction s with
  | nil => exact .nil
  | cons c s ih =>
    rw [List.forall_mem_cons] at hs
    obtain ⟨hquote, hsquare, hsquare', hcurly, hcurly'⟩ := hs.1
    have hc : c ≠ opening ∧ c ≠ closing := by
      rcases hb.pair with ⟨rfl, rfl⟩ | ⟨rfl, rfl⟩
      · exact ⟨hsquare, hsquare'⟩
      · exact ⟨hcurly, hcurly'⟩
    exact (passes_other h hquote hc.1 hc.2).cons (ih hs.2)

theorem passes_contents (h : Contents s) :
    Passes opening closing ⟨d, true, false⟩ s ⟨d, true, false⟩ := by
  have hstep (st : Scan) (c : Char) (hin : st.inStr = true) :
      Passes opening closing st [c] (st.inside c) := passes_inside hin c
  have hother {c : Char} (hquote : c ≠ '"') (hslash : c ≠ '\\') :
      Passes opening closing ⟨d, true, false⟩ [c] ⟨d, true, false⟩ := by
    have hpasses := hstep ⟨d, true, false⟩ c rfl
    simpa [Scan.inside, hquote, hslash] using hpasses
  have hescaped (c : Char) : Passes opening closing ⟨d, true, false⟩ ['\\', c] ⟨d, true, false⟩ :=
    (hstep ⟨d, true, false⟩ '\\' rfl).cons (hstep ⟨d, true, true⟩ c rfl)
  have hhex {c : Char} (h : HexDigit c) :
      Passes opening closing ⟨d, true, false⟩ [c] ⟨d, true, false⟩ := by
    apply hother
    · rintro rfl
      exact absurd h (by decide)
    · rintro rfl
      exact absurd h (by decide)
  induction h with
  | nil => exact .nil
  | char hquote hslash _ _ ih => exact (hother hquote hslash).cons ih
  | escape _ _ ih => exact (hescaped _).append ih
  | unicode h₁ h₂ h₃ h₄ _ ih =>
    exact (hescaped 'u').append ((hhex h₁).cons ((hhex h₂).cons ((hhex h₃).cons ((hhex h₄).cons ih))))

theorem passes_quoted (h : Quoted s) :
    Passes opening closing ⟨d, false, false⟩ s ⟨d, false, false⟩ := by
  cases h with
  | mk hcontents =>
    have hopen : Passes opening closing ⟨d, false, false⟩ ['"'] ⟨d, true, false⟩ :=
      passes_quote rfl
    have hclose : Passes opening closing ⟨d, true, false⟩ ['"'] ⟨d, false, false⟩ :=
      @passes_inside _ _ ⟨d, true, false⟩ rfl '"'
    exact hopen.cons ((passes_contents hcontents).append hclose)

/-- A nested block of either kind. -/
theorem passes_nested (hb : Brackets opening closing) (hd : 1 ≤ d) {a b : Char}
    (hab : Brackets a b) (h : ∀ d : ℤ, 1 ≤ d →
      Passes opening closing ⟨d, false, false⟩ s ⟨d, false, false⟩) :
    Passes opening closing ⟨d, false, false⟩ (a :: s ++ [b]) ⟨d, false, false⟩ := by
  by_cases hsame : a = opening
  · have hclosing : b = closing := by
      rcases hb.pair with ⟨rfl, rfl⟩ | ⟨rfl, rfl⟩ <;>
        rcases hab.pair with ⟨rfl, rfl⟩ | ⟨rfl, rfl⟩ <;> first | rfl | cases hsame
    have hdown : Passes opening closing ⟨d + 1, false, false⟩ [b] ⟨d, false, false⟩ := by
      intro rest
      rw [hclosing, List.singleton_append, hb.scan_closing rfl, if_neg (by dsimp only; omega)]
      simp
    have hup : Passes opening closing ⟨d, false, false⟩ [a] ⟨d + 1, false, false⟩ :=
      hsame ▸ hb.passes_opening rfl
    exact hup.cons ((h (d + 1) (by omega)).append hdown)
  · have hother {c : Char} (hc : c = a ∨ c = b) :
        Passes opening closing ⟨d, false, false⟩ [c] ⟨d, false, false⟩ := by
      rcases hb.pair with ⟨rfl, rfl⟩ | ⟨rfl, rfl⟩ <;>
        rcases hab.pair with ⟨rfl, rfl⟩ | ⟨rfl, rfl⟩ <;>
        first
        | exact absurd rfl hsame
        | rcases hc with rfl | rfl <;> exact passes_other rfl (by decide) (by decide) (by decide)
    exact (hother (.inl rfl)).cons ((h d hd).append (hother (.inr rfl)))

theorem square : Brackets '[' ']' := ⟨.inl ⟨rfl, rfl⟩⟩

theorem curly : Brackets '\x7b' '\x7d' := ⟨.inr ⟨rfl, rfl⟩⟩

/-- Inside a block the scan passes whatever the grammar has, and is as deep as before. -/
theorem passes_text (hb : Brackets opening closing) {sym : Symbol} (h : Text sym s) :
    ∀ d : ℤ, 1 ≤ d → Passes opening closing ⟨d, false, false⟩ s ⟨d, false, false⟩ := by
  have hplain (d : ℤ) {s : List Char} (hs : ∀ c ∈ s, Plain c) :
      Passes opening closing ⟨d, false, false⟩ s ⟨d, false, false⟩ := passes_plain hb rfl hs
  induction h with
  | null => exact fun d _ => hplain d (by simp [Plain])
  | false => exact fun d _ => hplain d (by simp [Plain])
  | true => exact fun d _ => hplain d (by simp [Plain])
  | number hnumber => exact fun d _ => hplain d hnumber.plain
  | string hquoted => exact fun d _ => passes_quoted hquoted
  | arrayValue _ ih => exact ih
  | objectValue _ ih => exact ih
  | emptyArray hblank =>
    exact fun d hd => passes_nested hb hd square fun d _ => hplain d hblank.plain
  | array _ ih => exact fun d hd => passes_nested hb hd square ih
  | emptyObject hblank =>
    exact fun d hd => passes_nested hb hd curly fun d _ => hplain d hblank.plain
  | object _ ih => exact fun d hd => passes_nested hb hd curly ih
  | element hblank _ hblank' ih =>
    exact fun d hd => ((hplain d hblank.plain).append (ih d hd)).append (hplain d hblank'.plain)
  | elements _ _ ih ih' =>
    intro d hd
    have hcomma := hplain d (s := [',']) (by simp [Plain])
    exact (ih d hd).append (hcomma.cons (ih' d hd))
  | member h₁ hname h₂ h₃ _ h₄ ih =>
    intro d hd
    have hcolon := hplain d (s := [':']) (by simp [Plain])
    have hkey := ((hplain d h₁.plain).append (passes_quoted hname)).append (hplain d h₂.plain)
    have hvalue := (hcolon.append (hplain d h₃.plain)).append (ih d hd)
    have hall := (hkey.append hvalue).append (hplain d h₄.plain)
    simpa [List.append_assoc] using hall
  | members _ _ ih ih' =>
    intro d hd
    have hcomma := hplain d (s := [',']) (by simp [Plain])
    exact (ih d hd).append (hcomma.cons (ih' d hd))

/-- The scan ends at the bracket that closes the block. -/
theorem scan_block (hb : Brackets opening closing)
    (h : ∀ d : ℤ, 1 ≤ d → Passes opening closing ⟨d, false, false⟩ s ⟨d, false, false⟩)
    (rest : List Char) :
    scan opening closing ⟨0, false, false⟩ (opening :: s ++ closing :: rest) =
      some (s.length + 1) := by
  have hup : Passes opening closing ⟨0, false, false⟩ [opening] ⟨1, false, false⟩ :=
    hb.passes_opening rfl
  have hinner := hup.cons (h 1 le_rfl)
  rw [hinner, hb.scan_closing rfl, if_pos (show (1 : ℤ) - 1 = 0 from rfl)]
  simp

theorem firstBlock_block (hb : Brackets opening closing)
    (hs : ∀ d : ℤ, 1 ≤ d → Passes opening closing ⟨d, false, false⟩ s ⟨d, false, false⟩)
    {before block : String} (h : opening ∉ before.toList)
    (hblock : block.toList = opening :: s ++ [closing]) (after : String) :
    firstBlock opening closing (before ++ block ++ after) = .ok (some block) := by
  have htext : before ++ block ++ after =
      String.ofList (before.toList ++ opening :: (s ++ closing :: after.toList)) := by
    rw [← String.toList_inj, String.toList_ofList, String.toList_append, String.toList_append,
      hblock]
    simp
  have hscan := scan_block hb hs after.toList
  rw [List.cons_append] at hscan
  rw [htext, hb.firstBlock_eq h, hscan, Option.map_some]
  congr 2
  rw [← String.toList_inj, String.toList_ofList, hblock, List.take_succ_cons,
    List.take_length_add_append]
  rfl

/-- The JSON that follows the first bracket is found whole, and no text makes the scan slice
inside a character. -/
theorem json_found_whole (before block after : String) :
    ('[' ∉ before.toList → Text .array block.toList →
      firstJsonArray (before ++ block ++ after) = .ok (some block)) ∧
    ('\x7b' ∉ before.toList → Text .object block.toList →
      firstJsonObject (before ++ block ++ after) = .ok (some block)) ∧
    ∀ s, (∃ found, firstJsonArray s = .ok found) ∧ ∃ found, firstJsonObject s = .ok found := by
  refine ⟨fun h htext => ?_, fun h htext => ?_, fun s => ?_⟩
  · generalize hblock : block.toList = t at htext
    cases htext with
    | emptyArray hblank =>
      exact firstBlock_block square (fun d _ => passes_plain square rfl hblank.plain) h hblock after
    | array helements =>
      exact firstBlock_block square (passes_text square helements) h hblock after
  · generalize hblock : block.toList = t at htext
    cases htext with
    | emptyObject hblank =>
      exact firstBlock_block curly (fun d _ => passes_plain curly rfl hblank.plain) h hblock after
    | object hmembers =>
      exact firstBlock_block curly (passes_text curly hmembers) h hblock after
  · exact ⟨square.exists_firstBlock s, curly.exists_firstBlock s⟩

theorem json_found_whole_reply :
    firstJsonArray ("Fixed: " ++ "[\"à ]\", 1]" ++ " [done]") = .ok (some "[\"à ]\", 1]") := by
  have hcontents : Contents ['à', ' ', ']'] :=
    .char (by decide) (by decide) (by decide) (.char (by decide) (by decide) (by decide)
      (.char (by decide) (by decide) (by decide) .nil))
  have hstring : Text .elements ['"', 'à', ' ', ']', '"'] :=
    .element (b := []) nofun (.string (.mk hcontents)) nofun
  have hdigits : Digits ['1'] := ⟨by simp, by simp⟩
  have hone : Number ['1'] := .mk (.inl rfl) (.inr ⟨hdigits, by decide⟩) (.inl rfl) (.inl rfl)
  have hnumber : Text .elements [' ', '1'] :=
    .element (b := [' ']) (by simp [Blank]) (.number hone) nofun
  have htext : Text .array "[\"à ]\", 1]".toList := .array (.elements hstring hnumber)
  exact (json_found_whole "Fixed: " _ " [done]").1 (by decide) htext

end ScribeLocal.Pipeline
