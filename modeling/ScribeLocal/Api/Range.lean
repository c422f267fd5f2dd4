import Mathlib.Data.List.TakeWhile
import Mathlib.Tactic
import ScribeLocal.Asr.Trim

/-!
# Range headers

`parse_range` takes a `Range` header apart and gives the bytes to serve, inclusive.
-/
namespace ScribeLocal.Api
open Asr (trim trimStart isWhitespace trim_append exists_trim mem_of_mem_trim)

inductive ParsedRange
  | full
  | bytes (start stop : ℕ)
  | unsatisfiable
deriving DecidableEq

/-- `str::parse::<u64>`, which takes a plus sign. -/
def parseU64 (cs : List Char) : Option ℕ :=
  let digits := if cs.head? = some '+' then cs.tail else cs
  if digits ≠ [] ∧ digits.all Char.isDigit ∧ Nat.ofDigitChars 10 digits 0 < 2 ^ 64 then
    some (Nat.ofDigitChars 10 digits 0)
  else none

def stripPrefix (start cs : List Char) : Option (List Char) :=
  if start <+: cs then some (cs.drop start.length) else none

def splitOnce (sep : Char) : List Char → Option (List Char × List Char)
  | [] => none
  | c :: cs => if c = sep then some ([], cs) else (splitOnce sep cs).map fun p => (c :: p.1, p.2)

/-- The range from what stands before and after the hyphen. -/
def parseSpec (startS endS : List Char) (total : ℕ) : ParsedRange :=
  if total = 0 then .unsatisfiable
  else
    let last := total - 1
    if startS = [] then
      match parseU64 endS with
      | none => .full
      | some suffix =>
        if suffix = 0 then .unsatisfiable else .bytes (total - min suffix total) last
    else
      match parseU64 startS with
      | none => .full
      | some start =>
        if last < start then .unsatisfiable
        else
          match if endS = [] then some last else (parseU64 endS).map (min · last) with
          | none => .full
          | some stop => if stop < start then .unsatisfiable else .bytes start stop

def parseRange (value : String) (total : ℕ) : ParsedRange :=
  match stripPrefix "bytes=".toList (trim value.toList) with
  | none => .full
  | some spec =>
    -- further ranges, behind a comma, are ignored
    match splitOnce '-' (trim (spec.takeWhile (· ≠ ','))) with
    | none => .full
    | some (startS, endS) => parseSpec startS endS total

/-! ## The grammar -/

inductive Spec
  | closed (first last : ℕ)
  | from (first : ℕ)
  | suffix (length : ℕ)

/-- Decimal digits, and the number they spell. -/
structure Numeral (cs : List Char) (n : ℕ) : Prop where
  ne_nil : cs ≠ []
  digits : ∀ c ∈ cs, c.isDigit = true
  value : Nat.ofDigitChars 10 cs 0 = n

/-- How a range is written. -/
inductive Spelled : List Char → Spec → Prop
  | closed {cs ds : List Char} {a b : ℕ} : Numeral cs a → Numeral ds b →
      Spelled (cs ++ '-' :: ds) (.closed a b)
  | from {cs : List Char} {a : ℕ} : Numeral cs a → Spelled (cs ++ ['-']) (.from a)
  | suffix {ds : List Char} {n : ℕ} : Numeral ds n → Spelled ('-' :: ds) (.suffix n)

/-- Whether a range of `total` bytes selects byte `i`. -/
def Spec.Selects (total i : ℕ) : Spec → Prop
  | .closed a b => i < total ∧ a ≤ i ∧ i ≤ b
  | .from a => i < total ∧ a ≤ i
  | .suffix n => i < total ∧ total ≤ i + n

/-- The numbers are those of `u64`. -/
def Spec.Small : Spec → Prop
  | .closed a b => a < 2 ^ 64 ∧ b < 2 ^ 64
  | .from a => a < 2 ^ 64
  | .suffix n => n < 2 ^ 64

/-- The first position is not behind the last. -/
def Spec.Ordered : Spec → Prop
  | .closed a b => a ≤ b
  | .from _ => True
  | .suffix _ => True

/-- A header in bytes, with white space around it and before what it says. -/
structure Header (value : String) (gap spec : List Char) : Prop where
  exists_eq : ∃ before after, (∀ c ∈ before, isWhitespace c = true) ∧
    (∀ c ∈ after, isWhitespace c = true) ∧
    value.toList = before ++ ("bytes=".toList ++ gap ++ spec) ++ after
  gap : ∀ c ∈ gap, isWhitespace c = true

/-- Exactly the bytes that are selected, if any are. -/
def Answers (spec : Spec) (total : ℕ) : ParsedRange → Prop
  | .full => False
  | .bytes start stop => start ≤ stop ∧ stop < total ∧
      ∀ i, start ≤ i ∧ i ≤ stop ↔ spec.Selects total i
  | .unsatisfiable => ∀ i, ¬ spec.Selects total i

/-! ## Numbers and their separators -/

variable {cs ds : List Char} {c sep : Char} {n : ℕ} {value : String}

theorem splitOnce_append (h : sep ∉ cs) : splitOnce sep (cs ++ sep :: ds) = some (cs, ds) := by
  induction cs with
  | nil => rw [List.nil_append, splitOnce, if_pos rfl]
  | cons c cs ih =>
    rw [List.mem_cons, not_or] at h
    rw [List.cons_append, splitOnce, if_neg (Ne.symm h.1), ih h.2]
    rfl

theorem splitOnce_eq_none (h : sep ∉ cs) : splitOnce sep cs = none := by
  induction cs with
  | nil => rfl
  | cons c cs ih =>
    rw [List.mem_cons, not_or] at h
    rw [splitOnce, if_neg (Ne.symm h.1), ih h.2]
    rfl

theorem of_splitOnce {p : List Char × List Char} (h : splitOnce sep cs = some p) :
    cs = p.1 ++ sep :: p.2 ∧ sep ∉ p.1 := by
  induction cs generalizing p with
  | nil => cases h
  | cons c cs ih =>
    rw [splitOnce] at h
    split at h
    · rename_i hsep
      cases h
      exact ⟨by rw [hsep]; rfl, List.not_mem_nil⟩
    · rename_i hsep
      obtain ⟨q, hq, rfl⟩ := Option.map_eq_some_iff.mp h
      obtain ⟨heq, hnot⟩ := ih hq
      refine ⟨by rw [heq]; rfl, ?_⟩
      rw [List.mem_cons, not_or]
      exact ⟨Ne.symm hsep, hnot⟩

theorem Numeral.not_mem (h : Numeral cs n) (hc : c.isDigit = false) : c ∉ cs := by
  intro hmem
  rw [h.digits c hmem] at hc
  cases hc

theorem parseU64_eq (h : Numeral cs n) (hlt : n < 2 ^ 64) : parseU64 cs = some n := by
  have hsign : cs.head? ≠ some '+' := by
    intro hhead
    exact h.not_mem (by decide) (List.mem_of_mem_head? hhead)
  have hall : cs.all Char.isDigit = true := List.all_eq_true.mpr h.digits
  rw [parseU64, if_neg hsign, if_pos ⟨h.ne_nil, hall, h.value.symm ▸ hlt⟩, h.value]

theorem of_parseU64 (hsign : '+' ∉ cs) (h : parseU64 cs = some n) : Numeral cs n ∧ n < 2 ^ 64 := by
  have hhead : cs.head? ≠ some '+' := fun hhead => hsign (List.mem_of_mem_head? hhead)
  rw [parseU64, if_neg hhead] at h
  split at h
  · rename_i hcs
    cases h
    exact ⟨⟨hcs.1, List.all_eq_true.mp hcs.2.1, rfl⟩, hcs.2.2⟩
  · cases h

/-! ## Written ranges -/

theorem isWhitespace_eq_false (h : c.isDigit = true ∨ c = '-') : isWhitespace c = false := by
  rcases h with hdigit | rfl
  · have hrange : 48 ≤ c.val.toNat ∧ c.val.toNat ≤ 57 := by
      simpa [Char.isDigit, UInt32.le_iff_toNat_le] using hdigit
    simp only [isWhitespace, Bool.or_eq_false_iff, Bool.and_eq_false_iff, decide_eq_false_iff_not,
      UInt32.le_iff_toNat_le, beq_eq_false_iff_ne, ne_eq, ← UInt32.toNat_inj, UInt32.reduceToNat]
    omega
  · decide

theorem Spelled.plain {spec : Spec} (h : Spelled cs spec) :
    ∀ c ∈ cs, c.isDigit = true ∨ c = '-' := by
  intro c hc
  cases h with
  | closed ha hb =>
    rcases List.mem_append.mp hc with hc | hc
    · exact .inl (ha.digits c hc)
    · rcases List.mem_cons.mp hc with rfl | hc
      · exact .inr rfl
      · exact .inl (hb.digits c hc)
  | «from» ha =>
    rcases List.mem_append.mp hc with hc | hc
    · exact .inl (ha.digits c hc)
    · exact .inr (List.mem_singleton.mp hc)
  | suffix hn =>
    rcases List.mem_cons.mp hc with rfl | hc
    · exact .inr rfl
    · exact .inl (hn.digits c hc)

theorem Spelled.ne_nil {spec : Spec} (h : Spelled cs spec) : cs ≠ [] := by
  cases h <;> simp

/-- What is left of a well-formed header behind its unit. -/
theorem Header.strip {gap : List Char} (h : Header value gap cs)
    (hlast : ∀ c ∈ (gap ++ cs).getLast?, isWhitespace c = false) :
    stripPrefix "bytes=".toList (trim value.toList) = some (gap ++ cs) := by
  obtain ⟨before, after, hbefore, hafter, heq⟩ := h.exists_eq
  have htrim : trim value.toList = "bytes=".toList ++ (gap ++ cs) := by
    rw [heq, List.append_assoc "bytes=".toList]
    have hhead : ∀ c ∈ ("bytes=".toList ++ (gap ++ cs)).head?, isWhitespace c = false := by
      intro c hc
      obtain rfl : 'b' = c := by simpa using hc
      decide
    refine trim_append hbefore hafter hhead fun c hc => ?_
    rw [List.getLast?_append] at hc
    cases hgap : (gap ++ cs).getLast? with
    | none =>
      rw [hgap] at hc
      obtain rfl : '=' = c := by simpa using hc
      decide
    | some d =>
      rw [hgap] at hc
      obtain rfl : d = c := by simpa using hc
      exact hlast d hgap
  rw [htrim, stripPrefix, if_pos (List.prefix_append _ _), List.drop_left]

/-- A header that begins with its unit. -/
theorem exists_header {rest : List Char}
    (h : stripPrefix "bytes=".toList (trim value.toList) = some rest) : Header value [] rest := by
  unfold stripPrefix at h
  split at h
  · rename_i hprefix
    obtain ⟨tail, htail⟩ := hprefix
    obtain ⟨before, after, hbefore, hafter, heq⟩ := exists_trim value.toList
    rw [← htail, List.drop_left, Option.some_inj] at h
    rw [← htail, h] at heq
    exact ⟨⟨before, after, hbefore, hafter, by rw [heq, List.append_nil]⟩, nofun⟩
  · cases h

theorem Header.mem {gap : List Char} (h : Header value gap cs) (hc : c ∈ cs) :
    c ∈ value.toList := by
  obtain ⟨before, after, -, -, heq⟩ := h.exists_eq
  rw [heq]
  exact List.mem_append_left _ (List.mem_append_right _ (List.mem_append_right _ hc))

/-- White space at either end of what is said belongs to the header. -/
theorem Header.exists_gap {rest : List Char} (h : Header value [] rest) :
    ∃ gap, Header value gap (trim rest) := by
  obtain ⟨before, after, hbefore, hafter, heq⟩ := h.exists_eq
  obtain ⟨gap, stop, hgap, hstop, hrest⟩ := exists_trim rest
  refine ⟨gap, ⟨before, stop ++ after, hbefore, ?_, ?_⟩, hgap⟩
  · exact List.forall_mem_append.mpr ⟨hstop, hafter⟩
  · rw [heq]
    nth_rewrite 1 [hrest]
    simp

/-- The text of a well-formed header behind its unit. -/
theorem Header.strip_spelled {gap : List Char} {spec : Spec} (h : Header value gap cs)
    (hspelled : Spelled cs spec) :
    stripPrefix "bytes=".toList (trim value.toList) = some (gap ++ cs) := by
  apply h.strip
  intro c hc
  rw [List.getLast?_append, List.getLast?_eq_some_getLast hspelled.ne_nil, Option.some_or,
    Option.mem_some_iff] at hc
  rw [← hc]
  exact isWhitespace_eq_false (hspelled.plain _ (List.getLast_mem hspelled.ne_nil))

/-- What stands before and after the hyphen of a range. -/
def Parts (startS endS : List Char) : Spec → Prop
  | .closed a b => Numeral startS a ∧ Numeral endS b
  | .from a => Numeral startS a ∧ endS = []
  | .suffix n => startS = [] ∧ Numeral endS n

theorem Spelled.split {spec : Spec} (h : Spelled cs spec) :
    ∃ startS endS, splitOnce '-' cs = some (startS, endS) ∧ Parts startS endS spec := by
  cases h with
  | closed ha hb => exact ⟨_, _, splitOnce_append (ha.not_mem (by decide)), ha, hb⟩
  | «from» ha => exact ⟨_, _, splitOnce_append (ha.not_mem (by decide)), ha, rfl⟩
  | suffix hn => exact ⟨[], _, @splitOnce_append [] _ _ List.not_mem_nil, rfl, hn⟩

/-- A written range is taken apart at its hyphen. -/
theorem parseRange_of_spelled (total : ℕ) {spec : Spec} {gap : List Char} (h : Header value gap cs)
    (hspelled : Spelled cs spec) : ∃ startS endS,
      parseRange value total = parseSpec startS endS total ∧ Parts startS endS spec := by
  obtain ⟨startS, endS, hsplit, hparts⟩ := hspelled.split
  have hplain : ∀ c ∈ cs, isWhitespace c = false := fun c hc =>
    isWhitespace_eq_false (hspelled.plain c hc)
  have hcomma : ∀ c ∈ gap ++ cs, decide (c ≠ ',') = true := by
    intro c hc
    rw [decide_eq_true_eq]
    rintro rfl
    rcases List.mem_append.mp hc with hgap | hspec
    · exact absurd (h.gap _ hgap) (by decide)
    · exact absurd (hspelled.plain _ hspec) (by decide)
  have htrim : trim (gap ++ cs) = cs := by
    have hall := @trim_append cs gap [] h.gap nofun (fun c hc => hplain c (List.mem_of_mem_head? hc))
      (fun c hc => hplain c (List.mem_of_mem_getLast? hc))
    rwa [List.append_nil] at hall
  refine ⟨startS, endS, ?_, hparts⟩
  unfold parseRange
  rw [h.strip_spelled hspelled]
  dsimp only
  rw [List.takeWhile_eq_self_iff.mpr hcomma, htrim, hsplit]

/-! ## The answers -/

variable {a b total : ℕ}

/-- Nothing is selected from an empty file. -/
theorem answers_empty (cs ds : List Char) (spec : Spec) : Answers spec 0 (parseSpec cs ds 0) := by
  rw [parseSpec, if_pos rfl]
  rintro i hi
  cases spec with
  | closed a b => exact absurd hi.1 (Nat.not_lt_zero i)
  | «from» a => exact absurd hi.1 (Nat.not_lt_zero i)
  | suffix n => exact absurd hi.1 (Nat.not_lt_zero i)

theorem answers_closed (htotal : 0 < total) (ha : Numeral cs a) (hb : Numeral ds b)
    (hlta : a < 2 ^ 64) (hltb : b < 2 ^ 64) :
    Answers (.closed a b) total (parseSpec cs ds total) := by
  rw [parseSpec, if_neg htotal.ne', if_neg ha.ne_nil, parseU64_eq ha hlta, if_neg hb.ne_nil,
    parseU64_eq hb hltb]
  dsimp only [Option.map]
  split
  · rintro i ⟨hi, hle, -⟩
    omega
  · split
    · rintro i ⟨hi, hle, hge⟩
      omega
    · refine ⟨by omega, by omega, fun i => ?_⟩
      unfold Spec.Selects
      omega

theorem answers_from (htotal : 0 < total) (ha : Numeral cs a) (hlta : a < 2 ^ 64) :
    Answers (.from a) total (parseSpec cs [] total) := by
  rw [parseSpec, if_neg htotal.ne', if_neg ha.ne_nil, parseU64_eq ha hlta, if_pos rfl]
  dsimp only
  split
  · rintro i ⟨hi, hle⟩
    omega
  · refine ⟨by omega, by omega, fun i => ?_⟩
    unfold Spec.Selects
    omega

theorem answers_suffix (htotal : 0 < total) (hn : Numeral ds n) (hlt : n < 2 ^ 64) :
    Answers (.suffix n) total (parseSpec [] ds total) := by
  rw [parseSpec, if_neg htotal.ne', if_pos rfl, parseU64_eq hn hlt]
  dsimp only
  split
  · rintro i ⟨hi, hle⟩
    omega
  · refine ⟨by omega, by omega, fun i => ?_⟩
    unfold Spec.Selects
    omega

/-- A written range is answered. -/
theorem answers_parseRange {gap : List Char} {spec : Spec} (h : Header value gap cs)
    (hspelled : Spelled cs spec) (hsmall : spec.Small) :
    Answers spec total (parseRange value total) := by
  obtain ⟨startS, endS, hparse, hnumbers⟩ := parseRange_of_spelled total h hspelled
  rw [hparse]
  rcases Nat.eq_zero_or_pos total with rfl | htotal
  · exact answers_empty startS endS spec
  · cases spec with
    | closed a b => exact answers_closed htotal hnumbers.1 hnumbers.2 hsmall.1 hsmall.2
    | «from» a =>
      rw [hnumbers.2]
      exact answers_from htotal hnumbers.1 hsmall
    | suffix n =>
      rw [hnumbers.1]
      exact answers_suffix htotal hnumbers.2 hsmall

/-- Nothing is cut out where no hyphen follows the unit. -/
theorem parseRange_of_no_hyphen (h : ∀ gap cs, Header value gap cs → '-' ∉ cs) :
    parseRange value total = .full := by
  unfold parseRange
  cases hstrip : stripPrefix "bytes=".toList (trim value.toList) with
  | none => rfl
  | some rest =>
    have hrest := h [] rest (exists_header hstrip)
    have hfirst : '-' ∉ trim (rest.takeWhile (· ≠ ',')) := by
      intro hmem
      apply hrest
      exact (List.takeWhile_sublist fun c => decide (c ≠ ',')).subset (mem_of_mem_trim hmem)
    dsimp only
    rw [splitOnce_eq_none hfirst]

/-- A text that is not a range of `u64` numbers is not cut out, as long as what stands before
its hyphen lies within the file. -/
theorem parseSpec_of_not_spelled (htotal : 0 < total) (hcs : '+' ∉ cs) (hds : '+' ∉ ds)
    (hspelled : ∀ spec : Spec, spec.Small → ¬ Spelled (cs ++ '-' :: ds) spec)
    (hstart : ∀ n, Numeral cs n → n < 2 ^ 64 → n < total) : parseSpec cs ds total = .full := by
  unfold parseSpec
  rw [if_neg htotal.ne']
  dsimp only
  by_cases hnil : cs = []
  · rw [if_pos hnil]
    cases hsuffix : parseU64 ds with
    | none => rfl
    | some n =>
      obtain ⟨hn, hlt⟩ := of_parseU64 hds hsuffix
      rw [hnil] at hspelled
      exact absurd (.suffix hn) (hspelled (.suffix n) hlt)
  · rw [if_neg hnil]
    cases hfirst : parseU64 cs with
    | none => rfl
    | some a =>
      obtain ⟨ha, hlta⟩ := of_parseU64 hcs hfirst
      have hin := hstart a ha hlta
      dsimp only
      rw [if_neg (by omega)]
      by_cases hend : ds = []
      · rw [hend] at hspelled
        exact absurd (.from ha) (hspelled (.from a) hlta)
      · rw [if_neg hend]
        cases hlast : parseU64 ds with
        | none => rfl
        | some b =>
          obtain ⟨hb, hltb⟩ := of_parseU64 hds hlast
          exact absurd (.closed ha hb) (hspelled (.closed a b) ⟨hlta, hltb⟩)

theorem parseRange_of_not_spelled (htotal : 0 < total) (hcomma : ',' ∉ value.toList)
    (hplus : '+' ∉ value.toList)
    (hspelled : ∀ gap cs, ∀ spec : Spec, spec.Small → Header value gap cs → ¬ Spelled cs spec)
    (hstart : ∀ gap cs ds n, Header value gap (cs ++ '-' :: ds) → Numeral cs n → n < 2 ^ 64 →
      n < total) : parseRange value total = .full := by
  unfold parseRange
  cases hstrip : stripPrefix "bytes=".toList (trim value.toList) with
  | none => rfl
  | some rest =>
    have hheader := exists_header hstrip
    have hwhole : rest.takeWhile (fun c => decide (c ≠ ',')) = rest := by
      apply List.takeWhile_eq_self_iff.mpr
      intro c hc
      rw [decide_eq_true_eq]
      rintro rfl
      exact hcomma (hheader.mem hc)
    dsimp only
    rw [hwhole]
    obtain ⟨gap, htrim⟩ := hheader.exists_gap
    cases hsplit : splitOnce '-' (trim rest) with
    | none => rfl
    | some p =>
      obtain ⟨cs, ds⟩ := p
      obtain ⟨hfirst, -⟩ := of_splitOnce hsplit
      have hplus' : '+' ∉ trim rest := fun hmem => hplus (hheader.mem (mem_of_mem_trim hmem))
      dsimp only at hfirst ⊢
      rw [hfirst] at htrim hplus'
      rw [List.mem_append, List.mem_cons, not_or, not_or] at hplus'
      exact parseSpec_of_not_spelled htotal hplus'.1 hplus'.2.2
        (fun spec hsmall => hspelled gap _ spec hsmall htrim) fun n => hstart gap cs ds n htrim

/-- A single range of `u64` numbers is answered with the bytes it selects, or as unsatisfiable
when it selects none; another unit, and in general what is not such a range, with the whole. -/
theorem range_parsed (value : String) (total : ℕ) :
    (∀ gap cs, ∀ spec : Spec, Header value gap cs → Spelled cs spec → spec.Small →
      Answers spec total (parseRange value total)) ∧
    ((∀ gap cs, Header value gap cs → '-' ∉ cs) → parseRange value total = .full) ∧
    (0 < total → ',' ∉ value.toList → '+' ∉ value.toList →
      (∀ gap cs, ∀ spec : Spec, spec.Small → Header value gap cs → ¬ Spelled cs spec) →
      (∀ gap cs ds n, Header value gap (cs ++ '-' :: ds) → Numeral cs n → n < 2 ^ 64 → n < total) →
      parseRange value total = .full) :=
  ⟨fun _ _ _ h hspelled hsmall => answers_parseRange h hspelled hsmall,
    parseRange_of_no_hyphen, parseRange_of_not_spelled⟩

theorem range_parsed_open : Answers (.from 500) 1000 (parseRange " bytes=500-" 1000) := by
  have hnumeral : Numeral ['5', '0', '0'] 500 := ⟨by decide, by simp, by decide⟩
  refine (range_parsed " bytes=500-" 1000).1 [] ['5', '0', '0', '-'] (.from 500) ?_ (.from hnumeral)
    (show 500 < 2 ^ 64 by decide)
  have hblank : isWhitespace ' ' = true := by decide
  exact ⟨⟨[' '], [], by simpa using hblank, nofun, by decide⟩, nofun⟩

/-- A last position before the first. -/
theorem not_range_parsed : ¬ ∀ (value : String) (total : ℕ),
    (∀ cs, ∀ spec : Spec, Header value [] cs → Spelled cs spec → spec.Ordered →
      Answers spec total (parseRange value total)) ∧
    ((∀ cs, ∀ spec : Spec, Header value [] cs → Spelled cs spec → ¬ spec.Ordered) →
      parseRange value total = .full) := by
  intro h
  have hback : parseRange "bytes=5-3" 10 = .unsatisfiable := by decide
  have hfull := (h "bytes=5-3" 10).2 ?_
  · rw [hback] at hfull
    cases hfull
  · intro cs spec hheader hspelled hordered
    have hstrip := hheader.strip_spelled hspelled
    rw [show stripPrefix "bytes=".toList (trim "bytes=5-3".toList) = some ['5', '-', '3'] by decide,
      Option.some_inj, List.nil_append] at hstrip
    obtain ⟨startS, endS, hsplit, hspec⟩ := hspelled.split
    rw [← hstrip, show splitOnce '-' ['5', '-', '3'] = some (['5'], ['3']) by decide,
      Option.some_inj, Prod.mk.injEq] at hsplit
    obtain ⟨rfl, rfl⟩ := hsplit
    cases spec with
    | closed a b =>
      obtain ⟨⟨-, -, ha⟩, -, -, hb⟩ := hspec
      rw [Spec.Ordered, ← ha, ← hb] at hordered
      exact absurd hordered (by decide)
    | «from» a => cases hspec.2
    | suffix n => cases hspec.1

end ScribeLocal.Api
