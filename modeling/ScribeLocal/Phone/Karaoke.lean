import Mathlib.Tactic

/-!
# Word timing for the highlight

`Karaoke` gives each displayed word a time: that of a recognized word where the two match, and
a share of the gap where they do not. Times are spread in exact arithmetic. What a character is
and how it is classed is left open.
-/
namespace ScribeLocal.Karaoke

/-- What is asked of the characters of a string. -/
structure Characters (α : Type*) where
  isWhitespace : α → Bool
  isLetter : α → Bool
  isNumber : α → Bool
  apostrophe : α
  lowercased : List α → List α

structure Word (α : Type*) where
  w : List α
  startMs : ℤ
  endMs : ℤ

structure Utterance (α : Type*) where
  startMs : ℤ
  endMs : ℤ
  text : List α
  words : List (Word α)

structure Token (α : Type*) where
  text : List α
  startMs : ℤ
  endMs : ℤ
  deriving DecidableEq

/-- How long a word stays lit after it ends. -/
def lingerMs : ℤ := 120

def lookahead : ℕ := 4

variable {α : Type*} (chars : Characters α)

/-- `u.text.split(whereSeparator: \.isWhitespace)` -/
def split (text : List α) : List (List α) :=
  (text.splitOnP chars.isWhitespace).filter fun t => !t.isEmpty

def normalize [DecidableEq α] (s : List α) : List α :=
  let lower := chars.lowercased s
  let stripped := lower.filter fun c => chars.isLetter c || chars.isNumber c || c == chars.apostrophe
  if stripped.isEmpty then lower else stripped

/-- Half away from zero. -/
def rounded (x : ℚ) : ℤ := if 0 ≤ x then ⌊x + 1 / 2⌋ else ⌈x - 1 / 2⌉

/-- The loop of `interpolate`. -/
def spread (span weight : ℚ) : ℚ → List (List α) → List (Token α)
  | _, [] => []
  | cursor, t :: texts =>
    let next := cursor + span * (max 1 t.length : ℕ) / weight
    ⟨t, rounded cursor, rounded next⟩ :: spread span weight next texts

def interpolate (texts : List (List α)) (start stop : ℤ) : List (Token α) :=
  let span : ℤ := max 0 (stop - start)
  let weight : ℕ := max 1 (texts.map List.length).sum
  spread span weight start texts

/-- The recognized word of each displayed word, if one is found. `timed` holds the words from
`next` on. -/
def anchors [DecidableEq α] : List (Word α) → List (List α) → List (Option (Word α))
  | _, [] => []
  | timed, t :: texts =>
    match (timed.take lookahead).findIdx? fun w => normalize chars w.w == normalize chars t with
    | some k => timed[k]? :: anchors (timed.drop (k + 1)) texts
    | none => none :: anchors timed texts

/-- The loop over the displayed words. `run` holds those that wait for the next one with an
anchor. -/
def place (u : Utterance α) : ℤ → List (List α) → List (List α × Option (Word α)) → List (Token α)
  | prevEnd, run, [] => interpolate run prevEnd (max prevEnd (max prevEnd u.endMs))
  | prevEnd, run, (t, none) :: rest => place u prevEnd (run ++ [t]) rest
  | prevEnd, run, (t, some a) :: rest =>
    interpolate run prevEnd (max prevEnd a.startMs) ++
      ⟨t, a.startMs, a.endMs⟩ :: place u a.endMs [] rest

def timed (u : Utterance α) : List (Word α) := u.words.filter fun w => w.startMs < w.endMs

def tokens [DecidableEq α] (u : Utterance α) : List (Token α) :=
  let texts := split chars u.text
  match timed u with
  | [] => if u.startMs < u.endMs then interpolate texts u.startMs u.endMs else []
  | first :: _ =>
    place u (min u.startMs first.startMs) [] (texts.zip (anchors chars (timed u) texts))

/-- `items[i]` -/
def item {β : Type*} (items : List β) (i : ℤ) : Option β := if i < 0 then none else items[i.toNat]?

/-- The loop of `lastStarted`. An index outside the list is fatal: `none`. -/
def search {β : Type*} (items : List β) (ms : ℤ) (start : β → ℤ) (lo hi found : ℤ) : Option ℤ :=
  if lo ≤ hi then
    let mid := (lo + hi) / 2
    match item items mid with
    | none => none
    | some x =>
      if start x ≤ ms then search items ms start (mid + 1) hi mid
      else search items ms start lo (mid - 1) found
  else some found
termination_by (hi + 1 - lo).toNat
decreasing_by all_goals omega

def lastStarted {β : Type*} (items : List β) (ms : ℤ) (start : β → ℤ) : Option ℤ :=
  search items ms start 0 (items.length - 1) (-1)

/-- The word that is lit, if one is. -/
def activeToken (tokens : List (Token α)) (ms : ℤ) : Option (Option ℤ) :=
  (lastStarted tokens ms Token.startMs).bind fun i =>
    if 0 ≤ i then (item tokens i).map fun t => if ms < t.endMs + lingerMs then some i else none
    else some none

/-! ## Tokens in order -/

/-- The last thing that starts at or before `ms`, or -1 if none does. -/
structure IsLastStarted {β : Type*} (items : List β) (start : β → ℤ) (ms i : ℤ) : Prop where
  started : i = -1 ∨ ∃ x ∈ item items i, start x ≤ ms
  later : ∀ (j : ℕ) x, i < j → items[j]? = some x → ms < start x

/-- One token for each word, sorted by their starts, so that the search finds the last one. -/
structure InOrder (texts : List (List α)) (tokens : List (Token α)) : Prop where
  texts_eq : tokens.map Token.text = texts
  sorted : tokens.Pairwise fun t t' => t.startMs ≤ t'.startMs
  found : ∀ ms, ∃ i, lastStarted tokens ms Token.startMs = some i ∧
    IsLastStarted tokens Token.startMs ms i
  lit : ∀ ms, ∃ r, activeToken tokens ms = some r ∧
    ∀ i ∈ r, IsLastStarted tokens Token.startMs ms i

/-- Where unmatched words stand between two matches, the first match ends before the second
one starts. -/
def GapsOpen (anchors : List (Option (Word α))) : Prop :=
  ∀ before after a b (n : ℕ),
    anchors = before ++ some a :: (List.replicate (n + 1) none ++ some b :: after) →
      a.endMs ≤ b.startMs

/-! ## The search -/

section Search
variable {β : Type*} {items : List β} {start : β → ℤ} {ms lo hi : ℤ}

theorem item_natCast (items : List β) (j : ℕ) : item items j = items[j]? := by
  rw [item, if_neg (by omega), Int.toNat_natCast]

/-- What starts no later than a thing behind it, when the starts are sorted. -/
theorem start_le_of_sorted (hsorted : items.Pairwise fun x y => start x ≤ start y) {j k : ℕ}
    {x y : β} (hx : items[j]? = some x) (hy : items[k]? = some y) (hjk : j ≤ k) :
    start x ≤ start y := by
  obtain ⟨hj, rfl⟩ := List.getElem?_eq_some_iff.mp hx
  obtain ⟨hk, rfl⟩ := List.getElem?_eq_some_iff.mp hy
  obtain heq | hlt := hjk.eq_or_lt
  · subst heq
    exact le_rfl
  · exact List.pairwise_iff_getElem.mp hsorted j k hj hk hlt

/-- Everything before `lo` has started, and nothing behind `hi`. -/
structure Narrowed (items : List β) (start : β → ℤ) (ms lo hi : ℤ) : Prop where
  nonneg : 0 ≤ lo
  lt_length : hi < items.length
  le : lo ≤ hi + 1
  started : ∀ (j : ℕ) x, j < lo → items[j]? = some x → start x ≤ ms
  later : ∀ (j : ℕ) x, hi < j → items[j]? = some x → ms < start x

theorem Narrowed.isLastStarted (h : Narrowed items start ms lo hi) (hle : hi < lo) :
    IsLastStarted items start ms (lo - 1) where
  started := by
    have hlo := h.nonneg
    have hlength := h.lt_length
    have hle' := h.le
    by_cases hzero : lo = 0
    · exact .inl (by omega)
    · obtain ⟨j, hj⟩ : ∃ j : ℕ, lo - 1 = j := ⟨(lo - 1).toNat, by omega⟩
      have hlt : j < items.length := by omega
      have hget : items[j]? = some items[j] := List.getElem?_eq_getElem hlt
      exact .inr ⟨items[j], by rwa [hj, item_natCast], h.started j _ (by omega) hget⟩
  later j x hj := h.later j x (by have hle' := h.le; omega)

theorem search_narrowed (hsorted : items.Pairwise fun x y => start x ≤ start y)
    (h : Narrowed items start ms lo hi) :
    ∃ i, search items ms start lo hi (lo - 1) = some i ∧ IsLastStarted items start ms i := by
  induction hd : (hi + 1 - lo).toNat using Nat.strong_induction_on generalizing lo hi with
  | _ d ih =>
    rw [search]
    by_cases hle : lo ≤ hi
    · have hlo := h.nonneg
      have hlength := h.lt_length
      obtain ⟨mid, hmid⟩ : ∃ mid : ℕ, (lo + hi) / 2 = mid := ⟨((lo + hi) / 2).toNat, by omega⟩
      have hlt : mid < items.length := by omega
      have hget : items[mid]? = some items[mid] := List.getElem?_eq_getElem hlt
      rw [if_pos hle]
      simp only [hmid, item_natCast, hget]
      by_cases hstart : start items[mid] ≤ ms
      · rw [if_pos hstart]
        have hnarrowed : Narrowed items start ms (mid + 1) hi :=
          ⟨by omega, hlength, by omega, fun j x hj hx =>
            (start_le_of_sorted hsorted hx hget (by omega)).trans hstart, h.later⟩
        have hnext := ih _ (by omega) hnarrowed rfl
        rwa [add_sub_cancel_right] at hnext
      · rw [if_neg hstart]
        have hnarrowed : Narrowed items start ms lo (mid - 1) :=
          ⟨hlo, by omega, by omega, h.started, fun j x hj hx =>
            (not_le.mp hstart).trans_le (start_le_of_sorted hsorted hget hx (by omega))⟩
        exact ih _ (by omega) hnarrowed rfl
    · rw [if_neg hle]
      exact ⟨lo - 1, rfl, h.isLastStarted (by omega)⟩

/-- The search finds the last thing that has started, in a sorted list. -/
theorem lastStarted_of_sorted (hsorted : items.Pairwise fun x y => start x ≤ start y) (ms : ℤ) :
    ∃ i, lastStarted items ms start = some i ∧ IsLastStarted items start ms i := by
  have hall : Narrowed items start ms 0 (items.length - 1) := by
    refine ⟨le_rfl, by omega, by omega, fun j x hj => by omega, fun j x hj hx => ?_⟩
    have hlt := (List.getElem?_eq_some_iff.mp hx).1
    omega
  exact search_narrowed hsorted hall

end Search

/-! ## Spread times -/

theorem rounded_intCast (z : ℤ) : rounded z = z := by
  rw [rounded]
  split
  · rw [Int.floor_eq_iff]
    constructor <;> linarith
  · rw [Int.ceil_eq_iff]
    constructor <;> linarith

theorem rounded_mono {x y : ℚ} (h : x ≤ y) : rounded x ≤ rounded y := by
  rw [rounded, rounded]
  split
  case isTrue hx =>
    rw [if_pos (hx.trans h)]
    exact Int.floor_mono (by linarith)
  case isFalse hx =>
    split
    case isTrue hy =>
      have hneg : ⌈x - 1 / 2⌉ ≤ 0 := Int.ceil_le.mpr (by push_cast; linarith)
      have hpos : 0 ≤ ⌊y + 1 / 2⌋ := Int.le_floor.mpr (by push_cast; linarith)
      exact hneg.trans hpos
    case isFalse hy => exact Int.ceil_mono (by linarith)

variable {span weight cursor : ℚ} {texts run : List (List α)} {p stop lo : ℤ} {u : Utterance α}
  {l : List (List α × Option (Word α))} {gap : Bool}

/-- How the words weigh on the gap. -/
def total (texts : List (List α)) : ℕ := (texts.map fun t => max 1 t.length).sum

theorem map_text_spread : (spread span weight cursor texts).map Token.text = texts := by
  induction texts generalizing cursor with
  | nil => rfl
  | cons t texts ih => rw [spread, List.map_cons, ih]

theorem mem_spread (hspan : 0 ≤ span) (hweight : 0 < weight) {t : Token α}
    (ht : t ∈ spread span weight cursor texts) :
    rounded cursor ≤ t.startMs ∧ t.startMs ≤ rounded (cursor + span * total texts / weight) := by
  induction texts generalizing cursor with
  | nil => cases ht
  | cons first texts ih =>
    have htotal : ((total (first :: texts) : ℕ) : ℚ) =
        (max 1 first.length : ℕ) + (total texts : ℕ) := by
      simp [total]
    have hfirst : 0 ≤ span * (max 1 first.length : ℕ) / weight := by positivity
    have hall : 0 ≤ span * (total (first :: texts) : ℕ) / weight := by positivity
    rw [spread, List.mem_cons] at ht
    cases ht with
    | inl ht =>
      rw [ht]
      exact ⟨le_rfl, rounded_mono (by linarith)⟩
    | inr ht =>
      obtain ⟨hlow, hhigh⟩ := ih ht
      have hsum : cursor + span * (max 1 first.length : ℕ) / weight + span * total texts / weight =
          cursor + span * total (first :: texts) / weight := by
        rw [htotal]
        ring
      rw [hsum] at hhigh
      exact ⟨(rounded_mono (by linarith)).trans hlow, hhigh⟩

theorem sorted_spread (hspan : 0 ≤ span) (hweight : 0 < weight) :
    (spread span weight cursor texts).Pairwise fun t t' => t.startMs ≤ t'.startMs := by
  induction texts generalizing cursor with
  | nil => exact List.Pairwise.nil
  | cons first texts ih =>
    rw [spread, List.pairwise_cons]
    refine ⟨fun t ht => ?_, ih⟩
    have hfirst : 0 ≤ span * (max 1 first.length : ℕ) / weight := by positivity
    exact (rounded_mono (by linarith)).trans (mem_spread hspan hweight ht).1

theorem total_le (h : ∀ t ∈ texts, t ≠ []) : total texts ≤ max 1 (texts.map List.length).sum := by
  have heq : (texts.map fun t => max 1 t.length) = texts.map List.length :=
    List.map_congr_left fun t ht => max_eq_right (List.length_pos_of_ne_nil (h t ht))
  rw [total, heq]
  exact le_max_right _ _

theorem map_text_interpolate : (interpolate texts p stop).map Token.text = texts :=
  map_text_spread

theorem sorted_interpolate :
    (interpolate texts p stop).Pairwise fun t t' => t.startMs ≤ t'.startMs :=
  sorted_spread (by positivity) (by positivity)

theorem le_of_mem_interpolate {t : Token α} (ht : t ∈ interpolate texts p stop) :
    p ≤ t.startMs := by
  have hle := (mem_spread (by positivity) (by positivity) ht).1
  rwa [rounded_intCast] at hle

/-- Words that have letters end within the gap. -/
theorem le_stop_of_mem_interpolate (htexts : ∀ t ∈ texts, t ≠ []) (hstop : p ≤ stop)
    {t : Token α} (ht : t ∈ interpolate texts p stop) : t.startMs ≤ stop := by
  have hle := (mem_spread (by positivity) (by positivity) ht).2
  refine hle.trans ((rounded_mono ?_).trans_eq (rounded_intCast stop))
  have htotal : ((total texts : ℕ) : ℚ) ≤ (max 1 (texts.map List.length).sum : ℕ) := by
    exact_mod_cast total_le htexts
  have hpos : (0 : ℚ) < (max 1 (texts.map List.length).sum : ℕ) := by positivity
  have hspan : ((max 0 (stop - p) : ℤ) : ℚ) = stop - p := by
    rw [max_eq_right (by omega)]
    push_cast
    rfl
  have hgap : (0 : ℚ) ≤ stop - p := by
    have hcast : (p : ℚ) ≤ stop := by exact_mod_cast hstop
    linarith
  have hshare : ((stop : ℚ) - p) * (total texts : ℕ) / (max 1 (texts.map List.length).sum : ℕ) ≤
      stop - p := by
    rw [div_le_iff₀ hpos]
    exact mul_le_mul_of_nonneg_left htotal hgap
  rw [hspan]
  linarith

theorem head_interpolate (htexts : texts ≠ []) :
    ∃ t ∈ interpolate texts p stop, t.startMs = p := by
  cases texts with
  | nil => exact absurd rfl htexts
  | cons first texts => exact ⟨_, List.mem_cons_self, rounded_intCast p⟩

/-! ## Tokens between anchors -/

/-- The anchors of words. -/
def anchored (l : List (List α × Option (Word α))) : List (Word α) := l.filterMap Prod.snd

/-- `GapsOpen` along the loop, which has `p` as its `prevEnd` and words waiting if `gap`. -/
def Meets : ℤ → Bool → List (Option (Word α)) → Prop
  | _, _, [] => True
  | p, _, none :: anchors => Meets p true anchors
  | p, gap, some a :: anchors => (gap = true → p ≤ a.startMs) ∧ Meets a.endMs false anchors

theorem map_text_place : (place u p run l).map Token.text = run ++ l.map Prod.fst := by
  induction l generalizing p run with
  | nil => rw [place, map_text_interpolate, List.map_nil, List.append_nil]
  | cons e l ih =>
    obtain ⟨t, _ | a⟩ := e
    · rw [place, ih, List.append_assoc]
      rfl
    · rw [place, List.map_append, map_text_interpolate, List.map_cons, ih]
      rfl

/-- No token starts before the end that the loop has reached, and the anchors to come. -/
theorem le_of_mem_place (hlo : lo ≤ p)
    (hl : ∀ a ∈ anchored l, lo ≤ a.startMs ∧ a.startMs < a.endMs) {t : Token α}
    (ht : t ∈ place u p run l) : lo ≤ t.startMs := by
  induction l generalizing p run with
  | nil => exact hlo.trans (le_of_mem_interpolate ht)
  | cons e l ih =>
    obtain ⟨w, _ | a⟩ := e
    · exact ih hlo hl ht
    · obtain ⟨hstart, hend⟩ := hl a List.mem_cons_self
      have hl' : ∀ b ∈ anchored l, lo ≤ b.startMs ∧ b.startMs < b.endMs := fun b hb =>
        hl b (List.mem_cons_of_mem _ hb)
      rw [place, List.mem_append, List.mem_cons] at ht
      obtain ht | rfl | ht := ht
      · exact hlo.trans (le_of_mem_interpolate ht)
      · exact hstart
      · exact ih (by omega) hl' ht

/-- The tokens are sorted exactly if every gap is open. -/
theorem sorted_place_iff (hrun : ∀ t ∈ run, t ≠ []) (hl : ∀ e ∈ l, e.1 ≠ [])
    (hsorted : (anchored l).Pairwise fun a b => a.startMs ≤ b.startMs)
    (hpos : ∀ a ∈ anchored l, a.startMs < a.endMs) :
    (place u p run l).Pairwise (fun t t' => t.startMs ≤ t'.startMs) ↔
      Meets p (!run.isEmpty) (l.map Prod.snd) := by
  induction l generalizing p run with
  | nil => exact iff_of_true sorted_interpolate trivial
  | cons e l ih =>
    have hl' : ∀ e ∈ l, e.1 ≠ [] := fun e he => hl e (List.mem_cons_of_mem _ he)
    obtain ⟨w, _ | a⟩ := e
    · have hw : ∀ t ∈ run ++ [w], t ≠ [] := by
        intro t ht
        cases List.mem_append.mp ht with
        | inl ht => exact hrun t ht
        | inr ht => exact List.mem_singleton.mp ht ▸ hl _ List.mem_cons_self
      have hiff := @ih (run ++ [w]) p hw hl' hsorted hpos
      have hgap : (!(run ++ [w]).isEmpty) = true := by simp
      rwa [hgap] at hiff
    · have hsorted' := List.pairwise_cons.mp hsorted
      have hpos' : ∀ b ∈ anchored l, b.startMs < b.endMs := fun b hb =>
        hpos b (List.mem_cons_of_mem _ hb)
      have hend : a.startMs < a.endMs := hpos a List.mem_cons_self
      have hlater : ∀ t ∈ place u a.endMs [] l, a.startMs ≤ t.startMs := fun t ht =>
        le_of_mem_place hend.le (fun b hb => ⟨hsorted'.1 b hb, hpos' b hb⟩) ht
      have hrest := @ih [] a.endMs (by simp) hl' hsorted'.2 hpos'
      rw [place, List.pairwise_append, List.pairwise_cons, hrest]
      constructor
      · rintro ⟨-, ⟨-, hmeets⟩, hcross⟩
        refine ⟨fun hgap => ?_, hmeets⟩
        -- the first of the waiting words starts at the end of the match before
        obtain ⟨t, ht, rfl⟩ := @head_interpolate _ run p (max p a.startMs) (by
          rintro rfl
          cases hgap)
        exact hcross t ht _ List.mem_cons_self
      · rintro ⟨hgap, hmeets⟩
        refine ⟨sorted_interpolate, ⟨hlater, hmeets⟩, fun t ht t' ht' => ?_⟩
        have hne : run ≠ [] := by
          rintro rfl
          cases ht
        have hle := hgap (by simp [hne])
        have hstop := le_stop_of_mem_interpolate hrun (le_max_left _ _) ht
        rw [max_eq_right hle] at hstop
        cases List.mem_cons.mp ht' with
        | inl ht' => exact hstop.trans (by rw [ht'])
        | inr ht' => exact hstop.trans (hlater t' ht')

/-! ## Gaps -/

section Gaps
variable {anchors : List (Option (Word α))} {a : Word α}

/-- The first anchor to come starts at `p` or later, if there are words before it. -/
def Reaches (p : ℤ) (gap : Bool) (anchors : List (Option (Word α))) : Prop :=
  ∀ (n : ℕ) b after, anchors = List.replicate n none ++ some b :: after →
    gap = true ∨ 0 < n → p ≤ b.startMs

theorem reaches_nil : Reaches p gap ([] : List (Option (Word α))) := by
  intro n b after h
  simp at h

theorem reaches_none : Reaches p gap (none :: anchors) ↔ Reaches p true anchors := by
  constructor
  · rintro h n b after rfl -
    exact h (n + 1) b after rfl (.inr n.succ_pos)
  · intro h n b after heq _
    cases n with
    | zero => cases heq
    | succ n => exact h n b after (List.cons.inj heq).2 (.inl rfl)

theorem reaches_some : Reaches p gap (some a :: anchors) ↔ (gap = true → p ≤ a.startMs) := by
  constructor
  · intro h hgap
    exact h 0 a anchors rfl (.inl hgap)
  · intro h n b after heq hgap
    cases n with
    | zero =>
      cases heq
      exact h (hgap.resolve_right (lt_irrefl 0))
    | succ n => cases heq

theorem gapsOpen_nil : GapsOpen ([] : List (Option (Word α))) := by
  intro before after a b n h
  simp at h

theorem gapsOpen_none : GapsOpen (none :: anchors) ↔ GapsOpen anchors := by
  constructor
  · rintro h before after a b n rfl
    exact h (none :: before) after a b n rfl
  · intro h before after a b n heq
    cases before with
    | nil => cases heq
    | cons e before => exact h before after a b n (List.cons.inj heq).2

theorem gapsOpen_some :
    GapsOpen (some a :: anchors) ↔ Reaches a.endMs false anchors ∧ GapsOpen anchors := by
  constructor
  · intro h
    constructor
    · intro n b after heq hgap
      obtain ⟨n, rfl⟩ : ∃ n', n = n' + 1 := ⟨n - 1, by simp at hgap; omega⟩
      exact h [] after a b n (by rw [heq]; rfl)
    · rintro before after c b n rfl
      exact h (some a :: before) after c b n rfl
  · rintro ⟨hreach, h⟩ before after c b n heq
    cases before with
    | nil =>
      obtain ⟨hhead, htail⟩ := List.cons.inj heq
      cases hhead
      exact hreach (n + 1) b after htail (.inr n.succ_pos)
    | cons e before => exact h before after c b n (List.cons.inj heq).2

theorem meets_iff : Meets p gap anchors ↔ Reaches p gap anchors ∧ GapsOpen anchors := by
  induction anchors generalizing p gap with
  | nil => exact iff_of_true trivial ⟨reaches_nil, gapsOpen_nil⟩
  | cons e anchors ih =>
    cases e with
    | none => rw [Meets, ih, reaches_none, gapsOpen_none]
    | some a => rw [Meets, ih, reaches_some, gapsOpen_some]

end Gaps

/-! ## The matches -/

section Anchors
variable {chars : Characters α} {timed : List (Word α)}

theorem ne_nil_of_mem_split {t : List α} {text : List α} (h : t ∈ split chars text) : t ≠ [] := by
  have hfilter := (List.mem_filter.mp h).2
  rintro rfl
  cases hfilter

variable [DecidableEq α]

theorem length_anchors : (anchors chars timed texts).length = texts.length := by
  induction texts generalizing timed with
  | nil => rfl
  | cons t texts ih =>
    rw [anchors]
    split <;> rw [List.length_cons, List.length_cons, ih]

/-- The words that are matched come in order. -/
theorem sublist_anchors : ((anchors chars timed texts).filterMap id).Sublist timed := by
  induction texts generalizing timed with
  | nil => exact List.nil_sublist _
  | cons t texts ih =>
    rw [anchors]
    split
    case h_1 k _ =>
      have hrest := @ih (timed.drop (k + 1))
      cases hk : timed[k]? with
      | none => exact hrest.trans (List.drop_sublist _ _)
      | some w =>
        obtain ⟨hlt, rfl⟩ := List.getElem?_eq_some_iff.mp hk
        have hdrop := List.drop_sublist k timed
        rw [List.drop_eq_getElem_cons hlt] at hdrop
        exact (hrest.cons_cons _).trans hdrop
    case h_2 => exact ih

theorem map_snd_zip_anchors :
    (texts.zip (anchors chars timed texts)).map Prod.snd = anchors chars timed texts :=
  List.map_snd_zip length_anchors.le

theorem anchored_zip : anchored (texts.zip (anchors chars timed texts)) =
    (anchors chars timed texts).filterMap id := by
  rw [anchored, ← map_snd_zip_anchors, List.filterMap_map, map_snd_zip_anchors]
  rfl

theorem gapsOpen_anchors_nil : GapsOpen (anchors chars [] texts) := by
  intro before after a b n heq
  have hsub := @sublist_anchors _ texts chars [] _
  rw [heq] at hsub
  simp at hsub

end Anchors

theorem inOrder_of_sorted {tokens : List (Token α)} (htexts : tokens.map Token.text = texts)
    (hsorted : tokens.Pairwise fun t t' => t.startMs ≤ t'.startMs) : InOrder texts tokens where
  texts_eq := htexts
  sorted := hsorted
  found := lastStarted_of_sorted hsorted
  lit ms := by
    obtain ⟨i, hfound, hlast⟩ := lastStarted_of_sorted hsorted ms
    rw [activeToken, hfound, Option.bind_some]
    obtain rfl | ⟨t, ht, hstart⟩ := hlast.started
    · exact ⟨none, rfl, by simp⟩
    · by_cases hi : 0 ≤ i
      · rw [if_pos hi, Option.mem_def.mp ht, Option.map_some]
        refine ⟨_, rfl, fun j hj => ?_⟩
        split at hj
        · cases hj
          exact hlast
        · cases hj
      · exact ⟨none, if_neg hi, by simp⟩

theorem pairwise_timed (h : u.words.Pairwise fun a b => a.startMs ≤ b.startMs) :
    (timed u).Pairwise fun a b => a.startMs ≤ b.startMs :=
  h.filter _

/-- For words in the order of their starts, tokens are in order exactly if every gap between two
matches is open. -/
theorem inOrder_iff [DecidableEq α] (chars : Characters α) (u : Utterance α)
    (hwords : u.words.Pairwise fun a b => a.startMs ≤ b.startMs) (hne : tokens chars u ≠ []) :
    InOrder (split chars u.text) (tokens chars u) ↔
      GapsOpen (anchors chars (timed u) (split chars u.text)) := by
  have htimed := pairwise_timed hwords
  have hpos : ∀ a ∈ timed u, a.startMs < a.endMs := fun a ha => by
    simpa using (List.mem_filter.mp ha).2
  rw [tokens] at hne ⊢
  generalize htexts : split chars u.text = texts at hne ⊢
  cases hcases : timed u with
  | nil =>
    rw [hcases] at hne
    dsimp only at hne ⊢
    by_cases hspan : u.startMs < u.endMs
    · rw [if_pos hspan]
      exact iff_of_true (inOrder_of_sorted map_text_interpolate sorted_interpolate)
        gapsOpen_anchors_nil
    · rw [if_neg hspan] at hne
      exact absurd rfl hne
  | cons first rest =>
    rw [hcases] at htimed hpos
    have hsub := @sublist_anchors _ texts chars (first :: rest) _
    rw [← anchored_zip] at hsub
    have hfirst : ∀ a ∈ first :: rest, min u.startMs first.startMs ≤ a.startMs := fun a ha => by
      have hmin := min_le_right u.startMs first.startMs
      cases List.mem_cons.mp ha with
      | inl ha => rwa [ha]
      | inr ha => exact hmin.trans ((List.pairwise_cons.mp htimed).1 a ha)
    have hlead : Reaches (min u.startMs first.startMs) false
        (anchors chars (first :: rest) texts) := by
      intro n b after heq _
      apply hfirst b
      apply hsub.subset
      rw [anchored_zip, heq]
      simp
    have hsorted := @sorted_place_iff _ [] (min u.startMs first.startMs) u
      (texts.zip (anchors chars (first :: rest) texts)) (by simp)
      (fun e he => ne_nil_of_mem_split (htexts ▸ (List.of_mem_zip he).1))
      (htimed.sublist hsub) (fun a ha => hpos a (hsub.subset ha))
    rw [map_snd_zip_anchors, meets_iff] at hsorted
    dsimp only
    have hmap : (place u (min u.startMs first.startMs) []
        (texts.zip (anchors chars (first :: rest) texts))).map Token.text = texts := by
      rw [map_text_place, List.nil_append, List.map_fst_zip length_anchors.ge]
    constructor
    · intro h
      exact (hsorted.mp h.sorted).2
    · intro h
      exact inOrder_of_sorted hmap (hsorted.mpr ⟨hlead, h⟩)

/-- Characters as a program without grapheme clusters would class them. -/
def plain : Characters Char :=
  ⟨Char.isWhitespace, Char.isAlpha, Char.isDigit, '\'', fun s => s.map Char.toLower⟩

/-- The word between two matches has the gap from 400 to 500 ms. -/
theorem inOrder_gap :
    let u : Utterance Char := 
      ⟨0, 900, ['a', ' ', 'b', ' ', 'c'], [⟨['A'], 0, 400⟩, ⟨['c'], 500, 900⟩]⟩
    InOrder (split plain u.text) (tokens plain u) := by
  intro u
  have hanchors : anchors plain (timed u) (split plain u.text) =
      [some ⟨['A'], 0, 400⟩, none, some ⟨['c'], 500, 900⟩] := by rfl
  apply (inOrder_iff plain u (by simp [u]) (by decide)).mpr
  rw [hanchors, gapsOpen_some, gapsOpen_none, gapsOpen_some, reaches_none, reaches_some]
  exact ⟨by simp, reaches_nil, gapsOpen_nil⟩

/-- The first match ends after the second one has started: the word between them starts at
1000 ms, the one behind it at 500. -/
theorem not_inOrder : ¬∀ u : Utterance Char,
    (u.words.Pairwise fun a b => a.startMs ≤ b.startMs) → tokens plain u ≠ [] →
      InOrder (split plain u.text) (tokens plain u) := by
  intro h
  let u : Utterance Char :=
    ⟨0, 1500, ['a', ' ', 'b', ' ', 'c'], [⟨['a'], 0, 1000⟩, ⟨['c'], 500, 1500⟩]⟩
  have htokens : tokens plain u = place u 0 []
      [(['a'], some ⟨['a'], 0, 1000⟩), (['b'], none), (['c'], some ⟨['c'], 500, 1500⟩)] := by rfl
  have hsorted := (h u (by simp [u]) (by decide)).sorted
  rw [htokens, sorted_place_iff (by simp) (by simp) (by simp [anchored]) (by simp [anchored])]
    at hsorted
  simp [Meets] at hsorted

end ScribeLocal.Karaoke
