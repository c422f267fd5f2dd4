import Mathlib.Data.List.SplitBy
import Mathlib.Tactic
import ScribeLocal.Asr.Words

/-!
# The times of a word

`build_words` closes a word at each token with a marker. The end it carries along belongs to
the tokens of all words so far.
-/
namespace ScribeLocal.Asr

/-- A token with its times. -/
structure Token where
  text : List Char
  startMs : Int64
  durMs : Int64
deriving DecidableEq

def Token.endMs (t : Token) : Int64 := t.startMs + t.durMs

/-- The times may be given in any seconds that can be converted. -/
def timed {σ : Type*} (toMs : σ → Int64) (tokens : List String) (ts : List σ)
    (durations : Option (List σ)) : List Token :=
  (tokens.zip ts).zipIdx.map fun tok => ⟨tok.1.1.toList, toMs tok.1.2,
    ((durations.bind fun d => d[tok.2]?).map toMs).getD 0⟩

def Pieces.next (p : Pieces) (t : Token) : Pieces := p.token t.text t.startMs t.durMs

/-- `build_words` for any such seconds. -/
def buildWordsIn {σ : Type*} (toMs : σ → Int64) (text : String) (tokens : List String)
    (timestamps durations : Option (List σ)) (clipMs : Int64) : List AsrWord :=
  match timestamps with
  | none => spreadEvenly text clipMs
  | some ts =>
    if tokens.isEmpty || tokens.length != ts.length then spreadEvenly text clipMs
    else
      let words := ((timed toMs tokens ts durations).foldl Pieces.next ⟨[], [], none, 0⟩).flush.words
      let parts := splitWhitespace text
      if words.length ≤ 1 && 1 < parts.length then
        let spanStart := (words.head?.map AsrWord.startMs).getD 0
        let spanEnd := max ((words.head?.map AsrWord.endMs).getD 0) spanStart
        let step := max (spanEnd - spanStart) 0 / max (Int64.ofNat parts.length) 1
        parts.zipIdx.map fun (w, i) =>
          let s := spanStart + step * Int64.ofNat i
          ⟨w, s, s + step, 1⟩
      else words

theorem foldl_timed (tokens : List String) (ts : List Float32) (durations : Option (List Float32)) :
    pieces tokens ts durations =
      (timed secToMs tokens ts durations).foldl Pieces.next ⟨[], [], none, 0⟩ := by
  rw [timed, List.foldl_map]
  rfl

theorem buildWords_eq : buildWords = buildWordsIn secToMs := by
  funext text tokens timestamps durations clipMs
  cases timestamps with
  | none => rfl
  | some ts =>
    unfold buildWords buildWordsIn
    simp only [foldl_timed]

/-! ## The words by their tokens -/

/-- A word begins at each token with a marker. -/
def groups (toks : List Token) : List (List Token) := toks.splitBy fun _ t => !startsWord t.text

/-- The text of a word, without the markers of its tokens. -/
def spelled (g : List Token) : List Char :=
  trim (g.flatMap fun t => trimStart (t.text.dropWhile (· == '▁')))

/-- Whether there is a word at all. -/
def spoken (g : List Token) : Bool := !(spelled g).isEmpty

/-- A word with the times of its own tokens. -/
structure OwnTimes (g : List Token) (w : AsrWord) : Prop where
  text : w.text = String.ofList (spelled g)
  start : g.head?.map Token.startMs = some w.startMs
  stop : IsGreatest {e | ∃ t ∈ g, t.endMs = e} w.endMs

/-- One of a word's tokens is the last to end, also among the tokens before it. -/
structure EndsLast (since : Int64) (before g : List Token) (t : Token) : Prop where
  mem : t ∈ g
  since_le : since ≤ t.endMs
  start_le : ∀ f ∈ g.head?, f.startMs ≤ t.endMs
  le : ∀ u ∈ before ++ g, u.endMs ≤ t.endMs

variable {p : Pieces} {t : Token} {g : List Token} {gs : List (List Token)} {since : Int64}

theorem max_le_iff' {a b c : Int64} : max a b ≤ c ↔ a ≤ c ∧ b ≤ c := by
  change (if a ≤ b then b else a) ≤ c ↔ _
  split
  · simp only [Int64.le_iff_toInt_le] at *
    omega
  · simp only [Int64.le_iff_toInt_le] at *
    omega

/-- The end that is carried along, after the tokens of a word. -/
def lastEnd (since : Int64) (g : List Token) : Int64 := g.foldl (fun e t => max t.endMs e) since

theorem lastEnd_le_iff {x : Int64} :
    lastEnd since g ≤ x ↔ since ≤ x ∧ ∀ t ∈ g, t.endMs ≤ x := by
  induction g generalizing since with
  | nil => simp [lastEnd]
  | cons t g ih =>
    rw [lastEnd, List.foldl_cons, ← lastEnd, ih, max_le_iff', List.forall_mem_cons]
    tauto

/-- The word that is closed with what is carried along. -/
def closed (since : Int64) (g : List Token) : AsrWord :=
  let start := (g.head?.map Token.startMs).getD 0
  ⟨String.ofList (spelled g), start, max (lastEnd since g) start, 1⟩

def closedWords : Int64 → List (List Token) → List AsrWord
  | _, [] => []
  | since, g :: gs =>
    let rest := closedWords (lastEnd since g) gs
    if spoken g then closed since g :: rest else rest

/-! ## The loop, word by word -/

/-- Tokens without a marker go to the word at hand. -/
theorem foldl_next (hstart : p.start.isSome) (hrest : ∀ t ∈ g, startsWord t.text = false) :
    g.foldl Pieces.next p = ⟨p.words,
      p.text ++ g.flatMap fun t => trimStart (t.text.dropWhile (· == '▁')), p.start,
      lastEnd p.stop g⟩ := by
  induction g generalizing p with
  | nil => simp [lastEnd]
  | cons t g ih =>
    rw [List.forall_mem_cons] at hrest
    have hnext : p.next t = ⟨p.words, p.text ++ trimStart (t.text.dropWhile (· == '▁')), p.start,
        max t.endMs p.stop⟩ := by
      obtain ⟨first, hfirst⟩ := Option.isSome_iff_exists.mp hstart
      simp [Pieces.next, Pieces.token, hrest.1, hfirst, Token.endMs]
    have hrun := @ih (p.next t) (by rw [hnext]; exact hstart) hrest.2
    rw [List.foldl_cons, hrun, hnext]
    simp [lastEnd]

/-- A marker closes the word at hand. -/
theorem next_flush (hstart : p.start.isSome) (h : startsWord t.text = true) :
    p.flush.next t = p.next t := by
  obtain ⟨first, hfirst⟩ := Option.isSome_iff_exists.mp hstart
  simp [Pieces.next, Pieces.token, h, hfirst, Pieces.flush]

/-- What one word leaves behind. -/
theorem foldl_group (hstart : p.start = none) (htext : p.text = [])
    (hrest : ∀ u ∈ g, startsWord u.text = false) :
    (t :: g).foldl Pieces.next p = ⟨p.words,
      (t :: g).flatMap fun t => trimStart (t.text.dropWhile (· == '▁')), some t.startMs,
      lastEnd p.stop (t :: g)⟩ := by
  have hnext : p.next t = ⟨p.words, trimStart (t.text.dropWhile (· == '▁')), some t.startMs,
      max t.endMs p.stop⟩ := by
    simp [Pieces.next, Pieces.token, hstart, htext, Token.endMs]
  rw [List.foldl_cons, hnext, foldl_next (p := ⟨_, _, _, _⟩) rfl hrest]
  simp [lastEnd]

/-- Tokens in words: a marker only at the start of a word, and at the start of each but the
first. -/
structure Grouped (gs : List (List Token)) : Prop where
  ne_nil : ∀ g ∈ gs, g ≠ []
  rest : ∀ g ∈ gs, ∀ t ∈ g.tail, startsWord t.text = false
  first : ∀ g ∈ gs.tail, ∀ t ∈ g.head?, startsWord t.text = true

theorem forall_of_isChain {α : Type*} {q : α → Bool} {a : α} {l : List α}
    (h : (a :: l).IsChain fun _ b => q b = true) : ∀ b ∈ l, q b = true := by
  induction l generalizing a with
  | nil => exact nofun
  | cons b l ih =>
    rw [List.isChain_cons_cons] at h
    exact List.forall_mem_cons.mpr ⟨h.1, ih h.2⟩

/-- Where a list is split, what follows has the property. -/
theorem head_of_isChain {α : Type*} {q : α → Bool} {k : List α} {l : List (List α)}
    (h : (k :: l).IsChain fun a b => ∃ (_ : a ≠ []) (hb : b ≠ []), (!q (b.head hb)) = false) :
    ∀ b ∈ l, ∀ x ∈ b.head?, q x = true := by
  induction l generalizing k with
  | nil => exact nofun
  | cons b l ih =>
    rw [List.isChain_cons_cons] at h
    obtain ⟨⟨-, hb, hq⟩, hrest⟩ := h
    refine List.forall_mem_cons.mpr ⟨fun x hx => ?_, ih hrest⟩
    rw [List.head?_eq_some_head hb, Option.mem_some_iff] at hx
    rwa [Bool.not_eq_false', hx] at hq

theorem grouped_groups (toks : List Token) : Grouped (groups toks) where
  ne_nil := fun g hg => List.ne_nil_of_mem_splitBy hg
  rest := by
    intro g hg t ht
    obtain ⟨f, g, rfl⟩ := List.exists_cons_of_ne_nil (List.ne_nil_of_mem_splitBy hg)
    have hchain : (f :: g).IsChain fun _ t => (!startsWord t.text) = true :=
      List.isChain_of_mem_splitBy hg
    have hunmarked := @forall_of_isChain _ (fun t => !startsWord t.text) f g hchain t ht
    rwa [Bool.not_eq_true'] at hunmarked
  first := by
    intro g hg
    have hbreak := List.isChain_getLast_head_splitBy (fun _ t => !startsWord t.text) toks
    unfold groups at hg
    cases hsplit : toks.splitBy fun _ t => !startsWord t.text with
    | nil => simp [hsplit] at hg
    | cons k gs =>
      rw [hsplit] at hbreak hg
      exact @head_of_isChain _ (fun t => startsWord t.text) k gs hbreak g hg

theorem Grouped.tail (h : Grouped (g :: gs)) : Grouped gs where
  ne_nil := fun k hk => h.ne_nil k (List.mem_cons_of_mem _ hk)
  rest := fun k hk => h.rest k (List.mem_cons_of_mem _ hk)
  first := fun k hk => h.first k (List.mem_of_mem_tail hk)

/-- Whether the word at hand is closed now or by the next marker. -/
theorem foldl_flush (hstart : p.start.isSome) (hne : ∀ g ∈ gs, g ≠ [])
    (hfirst : ∀ g ∈ gs, ∀ t ∈ g.head?, startsWord t.text = true) :
    (gs.flatten.foldl Pieces.next p.flush).flush.words =
      (gs.flatten.foldl Pieces.next p).flush.words := by
  cases gs with
  | nil => simp [Pieces.flush, trim, trimStart]
  | cons g gs =>
    obtain ⟨t, g, rfl⟩ := List.exists_cons_of_ne_nil (hne g (List.mem_cons_self ..))
    have hmarked := hfirst _ (List.mem_cons_self ..) t rfl
    rw [List.flatten_cons, List.cons_append, List.foldl_cons, List.foldl_cons,
      next_flush hstart hmarked]

/-- The words of the loop are those of the groups. -/
theorem words_flush_foldl (hgs : Grouped gs) (hstart : p.start = none) (htext : p.text = []) :
    (gs.flatten.foldl Pieces.next p).flush.words = p.words ++ closedWords p.stop gs := by
  induction gs generalizing p with
  | nil => simp [Pieces.flush, closedWords, htext, trim, trimStart]
  | cons g gs ih =>
    obtain ⟨t, g, rfl⟩ := List.exists_cons_of_ne_nil (hgs.ne_nil _ (List.mem_cons_self ..))
    have hgroup := @foldl_group p t g hstart htext (hgs.rest _ (List.mem_cons_self ..))
    have hflush : ((t :: g).foldl Pieces.next p).flush =
        ⟨if spoken (t :: g) then p.words ++ [closed p.stop (t :: g)] else p.words, [], none,
          lastEnd p.stop (t :: g)⟩ := by
      rw [hgroup]
      simp [Pieces.flush, closed, spoken, spelled]
    have hwords := ih hgs.tail (p := ((t :: g).foldl Pieces.next p).flush) (by rw [hflush])
      (by rw [hflush])
    have hopen : ((t :: g).foldl Pieces.next p).start.isSome := by
      rw [hgroup]
      rfl
    rw [List.flatten_cons, List.foldl_append, ← foldl_flush hopen hgs.tail.ne_nil hgs.first, hwords,
      hflush, closedWords]
    split
    · simp
    · rfl

theorem forall_split_cons {α : Type*} {a : α} {l : List α} {P : List α → α → Prop} :
    (∀ before x after, a :: l = before ++ x :: after → P before x) ↔
      P [] a ∧ ∀ before x after, l = before ++ x :: after → P (a :: before) x := by
  constructor
  · intro h
    exact ⟨h [] a l rfl, fun before x after heq => h (a :: before) x after (by rw [heq]; rfl)⟩
  · rintro ⟨hhead, htail⟩ (_ | ⟨b, before⟩) x after heq
    · cases heq
      exact hhead
    · cases heq
      exact htail before x after rfl

/-- What is carried along is the word's own exactly when one of its tokens is the last to end. -/
theorem ownTimes_closed (hne : g ≠ []) :
    OwnTimes g (closed since g) ↔ ∃ t, EndsLast since [] g t := by
  obtain ⟨f, g, rfl⟩ := List.exists_cons_of_ne_nil hne
  have hbound : ∀ x, (closed since (f :: g)).endMs ≤ x ↔
      (since ≤ x ∧ ∀ t ∈ f :: g, t.endMs ≤ x) ∧ f.startMs ≤ x := by
    intro x
    change max (lastEnd since (f :: g)) f.startMs ≤ x ↔ _
    rw [max_le_iff', lastEnd_le_iff]
  constructor
  · rintro ⟨-, -, ⟨t, ht, heq⟩, -⟩
    obtain ⟨⟨hsince, hall⟩, hstart⟩ := (hbound t.endMs).mp (heq ▸ Int64.le_refl _)
    exact ⟨t, ht, hsince, by simpa using hstart, hall⟩
  · rintro ⟨t, ht, hsince, hstart, hall⟩
    have hle := (hbound t.endMs).mpr ⟨⟨hsince, hall⟩, hstart f rfl⟩
    have hge := ((hbound _).mp (Int64.le_refl _)).1.2
    refine ⟨rfl, rfl, ⟨t, ht, Int64.le_antisymm (hge t ht) hle⟩, ?_⟩
    rintro e ⟨u, hu, rfl⟩
    exact hge u hu

/-- The tokens of the words before count like an end that is carried along. -/
theorem endsLast_lastEnd {k before : List Token} :
    EndsLast (lastEnd since k) before g t ↔ EndsLast since (k ++ before) g t := by
  constructor
  · rintro ⟨hmem, hsince, hstart, hle⟩
    obtain ⟨hsince, hk⟩ := lastEnd_le_iff.mp hsince
    refine ⟨hmem, hsince, hstart, ?_⟩
    rw [List.append_assoc]
    exact List.forall_mem_append.mpr ⟨hk, hle⟩
  · rintro ⟨hmem, hsince, hstart, hle⟩
    rw [List.append_assoc] at hle
    obtain ⟨hk, hle⟩ := List.forall_mem_append.mp hle
    exact ⟨hmem, lastEnd_le_iff.mpr ⟨hsince, hk⟩, hstart, hle⟩

theorem forall₂_closedWords (hne : ∀ g ∈ gs, g ≠ []) :
    List.Forall₂ OwnTimes (gs.filter spoken) (closedWords since gs) ↔
      ∀ before g after, gs = before ++ g :: after → spoken g = true →
        ∃ t, EndsLast since before.flatten g t := by
  induction gs generalizing since with
  | nil => simp [closedWords]
  | cons g gs ih =>
    rw [List.forall_mem_cons] at hne
    rw [@forall_split_cons _ g gs fun before g => spoken g = true →
      ∃ t, EndsLast since before.flatten g t]
    have hrest := @ih (lastEnd since g) hne.2
    simp only [endsLast_lastEnd] at hrest
    by_cases hspoken : spoken g = true
    · simp only [closedWords, hspoken, List.filter_cons_of_pos, if_true, List.forall₂_cons, hrest,
        ownTimes_closed hne.1, List.flatten_cons, List.flatten_nil, forall_true_left]
    · simp only [closedWords, hspoken, List.filter_cons_of_neg, hrest, List.flatten_cons,
        not_false_eq_true, Bool.false_eq_true, if_false, false_imp_iff, true_and]

theorem length_closedWords : (closedWords since gs).length = (gs.filter spoken).length := by
  induction gs generalizing since with
  | nil => rfl
  | cons g gs ih =>
    rw [closedWords]
    by_cases hspoken : spoken g = true
    · simp [hspoken, ih]
    · simp [hspoken, ih]

/-- Without a fallback there is a word for each group with text. -/
theorem buildWordsIn_eq {σ : Type*} (toMs : σ → Int64) {text : String} {tokens : List String}
    {ts : List σ} {durations : Option (List σ)} {clipMs : Int64} (hne : tokens ≠ [])
    (hlen : tokens.length = ts.length)
    (hplain : 1 < ((groups (timed toMs tokens ts durations)).filter spoken).length ∨
      (splitWhitespace text).length ≤ 1) :
    buildWordsIn toMs text tokens (some ts) durations clipMs =
      closedWords 0 (groups (timed toMs tokens ts durations)) := by
  have hwords := @words_flush_foldl ⟨[], [], none, 0⟩ _
    (grouped_groups (timed toMs tokens ts durations)) rfl rfl
  rw [groups, List.flatten_splitBy, ← groups, List.nil_append] at hwords
  have hfallback : ¬ ((closedWords 0 (groups (timed toMs tokens ts durations))).length ≤ 1 ∧
      1 < (splitWhitespace text).length) := by
    rw [length_closedWords]
    omega
  simp [buildWordsIn, hne, hlen, hwords, hfallback]

/-- Each word has the times of its own tokens exactly when one of them is the last to end: not
before zero, and not before a token of an earlier word. -/
theorem own_times_iff {σ : Type*} (toMs : σ → Int64) (text : String) (tokens : List String)
    (ts : List σ) (durations : Option (List σ)) (clipMs : Int64) (hne : tokens ≠ [])
    (hlen : tokens.length = ts.length)
    (hplain : 1 < ((groups (timed toMs tokens ts durations)).filter spoken).length ∨
      (splitWhitespace text).length ≤ 1) :
    List.Forall₂ OwnTimes ((groups (timed toMs tokens ts durations)).filter spoken)
        (buildWordsIn toMs text tokens (some ts) durations clipMs) ↔
      ∀ before g after, groups (timed toMs tokens ts durations) = before ++ g :: after →
        spoken g = true → ∃ t, EndsLast 0 before.flatten g t := by
  rw [buildWordsIn_eq toMs hne hlen hplain]
  exact forall₂_closedWords (grouped_groups _).ne_nil

/-! ## Overlapping tokens -/

/-- Exact seconds, as every finite `f32` is; halves are rounded away from zero. -/
def secondsToMs (s : ℚ) : Int64 :=
  Int64.ofIntClamp (if 0 ≤ s then ⌊s * 1000 + 1 / 2⌋ else ⌈s * 1000 - 1 / 2⌉)

theorem own_times_iff_word : List.Forall₂ OwnTimes
    ((groups (timed secondsToMs ["▁wo", "rd"] [1 / 2, 3 / 5] (some [1 / 10]))).filter spoken)
    (buildWordsIn secondsToMs "word" ["▁wo", "rd"] (some [1 / 2, 3 / 5]) (some [1 / 10]) 900) := by
  have hgroups : groups (timed secondsToMs ["▁wo", "rd"] [1 / 2, 3 / 5] (some [1 / 10])) =
      [[⟨['▁', 'w', 'o'], 500, 100⟩, ⟨['r', 'd'], 600, 0⟩]] := by decide +kernel
  apply (own_times_iff secondsToMs "word" ["▁wo", "rd"] [1 / 2, 3 / 5] (some [1 / 10]) 900
    (by decide) (by decide) (.inr (by decide))).mpr
  rw [hgroups]
  rintro (_ | ⟨k, before⟩) g after heq -
  · cases heq
    exact ⟨⟨['r', 'd'], 600, 0⟩, by decide, by decide, by decide, by decide⟩
  · simp at heq

/-- A long token before a short one. -/
theorem not_own_times : ¬ ∀ (text : String) (tokens : List String) (ts : List ℚ)
    (durations : Option (List ℚ)) (clipMs : Int64), tokens ≠ [] → tokens.length = ts.length →
    ts.Pairwise (· ≤ ·) → (∀ ds ∈ durations, ∀ d ∈ ds, 0 ≤ d) →
    (1 < ((groups (timed secondsToMs tokens ts durations)).filter spoken).length ∨
      (splitWhitespace text).length ≤ 1) →
    List.Forall₂ OwnTimes ((groups (timed secondsToMs tokens ts durations)).filter spoken)
      (buildWordsIn secondsToMs text tokens (some ts) durations clipMs) := by
  intro h
  have hgroups : groups (timed secondsToMs ["▁so", "▁it"] [0, 1 / 2] (some [1, 1 / 10])) =
      [[⟨['▁', 's', 'o'], 0, 1000⟩], [⟨['▁', 'i', 't'], 500, 100⟩]] := by decide +kernel
  have hplain : 1 < ((groups (timed secondsToMs ["▁so", "▁it"] [0, 1 / 2]
      (some [1, 1 / 10]))).filter spoken).length ∨ (splitWhitespace "so it").length ≤ 1 := by
    rw [hgroups]
    decide
  have hown := h "so it" ["▁so", "▁it"] [0, 1 / 2] (some [1, 1 / 10]) 1100 (by decide) (by decide)
    (by norm_num) (by norm_num) hplain
  rw [buildWordsIn_eq secondsToMs (by decide) (by decide) hplain, hgroups] at hown
  -- the first word's end is carried into the second
  obtain ⟨t, hmem, -, -, hle⟩ := (forall₂_closedWords (by decide)).mp hown
    [[⟨['▁', 's', 'o'], 0, 1000⟩]] [⟨['▁', 'i', 't'], 500, 100⟩] [] rfl (by decide)
  obtain rfl := List.mem_singleton.mp hmem
  exact absurd (hle ⟨['▁', 's', 'o'], 0, 1000⟩ (by decide)) (by decide)

end ScribeLocal.Asr
