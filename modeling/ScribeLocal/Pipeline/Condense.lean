import ScribeLocal.Pipeline.Corrections
import ScribeLocal.Pipeline.OwnLines

/-!
# Condensing

Of a text over the budget the model takes notes part by part, and the notes stand for the text
from then on, in as many rounds as are needed and at most four. What the model answers is left
open: its replies may depend on everything it has been asked.
-/
namespace ScribeLocal.Pipeline
open Asr (trim)

inductive Request
  /-- For notes on a part, the `n`th of `total`. -/
  | notes (n total : ℕ) (part : List Char)
  | summary (instructions : String) (roster body : List Char)

namespace Request

def system : Request → String
  | notes _ _ _ => "You take notes on meeting transcripts. Be dense and factual."
  | summary _ _ _ => "You are a meeting-notes assistant. Respond with only JSON."

def user : Request → List Char
  | notes n total part =>
    ("This is part " ++ toString n ++ " of " ++ toString total ++
      " of a meeting transcript. Write dense notes on THIS part only: what was discussed, what " ++
      "was decided, what was assigned to whom, and any numbers, dates or names that matter. " ++
      "Keep speaker names. Do not add a preamble, a conclusion, or anything that is not in " ++
      "this part.\n\n").toList ++ part
  | summary instructions roster body =>
    (instructions ++ "\n\nReturn ONLY a JSON object with keys: \"title\" (string), " ++
      "\"summary\" (string), \"action_items\" (array of strings), \"decisions\" (array of " ++
      "strings), \"topics\" (array of strings). If the transcript is empty or trivial, still " ++
      "return the object with empty values.\n\n").toList ++ roster ++ "Transcript:\n".toList ++ body

def messages (q : Request) : List ChatMessage := [.system q.system, .user (String.ofList q.user)]

/-- The request opens a round. -/
def opens : Request → Bool
  | notes n _ _ => n == 1
  | summary _ _ _ => false

end Request

/-- The answer to the last of the requests so far, unless the call fails. -/
abbrev Chat := List (List ChatMessage) → Option String

section Condense
variable (chat : Chat)

def answer (asked : List Request) : Option (List Char) :=
  (chat (asked.map Request.messages)).map String.toList

/-- The loop over the parts: the notes, and all that has been asked. -/
def takeNotes (total : ℕ) : List (List Char × ℕ) → List Char → List Request →
    Option (List Char) × List Request
  | [], notes, asked => (some notes, asked)
  | (part, i) :: parts, notes, asked =>
    match answer chat (asked ++ [.notes (i + 1) total part]) with
    | none => (none, asked ++ [.notes (i + 1) total part])
    | some text => takeNotes total parts (notes ++ trim text ++ ['\n', '\n'])
        (asked ++ [.notes (i + 1) total part])

/-- Room for the instructions and the reply is left inside the same context. -/
def partBudget (budget : ℕ) : ℕ := budget * 2 / 3

def takeChars (s : List Char) (max : ℕ) : List Char := s.take max

/-- The loop over the rounds that are left. -/
def condenseRounds (budget : ℕ) : ℕ → List Char → List Request → Option (List Char) × List Request
  | 0, body, asked => (some (takeChars body budget), asked)
  | rounds + 1, body, asked =>
    let parts := splitOnLines body (partBudget budget)
    match takeNotes chat parts.length parts.zipIdx [] asked with
    | (none, asked) => (none, asked)
    | (some notes, asked) =>
      if (trim notes).length ≤ budget then (some (trim notes), asked)
      else condenseRounds budget rounds (trim notes) asked

def maxRounds : ℕ := 4

def condense (transcript : List Char) (budget : ℕ) : Option (List Char) × List Request :=
  condenseRounds chat budget maxRounds transcript []

end Condense

/-! ## One round -/

variable {chat : Chat} {asked put a b : List Request} {q : Request} {budget rounds : ℕ}
  {text line notes : List Char} {replies : List (List Char)} {parts : List (List Char × ℕ)}

/-- Some request shows the line to the model. -/
def Shows (asked : List Request) (line : List Char) : Prop := ∃ q ∈ asked, line <:+: q.user

def requests (total : ℕ) (parts : List (List Char × ℕ)) : List Request :=
  parts.map fun p => .notes (p.2 + 1) total p.1

def round (budget : ℕ) (text : List Char) : List Request :=
  requests (splitOnLines text (partBudget budget)).length
    (splitOnLines text (partBudget budget)).zipIdx

/-- The replies one after the other, as `notes` collects them. -/
def noted (replies : List (List Char)) : List Char :=
  replies.flatMap fun text => trim text ++ ['\n', '\n']

/-- The model answers the requests, put after those so far. -/
inductive Answered (chat : Chat) : List Request → List Request → List (List Char) → Prop
  | nil {asked : List Request} : Answered chat asked [] []
  | cons {asked rest : List Request} {q : Request} {text : List Char} {replies : List (List Char)} :
    answer chat (asked ++ [q]) = some text → Answered chat (asked ++ [q]) rest replies →
    Answered chat asked (q :: rest) (text :: replies)

/-- Of the requests, the first are answered and the next is not. -/
inductive Fails (chat : Chat) : List Request → List Request → Prop
  | now {asked : List Request} {q : Request} : answer chat (asked ++ [q]) = none →
    Fails chat asked [q]
  | later {asked rest : List Request} {q : Request} {text : List Char} :
    answer chat (asked ++ [q]) = some text → Fails chat (asked ++ [q]) rest →
    Fails chat asked (q :: rest)

theorem takeNotes_eq (total : ℕ) (parts : List (List Char × ℕ)) (notes : List Char)
    (asked : List Request) :
    (∃ replies, Answered chat asked (requests total parts) replies ∧
      takeNotes chat total parts notes asked =
        (some (notes ++ noted replies), asked ++ requests total parts)) ∨
    (∃ put, put <+: requests total parts ∧ Fails chat asked put ∧
      takeNotes chat total parts notes asked = (none, asked ++ put)) := by
  induction parts generalizing notes asked with
  | nil => exact .inl ⟨[], .nil, by simp [takeNotes, noted, requests]⟩
  | cons p parts ih =>
    obtain ⟨part, i⟩ := p
    have hcons : requests total ((part, i) :: parts) =
        .notes (i + 1) total part :: requests total parts := rfl
    rw [takeNotes, hcons]
    cases hans : answer chat (asked ++ [.notes (i + 1) total part]) with
    | none => exact .inr ⟨_, List.prefix_append _ _, .now hans, rfl⟩
    | some text =>
      rcases ih (notes ++ trim text ++ ['\n', '\n']) (asked ++ [.notes (i + 1) total part]) with
        ⟨replies, hall, heq⟩ | ⟨put, hput, hfails, heq⟩
      · refine .inl ⟨text :: replies, .cons hans hall, ?_⟩
        dsimp only
        rw [heq]
        simp [noted]
      · refine .inr ⟨.notes (i + 1) total part :: put, ?_, .later hans hfails, ?_⟩
        · exact List.prefix_cons_inj _ |>.mpr hput
        · dsimp only
          rw [heq, List.append_assoc]
          rfl

theorem Answered.mem_replies (h : Answered chat asked put replies) (hput : put = a ++ q :: b) :
    ∃ text ∈ replies, answer chat (asked ++ a ++ [q]) = some text := by
  induction h generalizing a with
  | nil => cases a <;> cases hput
  | @cons asked rest q' text replies hans hrest ih =>
    cases a with
    | nil =>
      obtain ⟨rfl, rfl⟩ := List.cons.inj hput
      exact ⟨text, List.mem_cons_self, by rwa [List.append_nil]⟩
    | cons q'' a =>
      obtain ⟨rfl, rfl⟩ := List.cons.inj hput
      obtain ⟨text', hmem, heq⟩ := ih rfl
      refine ⟨text', List.mem_cons_of_mem _ hmem, ?_⟩
      rwa [List.append_cons asked q']

/-- The request that is not answered is the last one put. -/
theorem Fails.last (h : Fails chat asked put) :
    ∃ a q, put = a ++ [q] ∧ answer chat (asked ++ put) = none := by
  induction h with
  | now hnone => exact ⟨[], _, rfl, hnone⟩
  | @later asked rest q text _ _ ih =>
    obtain ⟨a, q', rfl, hnone⟩ := ih
    refine ⟨q :: a, q', rfl, ?_⟩
    rwa [List.append_assoc, List.singleton_append] at hnone

theorem Fails.eq_nil (h : Fails chat asked put) (hput : put = a ++ q :: b)
    (hnone : answer chat (asked ++ a ++ [q]) = none) : b = [] := by
  induction h generalizing a with
  | now _ =>
    cases a with
    | nil => exact (List.cons.inj hput).2.symm
    | cons _ a => cases a <;> cases (List.cons.inj hput).2
  | @later asked rest q' text hans _ ih =>
    cases a with
    | nil =>
      obtain ⟨rfl, -⟩ := List.cons.inj hput
      rw [List.append_nil, hans] at hnone
      cases hnone
    | cons q'' a =>
      obtain ⟨rfl, rfl⟩ := List.cons.inj hput
      apply ih rfl
      rwa [← List.append_cons asked q']

theorem mem_requests {total : ℕ} (h : q ∈ requests total parts) :
    ∃ part i, (part, i) ∈ parts ∧ q = .notes (i + 1) total part := by
  obtain ⟨⟨part, i⟩, hmem, rfl⟩ := List.mem_map.mp h
  exact ⟨part, i, hmem, rfl⟩

/-- The loop of `split_on_lines` moves whole lines. -/
theorem exists_foldl_push (groups : List (List (List Char))) (held ls : List (List Char)) :
    ∃ (groups' : List (List (List Char))) (held' : List (List Char)),
      ls.foldl (Parts.push budget) ⟨groups.map joined, joined held⟩ =
        ⟨groups'.map joined, joined held'⟩ ∧
      groups'.flatten ++ held' = groups.flatten ++ held ++ ls := by
  induction ls generalizing groups held with
  | nil => exact ⟨groups, held, rfl, (List.append_nil _).symm⟩
  | cons line ls ih =>
    rw [List.foldl_cons, Parts.push, Parts.makeRoom]
    split
    · obtain ⟨groups', held', heq, hlines⟩ := ih (groups ++ [held]) [line]
      refine ⟨groups', held', ?_, ?_⟩
      · rw [← heq, List.map_append, joined_singleton]
        rfl
      · rw [hlines]
        simp
    · obtain ⟨groups', held', heq, hlines⟩ := ih groups (held ++ [line])
      refine ⟨groups', held', ?_, ?_⟩
      · rw [← heq, joined_append, joined_singleton, List.append_assoc]
      · rw [hlines]
        simp

/-- Unless the text is blank, each part is some of its lines. -/
theorem exists_groups (text : List Char) (budget : ℕ) : (∀ line ∈ lines text, BlankLine line) ∨
    ∃ (groups : List (List (List Char))) (dropped : List (List Char)),
      lines text = groups.flatten ++ dropped ∧ (∀ line ∈ dropped, BlankLine line) ∧
      splitOnLines text budget = groups.map joined := by
  obtain ⟨groups, held, heq, hlines⟩ := @exists_foldl_push budget [] [] (lines text)
  rw [List.map_nil, joined_nil] at heq
  rw [List.flatten_nil, List.nil_append, List.nil_append] at hlines
  rw [splitOnLines, heq]
  by_cases hblank : ∀ line ∈ held, BlankLine line
  · have htrim : trim (joined held) = [] := trim_joined_eq_nil_iff.mpr hblank
    simp only [htrim, List.isEmpty_nil, if_true]
    by_cases hgroups : groups = []
    · rw [hgroups, List.flatten_nil, List.nil_append] at hlines
      exact .inl (hlines ▸ hblank)
    · rw [if_neg (by simp [hgroups])]
      exact .inr ⟨groups, held, hlines.symm, hblank, rfl⟩
  · have htrim : trim (joined held) ≠ [] := by rwa [ne_eq, trim_joined_eq_nil_iff]
    refine .inr ⟨groups ++ [held], [], by simp [← hlines], by simp, ?_⟩
    simp only [List.isEmpty_iff, htrim, if_false, List.append_eq_nil_iff, List.cons_ne_nil, and_false,
      List.map_append, List.map_cons, List.map_nil]

theorem infix_joined {ls : List (List Char)} (h : line ∈ ls) : line <:+: joined ls := by
  have hmem : line ++ ['\n'] ∈ ls.map (· ++ ['\n']) := List.mem_map_of_mem h
  rw [joined, List.flatMap_def]
  exact (List.prefix_append line ['\n']).isInfix.trans (List.infix_of_mem_flatten hmem)

/-- What a text says, the requests of its round show. -/
theorem shows_round (h : Said text line) : Shows (round budget text) line := by
  rcases exists_groups text (partBudget budget) with hblank | ⟨groups, dropped, hlines, hblank, heq⟩
  · exact absurd (hblank line h.1) h.2
  · have hmem := h.1
    rw [hlines, List.mem_append] at hmem
    have hkept := hmem.resolve_right fun hd => h.2 (hblank line hd)
    obtain ⟨group, hgroup, hline⟩ := List.mem_flatten.mp hkept
    have hpart : joined group ∈ splitOnLines text (partBudget budget) :=
      heq ▸ List.mem_map_of_mem hgroup
    obtain ⟨i, hi⟩ := List.mem_iff_getElem?.mp hpart
    have hzip : (joined group, i) ∈ (splitOnLines text (partBudget budget)).zipIdx :=
      List.mem_zipIdx_iff_getElem?.mpr hi
    exact ⟨_, List.mem_map_of_mem hzip, (infix_joined hline).trans (List.suffix_append _ _).isInfix⟩

/-- A round has one request that opens it. -/
theorem countP_opens_round : (round budget text).countP Request.opens = 1 := by
  have hne := splitOnLines_ne_nil text (partBudget budget)
  rw [round, requests, List.countP_map]
  generalize (splitOnLines text (partBudget budget)).length = total
  cases hs : splitOnLines text (partBudget budget) with
  | nil => exact absurd hs hne
  | cons part parts =>
    rw [List.zipIdx_cons, List.countP_cons_of_pos rfl, List.countP_eq_zero.mpr]
    intro p hp hopens
    have hpos := List.le_snd_of_mem_zipIdx hp
    simp only [Function.comp_apply, Request.opens, beq_iff_eq] at hopens
    omega

/-- Of a text that says something, the requests hold parts that fit, or single lines. -/
theorem fits_round (hsaid : ∃ line, Said text line) (h : q ∈ round budget text) :
    ∃ n total part, q = .notes n total part ∧ 1 ≤ n ∧ n ≤ total ∧
      FitsOrLine (partBudget budget) part := by
  obtain ⟨part, i, hmem, rfl⟩ := mem_requests h
  have hget := List.mem_zipIdx_iff_getElem?.mp hmem
  obtain ⟨hlt, -⟩ := List.getElem?_eq_some_iff.mp hget
  obtain ⟨line, hline, hnot⟩ := hsaid
  exact ⟨i + 1, _, part, rfl, by omega, hlt,
    fitsOrLine_of_mem ⟨line, hline, hnot⟩ (List.mem_of_getElem? hget)⟩

/-- What a reply to a part says, the notes of the round say. -/
theorem said_notes {reply : List Char} (hmem : reply ∈ replies) (h : Said (trim reply) line) :
    Said (trim (noted replies)) line := by
  have hne : trim reply ≠ [] := by
    intro hnil
    rw [hnil] at h
    cases h.1
  have htidy := tidy_trim hne
  refine ⟨OwnLines.mem_lines (OwnLines.trim ?_ htidy) htidy h.1, h.2⟩
  obtain ⟨before, after, rfl⟩ := List.append_of_mem hmem
  refine ⟨noted before, '\n' :: '\n' :: noted after, by simp [noted], ?_, by simp⟩
  intro c hc
  rcases List.eq_nil_or_concat before with rfl | ⟨earlier, last, rfl⟩
  · cases hc
  · simpa [noted, eq_comm] using hc

/-! ## All the rounds -/

/-- The line is shown to the model in a later request, or `notes` is the beginning of a text that
says it, and the whole of that text unless no round was left. -/
def Kept (budget rounds : ℕ) (put later : List Request) (notes line : List Char) : Prop :=
  Shows later line ∨ ∃ final, Said final line ∧ notes = final.take budget ∧
    (final.length ≤ budget ∨ put.countP Request.opens = rounds)

/-- What `rounds` rounds make of a text: `put` is what they asked. -/
structure Condensed (chat : Chat) (budget rounds : ℕ) (text : List Char) (asked put : List Request)
    (result : Option (List Char)) : Prop where
  fits : ∀ q ∈ put, ∃ n total part, q = .notes n total part ∧ 1 ≤ n ∧ n ≤ total ∧
    FitsOrLine (partBudget budget) part
  opens_le : put.countP Request.opens ≤ rounds
  last : result = none → ∃ a q, put = a ++ [q] ∧ answer chat (asked ++ put) = none
  unanswered : ∀ a q b, put = a ++ q :: b → answer chat (asked ++ a ++ [q]) = none →
    b = [] ∧ result = none
  length_le : ∀ notes ∈ result, notes.length ≤ budget
  shows_text : 0 < rounds → ∀ notes ∈ result, ∀ line, Said text line → Shows put line
  reads : ∀ notes ∈ result, ∀ line, Said text line → Kept budget rounds put put notes line
  hands_on : ∀ notes ∈ result, ∀ a q b, put = a ++ q :: b → ∀ reply,
    answer chat (asked ++ a ++ [q]) = some reply → ∀ line, Said (trim reply) line →
    Kept budget rounds put b notes line

/-- No round is left. -/
theorem condensed_zero (text : List Char) :
    Condensed chat budget 0 text asked [] (some (text.take budget)) where
  fits _ hq := absurd hq List.not_mem_nil
  opens_le := le_rfl
  last h := by cases h
  unanswered a q b h := absurd h.symm (by simp)
  length_le := by
    rintro notes ⟨⟩
    exact List.length_take_le budget text
  shows_text h := absurd h (lt_irrefl 0)
  reads := by
    rintro notes ⟨⟩ line hline
    exact .inr ⟨text, hline, rfl, .inr rfl⟩
  hands_on := by
    intro notes _ a q b h
    exact absurd h.symm (by simp)

/-- A call of the round fails. -/
theorem condensed_failed (hsaid : ∃ line, Said text line) (hput : put <+: round budget text)
    (hfails : Fails chat asked put) : Condensed chat budget (rounds + 1) text asked put none where
  fits _ hq := fits_round hsaid (hput.subset hq)
  opens_le := by
    have hle := hput.sublist.countP_le (p := Request.opens)
    rw [countP_opens_round] at hle
    omega
  last _ := hfails.last
  unanswered _ _ _ h hnone := ⟨hfails.eq_nil h hnone, rfl⟩
  length_le _ h := by cases h
  shows_text _ _ h := by cases h
  reads _ h := by cases h
  hands_on _ h := by cases h

/-- The notes of the round fit. -/
theorem condensed_settled (hsaid : ∃ line, Said text line)
    (hall : Answered chat asked (round budget text) replies)
    (hfit : (trim (noted replies)).length ≤ budget) :
    Condensed chat budget (rounds + 1) text asked (round budget text) (some (trim (noted replies))) where
  fits _ hq := fits_round hsaid hq
  opens_le := by
    rw [countP_opens_round]
    omega
  last h := by cases h
  unanswered a q b h hnone := by
    obtain ⟨reply, -, hsome⟩ := hall.mem_replies h
    rw [hnone] at hsome
    cases hsome
  length_le := by
    rintro notes ⟨⟩
    exact hfit
  shows_text _ _ _ _ := shows_round
  reads _ _ _ hline := .inl (shows_round hline)
  hands_on := by
    rintro notes ⟨⟩ a q b h reply hreply line hline
    obtain ⟨reply', hmem, hsome⟩ := hall.mem_replies h
    cases hreply.symm.trans hsome
    exact .inr ⟨_, said_notes hmem hline, (List.take_of_length_le hfit).symm, .inl hfit⟩

theorem append_eq_append_cons {l l' : List Request} (h : l ++ l' = a ++ q :: b) :
    (∃ b', l = a ++ q :: b' ∧ b = b' ++ l') ∨ (∃ a', a = l ++ a' ∧ l' = a' ++ q :: b) := by
  rcases List.append_eq_append_iff.mp h with ⟨a', ha, hl⟩ | ⟨c, hl, hb⟩
  · exact .inr ⟨a', ha, hl⟩
  · cases c with
    | nil => exact .inr ⟨[], by rw [hl, List.append_nil, List.append_nil], hb.symm⟩
    | cons q' c =>
      obtain ⟨rfl, rfl⟩ := List.cons.inj hb
      exact .inl ⟨c, hl, rfl⟩

theorem Shows.append_left (h : Shows put line) : Shows (put ++ b) line := by
  obtain ⟨q, hq, hinfix⟩ := h
  exact ⟨q, List.mem_append_left _ hq, hinfix⟩

theorem Shows.append_right (h : Shows put line) : Shows (a ++ put) line := by
  obtain ⟨q, hq, hinfix⟩ := h
  exact ⟨q, List.mem_append_right _ hq, hinfix⟩

/-- With another round before it, there is one round more to use up. -/
theorem Kept.again (h : Kept budget rounds put b notes line) (a : List Request) :
    Kept budget (rounds + 1) (round budget text ++ put) (a ++ b) notes line := by
  rcases h with hshows | ⟨final, hsaid, heq, hend⟩
  · exact .inl hshows.append_right
  · refine .inr ⟨final, hsaid, heq, hend.imp_right fun hrounds => ?_⟩
    rw [List.countP_append, countP_opens_round, hrounds, Nat.add_comm]

/-- The notes of the round go on to the next. -/
theorem condensed_again {result : Option (List Char)} (hsaid : ∃ line, Said text line)
    (hall : Answered chat asked (round budget text) replies)
    (hnext : Condensed chat budget rounds (trim (noted replies)) (asked ++ round budget text) put
      result) :
    Condensed chat budget (rounds + 1) text asked (round budget text ++ put) result where
  fits q hq := (List.mem_append.mp hq).elim (fits_round hsaid) (hnext.fits q)
  opens_le := by
    have hle := hnext.opens_le
    rw [List.countP_append, countP_opens_round]
    omega
  last hresult := by
    obtain ⟨a, q, hput, hnone⟩ := hnext.last hresult
    refine ⟨round budget text ++ a, q, by rw [hput, List.append_assoc], ?_⟩
    rwa [← List.append_assoc]
  unanswered a q b h hnone := by
    rcases append_eq_append_cons h with ⟨b', hround, rfl⟩ | ⟨a', rfl, hput⟩
    · obtain ⟨reply, -, hsome⟩ := hall.mem_replies hround
      rw [hnone] at hsome
      cases hsome
    · exact hnext.unanswered a' q b hput (by rwa [List.append_assoc asked])
  length_le := hnext.length_le
  shows_text _ _ _ _ hline := (shows_round hline).append_left
  reads _ _ _ hline := .inl (shows_round hline).append_left
  hands_on notes hnotes a q b h reply hreply line hline := by
    rcases append_eq_append_cons h with ⟨b', hround, rfl⟩ | ⟨a', rfl, hput⟩
    · obtain ⟨reply', hmem, hsome⟩ := hall.mem_replies hround
      cases hreply.symm.trans hsome
      exact (hnext.reads notes hnotes line (said_notes hmem hline)).again b'
    · have hkept := hnext.hands_on notes hnotes a' q b hput reply
        (by rwa [List.append_assoc asked]) line hline
      exact hkept.again []

theorem condenseRounds_eq (rounds : ℕ) (hsaid : ∃ line, Said text line) :
    ∃ put result, condenseRounds chat budget rounds text asked = (result, asked ++ put) ∧
      Condensed chat budget rounds text asked put result := by
  induction rounds generalizing text asked with
  | zero => exact ⟨[], _, by rw [condenseRounds, List.append_nil]; rfl, condensed_zero text⟩
  | succ rounds ih =>
    rw [condenseRounds]
    rcases @takeNotes_eq chat (splitOnLines text (partBudget budget)).length
      (splitOnLines text (partBudget budget)).zipIdx [] asked with
      ⟨replies, hall, heq⟩ | ⟨put, hput, hfails, heq⟩
    · simp only [heq, List.nil_append]
      by_cases hfit : (trim (noted replies)).length ≤ budget
      · rw [if_pos hfit]
        exact ⟨_, _, rfl, condensed_settled hsaid hall hfit⟩
      · rw [if_neg hfit]
        have hne : trim (noted replies) ≠ [] := by
          intro hnil
          simp [hnil] at hfit
        obtain ⟨put, result, heq', hnext⟩ := ih (tidy_trim hne).exists_said
        refine ⟨_, result, ?_, condensed_again hsaid hall hnext⟩
        rw [← List.append_assoc]
        exact heq'
    · simp only [heq]
      exact ⟨put, none, rfl, condensed_failed hsaid hput hfails⟩

end ScribeLocal.Pipeline
