import ScribeLocal.Asr.Trim

/-!
# Paging through the recordings

The tool `list_recordings` of the MCP endpoint asks the handler of the same name for a page,
and says at which offset more may follow.
-/
namespace ScribeLocal.Api
open Asr (trim)

/-! ## Walks -/

section Walk
variable {α : Type*} {fetch : ℤ → List α × Option ℤ} {o : ℤ} {pages : List (List α)}

/-- The pages from an offset on, each at the offset that the one before it names. -/
inductive Walk (fetch : ℤ → List α × Option ℤ) : ℤ → List (List α) → Prop
  | last {o : ℤ} (h : (fetch o).2 = none) : Walk fetch o [(fetch o).1]
  | next {o o' : ℤ} {pages : List (List α)} (h : (fetch o).2 = some o')
      (rest : Walk fetch o' pages) : Walk fetch o ((fetch o).1 :: pages)

/-- A walk that never leaves offsets at which more follows does not end. -/
theorem not_walk {P : ℤ → Prop} (hstep : ∀ o, P o → ∃ o', (fetch o).2 = some o' ∧ P o') (ho : P o) :
    ¬Walk fetch o pages := by
  intro h
  induction h with
  | last hnone =>
    obtain ⟨o', hsome, -⟩ := hstep _ ho
    rw [hnone] at hsome
    cases hsome
  | next hsome rest ih =>
    obtain ⟨o', hsome', ho'⟩ := hstep _ ho
    rw [hsome] at hsome'
    cases hsome'
    exact ih ho'

/-- Pages of `n` things, the last one short or empty, are the whole list. -/
theorem exists_walk {l : List α} {n : ℕ} (hn : 0 < n)
    (hrows : ∀ k : ℕ, (fetch k).1 = (l.drop k).take n)
    (hmore : ∀ (k : ℕ) o, (fetch k).2 = some o → o = (k + n : ℕ) ∧ k < l.length)
    (hlast : ∀ k : ℕ, (fetch k).2 = none → (l.drop k).take n = l.drop k) (k : ℕ) :
    ∃ pages, Walk fetch k pages ∧ pages.flatten = l.drop k := by
  induction hd : l.length - k using Nat.strong_induction_on generalizing k with
  | _ d ih =>
    cases hnext : (fetch k).2 with
    | none => exact ⟨_, .last hnext, by rw [hrows, hlast k hnext, List.flatten_singleton]⟩
    | some o =>
      obtain ⟨rfl, hk⟩ := hmore k o hnext
      obtain ⟨pages, hwalk, hflatten⟩ := ih _ (by omega) (k + n) rfl
      refine ⟨_, .next hnext hwalk, ?_⟩
      rw [List.flatten_cons, hflatten, hrows, ← List.drop_drop, List.take_append_drop]

end Walk

/-! ## The handler -/

/-- A recording as the tool prints it, its date and its length in words. -/
structure Recording where
  id : String
  createdAt : String
  title : Option String
  duration : Option String
  status : String
  participantsExpected : Option ℤ
  tags : List String

structure ListQuery where
  limit : Option ℤ
  offset : Option ℤ
  tag : Option String

/-- A blank tag is no filter. -/
def tagFilter (tag : Option String) : Option String :=
  (tag.map fun t => String.ofList (trim t.toList)).filter fun t => !t.isEmpty

/-- The recordings with the tag, if one is given, newest first as the library is. -/
def matching (library : List Recording) (tag : Option String) : List Recording :=
  match tagFilter tag with
  | some t => library.filter fun r => r.tags.contains t
  | none => library

def clamp (x lo hi : ℤ) : ℤ := max lo (min x hi)

def listRecordings (library : List Recording) (q : ListQuery) : List Recording :=
  let limit := clamp (q.limit.getD 50) 1 500
  let offset := max (q.offset.getD 0) 0
  ((matching library q.tag).drop offset.toNat).take limit.toNat

/-! ## The tool -/

/-- What the tool says. -/
inductive ListText
  | noMore
  | noRecordings
  | page (list : List Recording) (more : Option ℤ)

/-- `ListArgs` has the fields of the query. -/
def listRecordingsTool (library : List Recording) (a : ListQuery) : ListText :=
  let limit := a.limit.getD 20
  let offset := a.offset.getD 0
  let list := listRecordings library ⟨some limit, some offset, a.tag⟩
  if list.isEmpty then
    if 0 < offset then .noMore else .noRecordings
  else .page list (if limit ≤ list.length then some (offset + limit) else none)

def Recording.line (r : Recording) : String :=
  "- " ++ r.id ++ " | " ++ r.createdAt ++ " | " ++ r.title.getD "(untitled)" ++ " | " ++
    r.duration.getD "?" ++ " | " ++ r.status ++
    (r.participantsExpected.elim "" fun n => " | " ++ toString n ++ " participants stated") ++
    (if r.tags.isEmpty then "" else " | tags: " ++ ", ".intercalate r.tags) ++ "\n"

def ListText.text : ListText → String
  | .noMore => "No more recordings."
  | .noRecordings => "No recordings."
  | .page list more =>
    String.join (list.map Recording.line) ++
      more.elim "" fun offset => "(more may follow: offset " ++ toString offset ++ ")\n"

def ListText.list : ListText → List Recording
  | .page list _ => list
  | _ => []

def ListText.more : ListText → Option ℤ
  | .page _ more => more
  | _ => none

/-- One call of a client that pages through the recordings. -/
def pageAt (library : List Recording) (limit : Option ℤ) (tag : Option String) (offset : ℤ) :
    List Recording × Option ℤ :=
  let out := listRecordingsTool library ⟨limit, some offset, tag⟩
  (out.list, out.more)

/-- The walk from the start ends, and its pages are the recordings with the tag, each once and
in order. -/
def ListsOnce (library : List Recording) (limit : Option ℤ) (tag : Option String) : Prop :=
  ∃ pages, Walk (pageAt library limit tag) 0 pages ∧ pages.flatten = matching library tag

/-! ## One page -/

variable {library : List Recording} {limit : Option ℤ} {tag : Option String} {l : ℤ}

theorem pageAt_fst (library : List Recording) (limit : Option ℤ) (tag : Option String) (o : ℤ) :
    (pageAt library limit tag o).1 = ((matching library tag).drop o.toNat).take
      (clamp (limit.getD 20) 1 500).toNat := by
  have hoffset : (max o 0).toNat = o.toNat := by omega
  rw [pageAt, listRecordingsTool]
  simp only [listRecordings, Option.getD_some, hoffset]
  split
  case isTrue hempty =>
    rw [List.isEmpty_iff] at hempty
    rw [hempty]
    split <;> rfl
  case isFalse => rfl

/-- More is named exactly where the page is not empty and has at least `limit` recordings. -/
theorem pageAt_snd (library : List Recording) (limit : Option ℤ) (tag : Option String) (o : ℤ) :
    (pageAt library limit tag o).2 =
      if (pageAt library limit tag o).1 ≠ [] ∧
          limit.getD 20 ≤ ((pageAt library limit tag o).1.length : ℤ) then
        some (o + limit.getD 20)
      else none := by
  rw [pageAt, listRecordingsTool]
  dsimp only
  split
  case isTrue hempty =>
    split <;> simp [ListText.list, ListText.more]
  case isFalse hne =>
    rw [List.isEmpty_iff] at hne
    rw [ListText.more, ListText.list, ite_and, if_pos hne]
    rfl

/-! ## The walk -/

theorem clamp_of_mem {x lo hi : ℤ} (hlo : lo ≤ x) (hhi : x ≤ hi) : clamp x lo hi = x := by
  rw [clamp, min_eq_left hhi, max_eq_right hlo]

theorem clamp_of_lt {x lo hi : ℤ} (h : hi < x) (hle : lo ≤ hi) : clamp x lo hi = hi := by
  rw [clamp, min_eq_right h.le, max_eq_right hle]

theorem clamp_of_gt {x lo hi : ℤ} (h : x < lo) : clamp x lo hi = lo := by
  rw [clamp, max_eq_left ((min_le_left x hi).trans h.le)]

/-- A limit that the handler takes as it is. -/
theorem listsOnce_of_mem (hlo : 1 ≤ limit.getD 20) (hhi : limit.getD 20 ≤ 500) :
    ListsOnce library limit tag := by
  obtain ⟨n, hn⟩ : ∃ n : ℕ, limit.getD 20 = n := ⟨(limit.getD 20).toNat, by omega⟩
  have hrows : ∀ k : ℕ, (pageAt library limit tag k).1 =
      ((matching library tag).drop k).take n := by
    intro k
    rw [pageAt_fst, clamp_of_mem hlo hhi, hn, Int.toNat_natCast, Int.toNat_natCast]
  have hwalk := @exists_walk _ (pageAt library limit tag) (matching library tag) n (by omega)
    hrows ?_ ?_ 0
  · exact hwalk
  · intro k o hsome
    rw [pageAt_snd, hrows, hn] at hsome
    split at hsome
    case isTrue hpage =>
      cases hsome
      refine ⟨by push_cast; rfl, ?_⟩
      by_contra hpast
      rw [List.drop_eq_nil_of_le (not_lt.mp hpast), List.take_nil] at hpage
      exact hpage.1 rfl
    case isFalse => cases hsome
  · intro k hnone
    rw [pageAt_snd, hrows, hn] at hnone
    split at hnone
    case isTrue => cases hnone
    case isFalse hpage =>
      apply List.take_of_length_le
      by_contra hlong
      apply hpage
      constructor
      · rw [ne_eq, List.take_eq_nil_iff]
        rintro (rfl | hnil)
        · omega
        · rw [hnil] at hlong
          simp at hlong
      · rw [List.length_take]
        omega

/-- One page that holds everything, and names no offset. -/
theorem listsOnce_of_single (hpage : (pageAt library limit tag 0).1 = matching library tag)
    (hnone : (pageAt library limit tag 0).2 = none) : ListsOnce library limit tag :=
  ⟨_, .last hnone, by rw [List.flatten_singleton, hpage]⟩

theorem listsOnce_of_nil (h : matching library tag = []) : ListsOnce library limit tag := by
  have hpage : (pageAt library limit tag 0).1 = [] := by
    rw [pageAt_fst, h, List.drop_nil, List.take_nil]
  apply listsOnce_of_single
  · rw [hpage, h]
  · rw [pageAt_snd, hpage]
    exact if_neg fun hne => hne.1 rfl

theorem pageAt_of_lt (h : 500 < limit.getD 20) :
    (pageAt library limit tag 0).1 = (matching library tag).take 500 := by
  rw [pageAt_fst, clamp_of_lt h (by decide)]
  rfl

/-- A page has fewer recordings than a limit over 500 asks for. -/
theorem snd_pageAt_of_lt (h : 500 < limit.getD 20) : (pageAt library limit tag 0).2 = none := by
  rw [pageAt_snd, pageAt_of_lt h, List.length_take]
  exact if_neg fun hle => by omega

theorem not_listsOnce_of_lt (h : 500 < limit.getD 20)
    (hmany : 500 < (matching library tag).length) :
    ¬ListsOnce library limit tag := by
  rintro ⟨pages, hwalk, hflatten⟩
  have hnone := @snd_pageAt_of_lt library limit tag h
  cases hwalk with
  | last =>
    have hlength := congrArg List.length hflatten
    rw [List.flatten_singleton, pageAt_of_lt h, List.length_take] at hlength
    omega
  | next hsome =>
    rw [hnone] at hsome
    cases hsome

/-- A limit of zero or less is read as one, and the next offset never gets past the start. -/
theorem not_listsOnce_of_nonpos (h : limit.getD 20 ≤ 0) (hne : matching library tag ≠ []) :
    ¬ListsOnce library limit tag := by
  rintro ⟨pages, hwalk, -⟩
  refine @not_walk _ _ _ _ (fun o => o ≤ 0) (fun o ho => ?_) le_rfl hwalk
  have hpage : (pageAt library limit tag o).1 = (matching library tag).take 1 := by
    rw [pageAt_fst, clamp_of_gt (by omega), Int.toNat_of_nonpos ho]
    rfl
  refine ⟨o + limit.getD 20, ?_, by omega⟩
  rw [pageAt_snd, hpage, if_pos]
  constructor
  · rw [ne_eq, List.take_eq_nil_iff]
    exact fun hnil => hnil.elim (by omega) hne
  · omega

/-- The walk lists the recordings once exactly if the handler takes the limit as it is, or cuts
it down to 500 where there are no more, or there is nothing to list. -/
theorem listsOnce_iff (library : List Recording) (limit : Option ℤ) (tag : Option String) :
    ListsOnce library limit tag ↔
      1 ≤ limit.getD 20 ∧ limit.getD 20 ≤ 500 ∨
        500 < limit.getD 20 ∧ (matching library tag).length ≤ 500 ∨
        matching library tag = [] := by
  constructor
  · intro h
    by_contra hno
    push Not at hno
    obtain ⟨hin, hover, hne⟩ := hno
    by_cases hlow : limit.getD 20 ≤ 0
    · exact not_listsOnce_of_nonpos hlow hne h
    · have hhigh := hin (by omega)
      exact not_listsOnce_of_lt hhigh (hover hhigh) h
  · rintro (⟨hlo, hhi⟩ | ⟨hhigh, hfew⟩ | hnil)
    · exact listsOnce_of_mem hlo hhi
    · apply listsOnce_of_single
      · rw [pageAt_of_lt hhigh, List.take_of_length_le hfew]
      · exact snd_pageAt_of_lt hhigh
    · exact listsOnce_of_nil hnil

/-- With a limit of zero, each page is the first recording and names offset zero. -/
theorem not_listsOnce :
    ¬∀ (library : List Recording) (limit : ℤ) (tag : Option String),
      ListsOnce library (some limit) tag := by
  intro h
  have hlists := h [⟨"r", "2026-09-01 00:00 UTC", none, none, "ready", none, []⟩] 0 none
  refine not_listsOnce_of_nonpos le_rfl ?_ hlists
  exact List.cons_ne_nil _ []

end ScribeLocal.Api
