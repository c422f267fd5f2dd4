import Mathlib.Tactic

/-!
# Paths read as text

How a platform splits the text of a path into components, and what joining a name onto a
path adds to them. Nothing is looked up, and `..` stays a component.
-/
namespace ScribeLocal.LexicalPath

inductive Platform
  | unix
  | windows
  deriving DecidableEq

namespace Platform

def isSeparator : Platform → Char → Bool
  | unix, c => c == '/'
  | windows, c => c == '/' || c == '\\'

def mainSeparator : Platform → Char
  | unix => '/'
  | windows => '\\'

/-- The length of the drive in front. -/
def driveLength (p : Platform) (path : List Char) : ℕ :=
  if p = windows ∧ path[0]?.any Char.isAlpha ∧ path[1]? = some ':' then 2 else 0

end Platform

inductive Component
  | drive (text : List Char)
  | rootDir
  | curDir
  | parentDir
  | normal (name : List Char)
  deriving DecidableEq

def readPiece (piece : List Char) : Option Component :=
  if piece = [] ∨ piece = ['.'] then none
  else if piece = ['.', '.'] then some .parentDir
  else some (.normal piece)

/-- What stands between the separators. -/
def pieces (p : Platform) (text : List Char) : List Component :=
  (text.splitOnP p.isSeparator).filterMap readPiece

/-- The root or a dot in front. -/
def anchor (p : Platform) (body : List Char) : List Component :=
  if body.head?.any p.isSeparator then [.rootDir]
  else if (body.splitOnP p.isSeparator).head? = some ['.'] then [.curDir]
  else []

def driveOf (p : Platform) (path : List Char) : List Component :=
  if p.driveLength path = 0 then [] else [.drive (path.take (p.driveLength path))]

def components (p : Platform) (path : List Char) : List Component :=
  let body := path.drop (p.driveLength path)
  driveOf p path ++ (anchor p body ++ pieces p body)

/-- A drive alone takes no separator, and neither does a path that ends with one. -/
def needsSeparator (p : Platform) (path : List Char) : Bool :=
  path.getLast?.any (fun c => !p.isSeparator c) && p.driveLength path != path.length

def join (p : Platform) (path rel : List Char) : List Char :=
  if 0 < p.driveLength rel then rel
  else if rel.head?.any p.isSeparator then path.take (p.driveLength path) ++ rel
  else if needsSeparator p path then path ++ p.mainSeparator :: rel
  else path ++ rel

/-- One name right below the folder. -/
def DirectChild (p : Platform) (dir path : List Char) : Prop :=
  ∃ name, components p path = components p dir ++ [.normal name]

variable {p : Platform} {body path rel text u v w x : List Char} {c m : Char}

/-! ## Pieces -/

theorem isSeparator_mainSeparator (p : Platform) : p.isSeparator p.mainSeparator = true := by
  cases p <;> rfl

/-- A letter or a digit stands in a name. -/
theorem isSeparator_of_isAlphanum (h : c.isAlphanum = true) : p.isSeparator c = false := by
  rw [← Bool.not_eq_true]
  intro hsep
  cases p <;> simp [Platform.isSeparator] at hsep
  · rw [hsep] at h
    cases h
  · rcases hsep with rfl | rfl <;> cases h

theorem pieces_nil : pieces p [] = [] := rfl

theorem pieces_append_cons (hm : p.isSeparator m = true) :
    pieces p (u ++ m :: v) = pieces p u ++ pieces p v := by
  rw [pieces, List.splitOnP_append_cons u v hm, List.filterMap_append]
  rfl

theorem readPiece_of_mem (hc : c ∈ text) (hdot : c ≠ '.') :
    readPiece text = some (.normal text) := by
  unfold readPiece
  rw [if_neg, if_neg]
  · rintro rfl
    simp [hdot] at hc
  · rintro (rfl | rfl)
    · cases hc
    · simp [hdot] at hc

/-- The first piece goes on to the first separator. -/
theorem splitOnP_append (hw : ∀ c ∈ w, p.isSeparator c = false) (v : List Char) :
    ∃ u t, v.splitOnP p.isSeparator = u :: t ∧ (w ++ v).splitOnP p.isSeparator = (w ++ u) :: t := by
  induction w with
  | nil =>
    obtain ⟨u, t, hsplit⟩ := List.exists_cons_of_ne_nil (List.splitOnP_ne_nil p.isSeparator v)
    exact ⟨u, t, hsplit, hsplit⟩
  | cons a w ih =>
    obtain ⟨ha, hw⟩ := List.forall_mem_cons.mp hw
    obtain ⟨u, t, hv, hwv⟩ := ih hw
    refine ⟨u, t, hv, ?_⟩
    rw [List.cons_append, List.splitOnP_cons_eq_if_modifyHead, if_neg (by simp [ha]), hwv]
    rfl

/-- A name that does not start with a separator or a dot alone gives a first component. -/
theorem pieces_append (hw : ∀ c ∈ w, p.isSeparator c = false) (hc : c ∈ w) (hdot : c ≠ '.')
    (v : List Char) : ∃ u t, pieces p (w ++ v) = .normal (w ++ u) :: t := by
  obtain ⟨u, t, -, hsplit⟩ := splitOnP_append hw v
  refine ⟨u, t.filterMap readPiece, ?_⟩
  rw [pieces, hsplit, List.filterMap_cons_some]
  exact readPiece_of_mem (List.mem_append_left _ hc) hdot

theorem pieces_of_plain (hw : ∀ c ∈ w, p.isSeparator c = false) (hc : c ∈ w) (hdot : c ≠ '.') :
    pieces p w = [.normal w] := by
  rw [pieces, List.splitOnP_eq_singleton hw, List.filterMap_cons_some (readPiece_of_mem hc hdot)]
  rfl

/-- The first separator of a text. -/
theorem exists_separator (h : ∃ c ∈ text, p.isSeparator c = true) : ∃ u m v,
    text = u ++ m :: v ∧ p.isSeparator m = true ∧ ∀ c ∈ u, p.isSeparator c = false := by
  obtain ⟨m, hm⟩ := Option.isSome_iff_exists.mp (List.find?_isSome.mpr h)
  obtain ⟨hsep, u, v, rfl, hu⟩ := List.find?_eq_some_iff_append.mp hm
  exact ⟨u, m, v, rfl, hsep, fun c hc => by simpa using hu c hc⟩

/-- A text with more than dots in it has a component. -/
theorem pieces_ne_nil (hc : c ∈ text) (hsep : p.isSeparator c = false) (hdot : c ≠ '.') :
    pieces p text ≠ [] := by
  induction hn : text.length using Nat.strong_induction_on generalizing text with
  | _ n ih =>
    by_cases hany : ∃ m ∈ text, p.isSeparator m = true
    · obtain ⟨u, m, v, rfl, hm, hu⟩ := exists_separator hany
      rw [pieces_append_cons hm, ne_eq, List.append_eq_nil_iff, not_and_or]
      rcases List.mem_append.mp hc with hcu | hcv
      · left
        rw [pieces_of_plain hu hcu hdot]
        exact List.cons_ne_nil _ _
      · right
        rcases List.mem_cons.mp hcv with rfl | hcv
        · rw [hsep] at hm
          cases hm
        · refine ih v.length ?_ hcv rfl
          rw [← hn, List.length_append, List.length_cons]
          omega
    · push Not at hany
      rw [pieces_of_plain (fun m hm => by simpa using hany m hm) hc hdot]
      exact List.cons_ne_nil _ _

/-! ## Joining -/

/-- A text that a join puts behind the path it is joined onto. -/
structure Plain (p : Platform) (rel : List Char) : Prop where
  drive : p.driveLength rel = 0
  head : rel.head?.any p.isSeparator = false
  dot : (rel.splitOnP p.isSeparator).head? ≠ some ['.']

/-- A text that starts with a name is plain, unless a drive is in front. -/
theorem plain_append (hw : ∀ c ∈ w, p.isSeparator c = false) (hc : c ∈ w) (hdot : c ≠ '.')
    (hdrive : p.driveLength (w ++ v) = 0) : Plain p (w ++ v) where
  drive := hdrive
  head := by
    obtain ⟨a, w, rfl⟩ := List.exists_cons_of_ne_nil (List.ne_nil_of_mem hc)
    exact hw a List.mem_cons_self
  dot := by
    obtain ⟨u, t, -, hsplit⟩ := splitOnP_append hw v
    rw [hsplit, List.head?_cons, ne_eq, Option.some.injEq]
    intro heq
    have hmem := List.mem_append_left u hc
    rw [heq] at hmem
    exact hdot (List.mem_singleton.mp hmem)

theorem Plain.anchor (h : Plain p rel) : anchor p rel = [] := by
  rw [LexicalPath.anchor, if_neg (by simp [h.head]), if_neg h.dot]

theorem anchor_nil : anchor p [] = [] := by
  rw [anchor, List.splitOnP_nil]
  rfl

/-- What is joined on behind a separator leaves the first piece alone. -/
theorem head?_splitOnP_append_cons (hm : p.isSeparator m = true) :
    ((x ++ m :: v).splitOnP p.isSeparator).head? = (x.splitOnP p.isSeparator).head? := by
  obtain ⟨u, t, hsplit⟩ := List.exists_cons_of_ne_nil (List.splitOnP_ne_nil p.isSeparator x)
  rw [List.splitOnP_append_cons x v hm, hsplit]
  rfl

theorem anchor_append_cons (hm : p.isSeparator m = true) :
    anchor p (x ++ m :: rel) = anchor p (x ++ [m]) := by
  unfold anchor
  rw [head?_splitOnP_append_cons hm, head?_splitOnP_append_cons hm]
  cases x with
  | nil => rfl
  | cons a x => rfl

theorem anchor_append_singleton (hm : p.isSeparator m = true) (hx : x ≠ []) :
    anchor p (x ++ [m]) = anchor p x := by
  unfold anchor
  rw [head?_splitOnP_append_cons hm]
  cases x with
  | nil => exact absurd rfl hx
  | cons a x => rfl

theorem driveLength_le (p : Platform) (path : List Char) : p.driveLength path ≤ path.length := by
  unfold Platform.driveLength
  split
  case isTrue h =>
    obtain ⟨hlt, -⟩ := List.getElem?_eq_some_iff.mp h.2.2
    exact hlt
  case isFalse => exact Nat.zero_le _

theorem driveLength_of_head (h : ∀ c ∈ path.head?, c.isAlpha = false) : p.driveLength path = 0 := by
  cases path with
  | nil => exact if_neg (by simp)
  | cons c path => exact if_neg (by simp [h c rfl])

theorem driveLength_of_separator (h : path.head?.any p.isSeparator = true) :
    p.driveLength path = 0 := by
  refine driveLength_of_head fun c hc => ?_
  rw [hc] at h
  cases p <;> simp [Platform.isSeparator] at h
  · rw [h]
    rfl
  · rcases h with rfl | rfl <;> rfl

/-- The drive is in the first two characters. -/
theorem driveLength_append (h : 2 ≤ path.length) :
    p.driveLength (path ++ rel) = p.driveLength path := by
  unfold Platform.driveLength
  rw [List.getElem?_append_left (by omega), List.getElem?_append_left (by omega)]

/-- A path that ends with a separator has no drive but its own. -/
theorem driveLength_append_cons (hm : p.isSeparator m = true) :
    p.driveLength (x ++ m :: rel) = p.driveLength x := by
  match x with
  | [] =>
    rw [List.nil_append, driveLength_of_separator (by simp [hm])]
    exact (if_neg (by simp)).symm
  | [a] =>
    have hm : m ≠ ':' := by
      rintro rfl
      cases p <;> cases hm
    unfold Platform.driveLength
    rw [if_neg (by simp [hm]), if_neg (by simp)]
  | a :: b :: x => exact driveLength_append (by simp)

/-- A path that needs no separator is a drive alone or empty, or ends with one. -/
theorem cases_of_not_needsSeparator (h : needsSeparator p path = false) :
    p.driveLength path = path.length ∨ ∃ x m, p.isSeparator m = true ∧ path = x ++ [m] := by
  rcases List.eq_nil_or_concat' path with rfl | ⟨x, m, rfl⟩
  · exact .inl (if_neg (by simp))
  · rw [needsSeparator, Bool.and_eq_false_iff] at h
    rcases h with hlast | hdrive
    · exact .inr ⟨x, m, by simpa using hlast, rfl⟩
    · exact .inl (by simpa using hdrive)

/-- Nothing but a drive is in front. -/
theorem driveLength_append_of_eq (h : p.driveLength path = path.length)
    (hrel : p.driveLength rel = 0) :
    p.driveLength (path ++ rel) = path.length := by
  cases path with
  | nil => exact hrel
  | cons c path =>
    have htwo : 2 ≤ (c :: path).length := by
      rw [← h]
      unfold Platform.driveLength at h ⊢
      split at h
      case isTrue hdrive => rw [if_pos hdrive]
      case isFalse => cases h
    rw [driveLength_append htwo, h]

theorem components_append_cons (hm : p.isSeparator m = true) :
    components p (x ++ m :: rel) = components p (x ++ [m]) ++ pieces p rel := by
  have hlen := driveLength_le p x
  unfold components driveOf
  rw [driveLength_append_cons hm, driveLength_append_cons hm]
  simp only [List.drop_append_of_le_length hlen, List.take_append_of_le_length hlen]
  rw [anchor_append_cons hm, pieces_append_cons hm, pieces_append_cons hm, pieces_nil,
    List.append_nil, List.append_assoc, List.append_assoc]

/-- Joining adds the pieces of what is joined on. -/
theorem components_join (h : Plain p rel) :
    components p (join p path rel) = components p path ++ pieces p rel := by
  unfold join
  rw [h.drive, h.head, if_neg (lt_irrefl 0), if_neg Bool.false_ne_true]
  cases hneeds : needsSeparator p path with
  | true =>
    have hm := isSeparator_mainSeparator p
    rw [needsSeparator, Bool.and_eq_true] at hneeds
    have hlen := driveLength_le p path
    have hlt : p.driveLength path < path.length :=
      lt_of_le_of_ne hlen (by simpa using hneeds.2)
    rw [if_pos rfl, components_append_cons hm]
    congr 1
    unfold components driveOf
    rw [driveLength_append_cons hm]
    simp only [List.drop_append_of_le_length hlen, List.take_append_of_le_length hlen]
    rw [anchor_append_singleton hm (by simpa using hlt), pieces_append_cons hm, pieces_nil,
      List.append_nil]
  | false =>
    rw [if_neg Bool.false_ne_true]
    rcases cases_of_not_needsSeparator hneeds with hdrive | ⟨x, m, hm, rfl⟩
    · have hlen := driveLength_append_of_eq hdrive h.drive
      unfold components driveOf
      simp only [hlen, hdrive, List.drop_left, List.take_left, List.drop_length, List.take_length]
      rw [h.anchor, anchor_nil, pieces_nil, List.nil_append, List.append_nil, List.append_nil]
    · rw [List.append_assoc]
      exact components_append_cons hm

theorem directChild_join_iff (h : Plain p rel) :
    DirectChild p path (join p path rel) ↔ ∃ name, pieces p rel = [.normal name] := by
  unfold DirectChild
  rw [components_join h]
  exact exists_congr fun name => List.append_right_inj _

/-- Between a start and an end that are names, only a separator makes two components. -/
theorem exists_pieces_iff {d : Char} (hw : ∀ c ∈ w, p.isSeparator c = false) (hc : c ∈ w)
    (hdot : c ≠ '.') (hx : ∀ c ∈ x, p.isSeparator c = false) (hd : d ∈ x) (hdot' : d ≠ '.') :
    (∃ name, pieces p (w ++ (v ++ x)) = [.normal name]) ↔ ∀ c ∈ v, p.isSeparator c = false := by
  constructor
  · rintro ⟨name, hname⟩
    by_contra hsep
    have hany : ∃ c ∈ v, p.isSeparator c = true := by simpa using hsep
    obtain ⟨u, m, v', rfl, hm, hu⟩ := exists_separator hany
    have hsplit : w ++ (u ++ m :: v' ++ x) = (w ++ u) ++ m :: (v' ++ x) := by simp
    have hfirst : pieces p (w ++ u) = [.normal (w ++ u)] := by
      refine pieces_of_plain (fun c hc => ?_) (List.mem_append_left _ hc) hdot
      exact (List.mem_append.mp hc).elim (hw c) (hu c)
    have hrest : pieces p (v' ++ x) ≠ [] :=
      pieces_ne_nil (List.mem_append_right _ hd) (hx d hd) hdot'
    rw [hsplit, pieces_append_cons hm, hfirst, List.singleton_append, List.cons.injEq] at hname
    exact hrest hname.2
  · intro hv
    refine ⟨_, pieces_of_plain (fun c hc => ?_) (List.mem_append_left _ hc) hdot⟩
    rcases List.mem_append.mp hc with hc | hc
    · exact hw c hc
    · exact (List.mem_append.mp hc).elim (hv c) (hx c)

end ScribeLocal.LexicalPath
