import Mathlib.Tactic

/-!
# A file system

A name leads to a file and a file holds its contents. Whoever has a file open keeps it when
its name is taken by another file, moved or removed. A call that fails changes nothing.
-/
namespace ScribeLocal.FileSystem

variable {ν β : Type*}

/-- What an open handle refers to. -/
abbrev FileId := ℕ

structure Fs (ν β : Type*) where
  dirs : List ν → Bool
  files : List ν → Option FileId
  data : FileId → List β
  nextId : FileId
  id_lt : ∀ p n, files p = some n → n < nextId
  /-- No file has two names. -/
  one_name : ∀ p q n, files p = some n → files q = some n → p = q
  /-- The folder of a file exists. -/
  housed : ∀ p, (files p).isSome = true → dirs p.dropLast = true
  nested : ∀ p q, dirs p = true → q <+: p → dirs q = true

namespace Fs

variable {s s' : Fs ν β} {p q d : List ν} {n m : FileId} {c c' : List β}

/-- Nothing but the root. -/
def empty : Fs ν β where
  dirs := fun p => p.isEmpty
  files := fun _ => none
  data := fun _ => []
  nextId := 0
  id_lt := by simp
  one_name := by simp
  housed := by simp
  nested := by
    intro p q hp hq
    have hnil : p = [] := List.isEmpty_iff.mp hp
    simp [List.prefix_nil.mp (hnil ▸ hq)]

/-- The contents a name leads to. -/
def read (s : Fs ν β) (p : List ν) : Option (List β) := (s.files p).map s.data

/-- `c` with `bytes` written from offset `k` on; a gap is filled up. -/
def splice [Inhabited β] (c : List β) (k : ℕ) (bytes : List β) : List β :=
  c.takeD k default ++ bytes ++ c.drop (k + bytes.length)

/-- Writing on at the end of the contents. -/
theorem splice_length [Inhabited β] (c bytes : List β) : splice c c.length bytes = c ++ bytes := by
  rw [splice, List.takeD_eq_take default le_rfl, List.take_length,
    List.drop_eq_nil_of_le (Nat.le_add_right _ _), List.append_nil]

def write [Inhabited β] (s : Fs ν β) (n : FileId) (k : ℕ) (bytes : List β) : Fs ν β :=
  { s with data := Function.update s.data n (splice (s.data n) k bytes) }

theorem read_eq_some : s.read p = some c ↔ ∃ n, s.files p = some n ∧ s.data n = c := by
  simp [read]

section Write
variable [Inhabited β] {k : ℕ}

theorem read_write_of_ne (h : s.files p ≠ some n) : (s.write n k c).read p = s.read p := by
  show (s.files p).map _ = (s.files p).map _
  cases hp : s.files p with
  | none => rfl
  | some m =>
    have hm : m ≠ n := fun heq => h (heq ▸ hp)
    simp [write, hm]

theorem read_write (h : s.files p = some n) :
    (s.write n k c).read p = some (splice (s.data n) k c) := by
  show (s.files p).map _ = _
  simp [h, write]

end Write

/-! ## Calls -/

section Calls
variable [DecidableEq ν]

/-- Open for writing: a file of that name is cut to nothing, else there is a new one. -/
def create (s : Fs ν β) (p : List ν) : Option (Fs ν β × FileId) :=
  match h : s.files p with
  | some n => some ({ s with data := Function.update s.data n [] }, n)
  | none =>
    if hdir : s.dirs p.dropLast = true ∧ s.dirs p = false then
      some ({
        dirs := s.dirs
        files := Function.update s.files p (some s.nextId)
        data := Function.update s.data s.nextId []
        nextId := s.nextId + 1
        id_lt := by
          intro q n hq
          by_cases hqp : q = p
          · rw [hqp, Function.update_self] at hq
            cases hq
            exact Nat.lt_succ_self _
          · rw [Function.update_of_ne hqp] at hq
            exact Nat.lt_succ_of_lt (s.id_lt q n hq)
        one_name := by
          intro a b n ha hb
          by_cases hap : a = p <;> by_cases hbp : b = p
          · rw [hap, hbp]
          · rw [hap, Function.update_self] at ha
            rw [Function.update_of_ne hbp] at hb
            cases ha
            exact absurd (s.id_lt b _ hb) (Nat.lt_irrefl _)
          · rw [hbp, Function.update_self] at hb
            rw [Function.update_of_ne hap] at ha
            cases hb
            exact absurd (s.id_lt a _ ha) (Nat.lt_irrefl _)
          · rw [Function.update_of_ne hap] at ha
            rw [Function.update_of_ne hbp] at hb
            exact s.one_name a b n ha hb
        housed := by
          intro q hq
          by_cases hqp : q = p
          · rw [hqp]
            exact hdir.1
          · rw [Function.update_of_ne hqp] at hq
            exact s.housed q hq
        nested := s.nested }, s.nextId)
    else none

/-- The file takes the name `q`, from whatever had it. -/
def rename (s : Fs ν β) (p q : List ν) : Option (Fs ν β) :=
  match h : s.files p with
  | none => none
  | some n =>
    if hdir : s.dirs q.dropLast = true ∧ s.dirs q = false then
      some { s with
        files := Function.update (Function.update s.files p none) q (some n)
        id_lt := by
          intro a m ha
          by_cases haq : a = q
          · rw [haq, Function.update_self] at ha
            cases ha
            exact s.id_lt p n h
          · rw [Function.update_of_ne haq] at ha
            by_cases hap : a = p
            · rw [hap, Function.update_self] at ha
              cases ha
            · rw [Function.update_of_ne hap] at ha
              exact s.id_lt a m ha
        one_name := by
          have hold {a : List ν} {m : FileId} (haq : a ≠ q)
              (ha : Function.update (Function.update s.files p none) q (some n) a = some m) :
              a ≠ p ∧ s.files a = some m := by
            rw [Function.update_of_ne haq] at ha
            by_cases hap : a = p
            · rw [hap, Function.update_self] at ha
              cases ha
            · exact ⟨hap, by rwa [Function.update_of_ne hap] at ha⟩
          intro a b m ha hb
          by_cases haq : a = q <;> by_cases hbq : b = q
          · rw [haq, hbq]
          · rw [haq, Function.update_self] at ha
            cases ha
            exact absurd (s.one_name b p _ (hold hbq hb).2 h) (hold hbq hb).1
          · rw [hbq, Function.update_self] at hb
            cases hb
            exact absurd (s.one_name a p _ (hold haq ha).2 h) (hold haq ha).1
          · exact s.one_name a b m (hold haq ha).2 (hold hbq hb).2
        housed := by
          intro a ha
          by_cases haq : a = q
          · rw [haq]
            exact hdir.1
          · rw [Function.update_of_ne haq] at ha
            by_cases hap : a = p
            · rw [hap]
              exact s.housed p (by simp [h])
            · rw [Function.update_of_ne hap] at ha
              exact s.housed a ha }
    else none

/-- The entries that `keep` refuses are gone. -/
def restrict (s : Fs ν β) (keep : List ν → Bool) (dirs : List ν → Bool)
    (hdirs : ∀ p, keep p = true → s.dirs p.dropLast = true → dirs p.dropLast = true)
    (hnested : ∀ p q, dirs p = true → q <+: p → dirs q = true) : Fs ν β where
  dirs := dirs
  files := fun p => if keep p then s.files p else none
  data := s.data
  nextId := s.nextId
  id_lt p n hp := s.id_lt p n (Option.ite_none_right_eq_some.mp hp).2
  one_name p q n hp hq :=
    s.one_name p q n (Option.ite_none_right_eq_some.mp hp).2 (Option.ite_none_right_eq_some.mp hq).2
  housed p hp := by
    by_cases hkeep : keep p = true
    · rw [if_pos hkeep] at hp
      exact hdirs p hkeep (s.housed p hp)
    · rw [if_neg hkeep] at hp
      cases hp
  nested := hnested

def remove (s : Fs ν β) (p : List ν) : Option (Fs ν β) :=
  if (s.files p).isSome then some (s.restrict (fun q => q ≠ p) s.dirs (fun _ _ => id) s.nested) else none

/-- A folder with all folders on the way to it. -/
def createDirAll (s : Fs ν β) (d : List ν) : Option (Fs ν β) :=
  if ∃ p ∈ d.inits, (s.files p).isSome = true then none
  else some { s with
    dirs := fun p => s.dirs p || decide (p <+: d)
    housed := fun p hp => by simp [s.housed p hp]
    nested := by
      intro p q hp hq
      rw [Bool.or_eq_true, decide_eq_true_eq] at hp ⊢
      exact hp.imp (fun h => s.nested p q h hq) hq.trans }

/-- A folder with all that is in it. -/
def removeDirAll (s : Fs ν β) (d : List ν) : Option (Fs ν β) :=
  if s.dirs d then
    some (s.restrict (fun p => !decide (d <+: p)) (fun p => s.dirs p && !decide (d <+: p))
      (by
        intro p hp hdir
        simp only [Bool.not_eq_true', decide_eq_false_iff_not] at hp
        simp only [hdir, Bool.true_and, Bool.not_eq_true', decide_eq_false_iff_not]
        exact fun hpath => hp (hpath.trans p.dropLast_prefix))
      (by
        intro p q hp hq
        simp only [Bool.and_eq_true, Bool.not_eq_true', decide_eq_false_iff_not] at hp ⊢
        exact ⟨s.nested p q hp.1 hq, fun hpath => hp.2 (hpath.trans hq)⟩))
  else none

/-! ## What a call leaves -/

/-- What `create` leaves: an empty file under that name, and every other file as it was. -/
theorem create_eq_some (h : s.create p = some (s', n)) :
    s'.files p = some n ∧ s'.data n = [] ∧ s'.dirs = s.dirs ∧
      (∀ q, q ≠ p → s'.files q = s.files q ∧ s.files q ≠ some n) ∧
      ∀ m, m ≠ n → s'.data m = s.data m := by
  unfold create at h
  split at h
  · next m hp =>
    cases h
    refine ⟨hp, Function.update_self _ _ _, rfl, fun q hq => ⟨rfl, ?_⟩, ?_⟩
    · exact fun hqn => hq (s.one_name q p _ hqn hp)
    · exact fun m hm => Function.update_of_ne hm _ _
  · split at h
    · cases h
      refine ⟨Function.update_self _ _ _, Function.update_self _ _ _, rfl, fun q hq => ⟨?_, ?_⟩, ?_⟩
      · exact Function.update_of_ne hq _ _
      · exact fun hqn => Nat.lt_irrefl _ (s.id_lt q _ hqn)
      · exact fun m hm => Function.update_of_ne hm _ _
    · cases h

theorem read_create_of_ne (h : s.create p = some (s', n)) (hq : q ≠ p) : s'.read q = s.read q := by
  rcases create_eq_some h with ⟨-, -, -, hfiles, hdata⟩
  rw [read, (hfiles q hq).1, read]
  cases hf : s.files q with
  | none => rfl
  | some m =>
    have hm : m ≠ n := fun heq => (hfiles q hq).2 (heq ▸ hf)
    simp [hdata m hm]

/-- What `rename` leaves: the file under its new name only. -/
theorem rename_eq_some (h : s.rename p q = some s') :
    (s.files p).isSome = true ∧ s'.dirs = s.dirs ∧ s'.data = s.data ∧ s'.files q = s.files p ∧
      (p ≠ q → s'.files p = none) ∧ ∀ a, a ≠ p → a ≠ q → s'.files a = s.files a := by
  unfold rename at h
  split at h
  · cases h
  · next n hp =>
    split at h
    · cases h
      refine ⟨by simp [hp], rfl, rfl, ?_, fun hne => ?_, fun a hap haq => ?_⟩
      · simp [hp]
      · simp [hne]
      · simp [hap, haq]
    · cases h

theorem read_rename_target (h : s.rename p q = some s') : s'.read q = s.read p := by
  rcases rename_eq_some h with ⟨-, -, hdata, hq, -⟩
  rw [read, hq, hdata, read]

theorem read_rename_of_ne {a : List ν} (h : s.rename p q = some s') (hp : a ≠ p) (hq : a ≠ q) :
    s'.read a = s.read a := by
  rcases rename_eq_some h with ⟨-, -, hdata, -, -, hother⟩
  rw [read, hother a hp hq, hdata, read]

theorem read_remove_of_ne (h : s.remove p = some s') (hq : q ≠ p) : s'.read q = s.read q := by
  unfold remove at h
  split at h
  · cases h
    simp [read, restrict, hq]
  · cases h

theorem files_remove_self (h : s.remove p = some s') : s'.files p = none := by
  unfold remove at h
  split at h
  · cases h
    simp [restrict]
  · cases h

theorem files_remove_of_ne (h : s.remove p = some s') (hq : q ≠ p) : s'.files q = s.files q := by
  unfold remove at h
  split at h
  · cases h
    simp [restrict, hq]
  · cases h

theorem files_of_remove_eq_none (h : s.remove p = none) : s.files p = none := by
  unfold remove at h
  split at h
  · cases h
  · next hnone => exact Option.not_isSome_iff_eq_none.mp hnone

/-- Whatever the call says, the file is gone. -/
theorem files_remove_getD_self : ((s.remove p).getD s).files p = none := by
  cases h : s.remove p with
  | none => exact files_of_remove_eq_none h
  | some s' => exact files_remove_self h

theorem files_remove_getD_of_ne (hq : q ≠ p) : ((s.remove p).getD s).files q = s.files q := by
  cases h : s.remove p with
  | none => rfl
  | some s' => exact files_remove_of_ne h hq

theorem files_of_create_eq_none (h : s.create p = none) : s.files p = none := by
  unfold create at h
  split at h
  · cases h
  · next hnone => exact hnone

theorem files_createDirAll (h : s.createDirAll d = some s') :
    s'.files = s.files ∧ s'.data = s.data := by
  unfold createDirAll at h
  split at h
  · cases h
  · cases h
    exact ⟨rfl, rfl⟩

theorem dirs_createDirAll (h : s.createDirAll d = some s') :
    s'.dirs p = true ↔ s.dirs p = true ∨ p <+: d := by
  unfold createDirAll at h
  split at h
  · cases h
  · cases h
    simp

theorem dirs_remove_getD : ((s.remove p).getD s).dirs = s.dirs := by
  unfold remove
  split <;> rfl

/-- Nothing is left in a removed folder. -/
theorem files_removeDirAll (h : s.removeDirAll d = some s') (hp : d <+: p) : s'.files p = none := by
  unfold removeDirAll at h
  split at h
  · cases h
    simp [restrict, hp]
  · cases h

/-- There is nothing in a folder that does not exist. -/
theorem files_of_removeDirAll_eq_none (h : s.removeDirAll d = none) (hp : d <+: p) (hne : p ≠ d) : s.files p = none := by
  by_contra hsome
  have hdir := s.housed p (Option.isSome_iff_ne_none.mpr hsome)
  have hpath : d <+: p.dropLast := by
    rcases hp with ⟨t, rfl⟩
    have ht : t ≠ [] := fun ht => hne (by simp [ht])
    rw [List.dropLast_append_of_ne_nil ht]
    exact List.prefix_append _ _
  have hd := s.nested _ d hdir hpath
  simp [removeDirAll, hd] at h

end Calls

end Fs

end ScribeLocal.FileSystem
