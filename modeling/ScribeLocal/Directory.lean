import ScribeLocal.Transition

/-!
# Directories

A directory says under which name each voice goes: a voice points at an entry, and the entry
carries the name. Entries are called and removed, what points at one is redirected to another, and a
voice that nobody touches follows the entry it points at.
-/
namespace ScribeLocal
open Transition

variable {V I N : Type*}

/-- A voice points at entries that are there, and at no other. -/
@[ext]
structure Directory (V I N : Type*) where
  name : I → Option N
  who : V → Option I
  known : ∀ {v i}, who v = some i → (name i).isSome = true

namespace Directory

/-- The name that a voice goes by. -/
def shown (d : Directory V I N) (v : V) : Option N := (d.who v).bind d.name

variable [DecidableEq V] [DecidableEq I]

/-! ## Changes -/

inductive Change (V I N : Type*)
  | call (i : I) (n : N)
  | remove (i : I)
  | redirect (i j : I)
  | point (v : V) (i : I)
  | release (p : V → Bool)

omit [DecidableEq V] in
/-- The entry has the name, whether it was there or not. -/
def call (d : Directory V I N) (i : I) (n : N) : Directory V I N where
  name := Function.update d.name i (some n)
  who := d.who
  known := by
    intro v j hj
    by_cases hi : j = i
    · rw [hi, Function.update_self, Option.isSome_some]
    · rw [Function.update_of_ne hi]
      exact d.known hj

omit [DecidableEq V] in
/-- The entry goes, and what pointed at it points at nothing. -/
def remove (d : Directory V I N) (i : I) : Directory V I N where
  name := Function.update d.name i none
  who v := (d.who v).filter fun j => j ≠ i
  known := by
    intro v j hj
    rw [Option.filter_eq_some_iff, decide_eq_true_eq] at hj
    rw [Function.update_of_ne hj.2]
    exact d.known hj.1

omit [DecidableEq V] in
/-- What pointed at `i` points at `j`. -/
def redirect (d : Directory V I N) (i j : I) : Directory V I N where
  name := d.name
  who v := (d.who v).bind fun k =>
    if k = i then if (d.name j).isSome then some j else none else some k
  known := by
    intro v k hk
    rcases Option.bind_eq_some_iff.mp hk with ⟨l, hl, hlk⟩
    split at hlk
    · rw [Option.ite_none_right_eq_some] at hlk
      rw [← Option.some.inj hlk.2]
      exact hlk.1
    · rw [← Option.some.inj hlk]
      exact d.known hl

omit [DecidableEq I] in
def point (d : Directory V I N) (v : V) (i : I) : Directory V I N where
  name := d.name
  who := Function.update d.who v (if (d.name i).isSome then some i else none)
  known := by
    intro w j hj
    by_cases hw : w = v
    · rw [hw, Function.update_self, Option.ite_none_right_eq_some] at hj
      rw [← Option.some.inj hj.2]
      exact hj.1
    · rw [Function.update_of_ne hw] at hj
      exact d.known hj

omit [DecidableEq V] [DecidableEq I] in
def release (d : Directory V I N) (p : V → Bool) : Directory V I N where
  name := d.name
  who v := if p v then none else d.who v
  known := by
    intro v i hi
    rw [Option.ite_none_left_eq_some] at hi
    exact d.known hi.2

def apply (d : Directory V I N) : Change V I N → Directory V I N
  | .call i n => d.call i n
  | .remove i => d.remove i
  | .redirect i j => d.redirect i j
  | .point v i => d.point v i
  | .release p => d.release p

/-- Nobody is sent to an entry that is not there. -/
def Allowed (d : Directory V I N) : Change V I N → Prop
  | .redirect i j => (d.name j).isSome = true ∨ ∀ v, d.who v ≠ some i
  | _ => True

/-- The change is about the voice itself. -/
def Change.Touches (v : V) : Change V I N → Prop
  | .point w _ => w = v
  | .release p => p v = true
  | _ => False

/-! ## Following an entry -/

omit [DecidableEq V] in
/-- Where the change leaves those that point at an entry. -/
def Change.follow : Change V I N → I → Option I
  | .remove i, k => if k = i then none else some k
  | .redirect i j, k => some (if k = i then j else k)
  | _, k => some k

/-- Where a list of changes leaves them. -/
def followAll : List (Change V I N) → I → Option I
  | [], k => some k
  | a :: as, k => (a.follow k).bind (followAll as)

variable {d d' : Directory V I N} {a : Change V I N} {tr tr' : List (Change V I N)} {v : V}
  {i j k : I}

omit [DecidableEq V] in
theorem followAll_append :
    followAll (tr ++ tr') k = (followAll tr k).bind (followAll tr') := by
  induction tr generalizing k with
  | nil => rfl
  | cons a tr ih =>
    rw [List.cons_append, followAll, followAll, Option.bind_assoc]
    exact congrArg _ (funext fun l => ih)

/-- One change: an untouched voice follows its entry. -/
theorem who_apply (h : d.Allowed a) (hv : ¬ a.Touches v) :
    (d.apply a).who v = (d.who v).bind a.follow := by
  cases a with
  | call i n => exact (Option.bind_fun_some _).symm
  | remove i =>
    cases hw : d.who v <;> simp [apply, remove, Change.follow, hw, Option.filter, ite_not]
  | redirect i j =>
    cases hw : d.who v with
    | none => simp [apply, redirect, hw]
    | some k =>
      by_cases hk : k = i
      · have hj : (d.name j).isSome = true := by
          rcases h with hj | hnone
          · exact hj
          · exact absurd (hw.trans (congrArg some hk)) (hnone v)
        simp [apply, redirect, Change.follow, hw, hk, hj]
      · simp [apply, redirect, Change.follow, hw, hk]
  | point w i => exact (Function.update_of_ne (Ne.symm hv) _ _).trans (Option.bind_fun_some _).symm
  | release p => exact (if_neg hv).trans (Option.bind_fun_some _).symm

/-- Any number of changes: an untouched voice follows its entry through all of them. -/
theorem who_of_run (h : Run (fun d a => some (d.apply a)) Allowed d tr d')
    (hv : ∀ a ∈ tr, ¬ a.Touches v) : d'.who v = (d.who v).bind (followAll tr) := by
  induction h with
  | nil => exact (Option.bind_fun_some _).symm
  | @snoc tr d₁ d₂ a hrun hok hstep ih =>
    rw [← Option.some.inj hstep, who_apply hok (hv a (List.mem_append_right _ List.mem_cons_self)),
      ih fun b hb => hv b (List.mem_append_left _ hb), Option.bind_assoc]
    refine congrArg _ (funext fun k => ?_)
    rw [followAll_append]
    exact congrArg _ (funext fun l => (Option.bind_fun_some _).symm)

/-! ## Names -/

/-- Only a call gives an entry another name. -/
theorem name_apply {n : N} (hcall : ∀ m, a ≠ .call i m) (hn : (d.apply a).name i = some n) :
    d.name i = some n := by
  cases a with
  | call j m =>
    have hne : i ≠ j := by
      rintro rfl
      exact hcall m rfl
    exact (Function.update_of_ne hne _ _).symm.trans hn
  | remove j =>
    by_cases hij : i = j <;> simp_all [apply, remove]
  | redirect j l => exact hn
  | point w j => exact hn
  | release p => exact hn

end Directory
end ScribeLocal
