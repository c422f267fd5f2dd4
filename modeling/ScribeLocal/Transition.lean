import Mathlib.Tactic

/-!
# Labelled runs of a partial transition function

A label names the party that moves and everything it learns from outside. A run
records its labels, so a statement can speak of what happened before what. The
guard `ok` restricts which steps a run may take, in the state they are taken.
-/
namespace ScribeLocal.Transition

variable {σ α : Type*} {step : σ → α → Option σ} {ok ok' : σ → α → Prop}

/-- Execute a list of labels, or fail at the first one that is not enabled. -/
def exec (step : σ → α → Option σ) (s : σ) : List α → Option σ
  | [] => some s
  | a :: as => (step s a).bind fun s' => exec step s' as

/-- `tr` leads from `s₀` to `s`, and `ok` held at each of its steps. -/
inductive Run (step : σ → α → Option σ) (ok : σ → α → Prop) (s₀ : σ) : List α → σ → Prop
  | nil : Run step ok s₀ [] s₀
  | snoc {tr : List α} {s s' : σ} (a : α) (hrun : Run step ok s₀ tr s) (hok : ok s a)
      (hstep : step s a = some s') : Run step ok s₀ (tr ++ [a]) s'

/-- Every step is allowed. -/
def anyStep (_ : σ) (_ : α) : Prop := True

theorem Run.mono {s₀ s : σ} {tr : List α} (h : Run step ok s₀ tr s)
    (himp : ∀ s a, ok s a → ok' s a) : Run step ok' s₀ tr s := by
  induction h with
  | nil => exact .nil
  | snoc a _ hok hstep ih => exact .snoc a ih (himp _ _ hok) hstep

theorem Run.trans {s₀ s s' : σ} {tr tr' : List α} (h : Run step ok s₀ tr s)
    (h' : Run step ok s tr' s') : Run step ok s₀ (tr ++ tr') s' := by
  induction h' with
  | nil => simpa using h
  | snoc a _ hok hstep ih => rw [← List.append_assoc]; exact .snoc a ih hok hstep

/-- A run of labels that are put together is two runs. -/
theorem Run.split {s₀ s : σ} {tr tr' : List α} (h : Run step ok s₀ (tr ++ tr') s) :
    ∃ s₁, Run step ok s₀ tr s₁ ∧ Run step ok s₁ tr' s := by
  induction tr' using List.reverseRecOn generalizing s with
  | nil =>
    rw [List.append_nil] at h
    exact ⟨s, h, .nil⟩
  | append_singleton tr' a ih =>
    rw [← List.append_assoc] at h
    generalize hall : (tr ++ tr') ++ [a] = all at h
    cases h with
    | nil => simp at hall
    | @snoc tr₀ s' _ b hrun hok hstep =>
      obtain ⟨htr, hlast⟩ := List.append_inj' hall rfl
      cases htr
      cases List.singleton_inj.mp hlast
      obtain ⟨s₁, hfirst, hrest⟩ := ih hrun
      exact ⟨s₁, hfirst, .snoc a hrest hok hstep⟩

/-- The invariant rule: what holds at the start and survives each step holds throughout. -/
theorem Run.invariant {I : σ → Prop} {s₀ s : σ} {tr : List α} (h : Run step ok s₀ tr s)
    (hinit : I s₀) (hstep : ∀ s a s', I s → ok s a → step s a = some s' → I s') : I s := by
  induction h with
  | nil => exact hinit
  | snoc a _ hok hs ih => exact hstep _ a _ ih hok hs

/-- The invariant rule for an invariant that also reads the labels so far. -/
theorem Run.history {I : List α → σ → Prop} {s₀ s : σ} {tr : List α} (h : Run step ok s₀ tr s)
    (hinit : I [] s₀)
    (hstep : ∀ tr s a s', Run step ok s₀ tr s → I tr s → ok s a → step s a = some s' →
      I (tr ++ [a]) s') : I tr s := by
  induction h with
  | nil => exact hinit
  | snoc a hrun hok hs ih => exact hstep _ _ a _ hrun ih hok hs

/-- Executing labels that are all allowed is running them. -/
theorem run_of_allowed {s₀ s : σ} {tr : List α} (h : exec step s₀ tr = some s)
    (hok : ∀ a ∈ tr, ∀ s, ok s a) : Run step ok s₀ tr s := by
  induction tr generalizing s₀ with
  | nil => obtain rfl : s₀ = s := by simpa [exec] using h
           exact .nil
  | cons a tr ih =>
    obtain ⟨s₁, hs, htail⟩ := Option.bind_eq_some_iff.mp h
    have hhead : Run step ok s₀ ([] ++ [a]) s₁ := .snoc a .nil (hok a List.mem_cons_self _) hs
    exact hhead.trans (ih htail fun a' ha' => hok a' (List.mem_cons_of_mem a ha'))

/-- Executing labels is running them without a guard. -/
theorem run_of_exec {s₀ s : σ} {tr : List α} (h : exec step s₀ tr = some s) :
    Run step anyStep s₀ tr s :=
  run_of_allowed h fun _ _ _ => trivial

theorem exec_append {s₀ s : σ} {tr : List α} (h : exec step s₀ tr = some s) (tr' : List α) :
    exec step s₀ (tr ++ tr') = exec step s tr' := by
  induction tr generalizing s₀ with
  | nil =>
    cases h
    rfl
  | cons a tr ih =>
    rcases Option.bind_eq_some_iff.mp h with ⟨s₁, hs, htail⟩
    rw [List.cons_append, exec, hs]
    exact ih htail

/-- Whatever the guard, the labels of a run execute. -/
theorem Run.exec_eq {s₀ s : σ} {tr : List α} (h : Run step ok s₀ tr s) :
    exec step s₀ tr = some s := by
  induction h with
  | nil => rfl
  | snoc a _ _ hstep ih =>
    rw [exec_append ih, exec, hstep]
    rfl

/-- A list of labels that executes is a run to the state it leaves. -/
theorem run_of_isSome {s₀ : σ} {tr : List α} (h : (exec step s₀ tr).isSome = true) :
    Run step anyStep s₀ tr ((exec step s₀ tr).get h) :=
  run_of_exec (Option.some_get h).symm

/-- The steps a decidable test lets through. -/
def guarded (step : σ → α → Option σ) (b : σ → α → Bool) (s : σ) (a : α) : Option σ :=
  if b s a then step s a else none

theorem Run.of_guarded {b : σ → α → Bool} {s₀ s : σ} {tr : List α}
    (h : Run (guarded step b) anyStep s₀ tr s) (hb : ∀ s a, b s a = true → ok s a) :
    Run step ok s₀ tr s := by
  induction h with
  | nil => exact .nil
  | snoc a _ _ hstep ih =>
    rw [guarded, Option.ite_none_right_eq_some] at hstep
    exact .snoc a ih (hb _ _ hstep.1) hstep.2

/-- An invariant of the run may be used to meet a stronger guard. -/
theorem Run.strengthen {I : σ → Prop} {s₀ s : σ} {tr : List α} (h : Run step ok s₀ tr s)
    (hinit : I s₀) (hstep : ∀ s a s', I s → ok s a → step s a = some s' → I s')
    (himp : ∀ s a, I s → ok s a → ok' s a) : Run step ok' s₀ tr s := by
  induction h with
  | nil => exact .nil
  | snoc a hrun hok hs ih => exact .snoc a ih (himp _ _ (hrun.invariant hinit hstep) hok) hs

/-- A property that a step keeps exactly when the guard allows the step holds all along a run
exactly when the guard allows all of it. -/
theorem Run.always_iff {P I : σ → Prop} {s₀ s : σ} {tr : List α} (h : Run step anyStep s₀ tr s)
    (hI : I s₀) (hP : P s₀) (hIstep : ∀ s a s', I s → step s a = some s' → I s')
    (hstep : ∀ s a s', I s → P s → step s a = some s' → (P s' ↔ ok s a)) :
    (∀ tr₁ s₁, tr₁ <+: tr → Run step anyStep s₀ tr₁ s₁ → P s₁) ↔ Run step ok s₀ tr s := by
  constructor
  · intro hall
    induction h with
    | nil => exact .nil
    | @snoc tr s s' a hrun _ hs ih =>
      have hpre : Run step ok s₀ tr s := ih fun tr₁ s₁ hle => hall tr₁ s₁ (hle.trans (tr.prefix_append [a]))
      have hIs : I s := hrun.invariant hI fun s a s' hi _ hs => hIstep s a s' hi hs
      have hPs : P s := hall tr s (tr.prefix_append [a]) hrun
      have hPs' : P s' := hall (tr ++ [a]) s' (List.prefix_refl _) (.snoc a hrun trivial hs)
      exact .snoc a hpre ((hstep s a s' hIs hPs hs).mp hPs') hs
  · intro hok
    induction hok with
    | nil =>
      intro tr₁ s₁ hle hrun
      rw [List.prefix_nil.mp hle] at hrun
      cases hrun.exec_eq
      exact hP
    | @snoc tr s s' a hrun hok hs ih =>
      have hany : Run step anyStep s₀ tr s := hrun.mono fun _ _ _ => trivial
      intro tr₁ s₁ hle hrun₁
      rcases List.prefix_concat_iff.mp hle with rfl | hle
      · have hsame : s₁ = s' := by
          have heq := hrun₁.exec_eq
          rw [exec_append hany.exec_eq, exec, hs] at heq
          exact (Option.some.inj heq).symm
        rw [hsame]
        have hIs : I s := hany.invariant hI fun s a s' hi _ hs => hIstep s a s' hi hs
        exact (hstep s a s' hIs (ih hany tr s (List.prefix_refl _) hany) hs).mpr hok
      · exact ih hany tr₁ s₁ hle hrun₁

/-- Simulation: where each step of one system is a run of another, so is each of its runs. -/
theorem Run.simulates {σ' α' : Type*} {step' : σ' → α' → Option σ'} {ok₂ : σ' → α' → Prop}
    {f : σ → σ'} {I : σ → Prop} {s₀ s : σ} {tr : List α} (h : Run step ok s₀ tr s) (hinit : I s₀)
    (hstep : ∀ s a s', I s → ok s a → step s a = some s' → I s')
    (hsim : ∀ s a s', I s → ok s a → step s a = some s' →
      ∃ tr', Run step' ok₂ (f s) tr' (f s')) : ∃ tr', Run step' ok₂ (f s₀) tr' (f s) := by
  induction h with
  | nil => exact ⟨[], .nil⟩
  | snoc a hrun hok hs ih =>
    rcases ih with ⟨tr₁, hrun₁⟩
    rcases hsim _ a _ (hrun.invariant hinit hstep) hok hs with ⟨tr₂, hrun₂⟩
    exact ⟨tr₁ ++ tr₂, hrun₁.trans hrun₂⟩

theorem run_one {s s' : σ} {a : α} (hok : ok s a) (hstep : step s a = some s') :
    ∃ tr, Run step ok s tr s' := ⟨[] ++ [a], .snoc a .nil hok hstep⟩

/-- A list of labels that executes under a test is a run under any guard the test implies. -/
theorem run_of_guarded {b : σ → α → Bool} {s₀ : σ} {tr : List α}
    (h : (exec (guarded step b) s₀ tr).isSome = true) (hb : ∀ s a, b s a = true → ok s a) :
    Run step ok s₀ tr ((exec (guarded step b) s₀ tr).get h) :=
  (run_of_isSome h).of_guarded hb

/-! ## Notes

A note is taken at each step of a run, from the state the step is taken in. It records
what happened and decides nothing: a run has its notes whatever they say.
-/

variable {β : Type*} {note : σ → α → β → β}

/-- The note at the end of `tr`, from `b` on. -/
def notes (step : σ → α → Option σ) (note : σ → α → β → β) (s : σ) (b : β) : List α → β
  | [] => b
  | a :: as => (step s a).elim b fun s' => notes step note s' (note s a b) as

theorem Run.notes_append {s₀ s : σ} {tr : List α} (h : Run step ok s₀ tr s) (b : β)
    (tr' : List α) :
    notes step note s₀ b (tr ++ tr') = notes step note s (notes step note s₀ b tr) tr' := by
  induction h generalizing tr' with
  | nil => rfl
  | snoc a _ _ hs ih =>
    rw [List.append_assoc, ih, ih [a]]
    simp [notes, hs]

theorem Run.notes_snoc {s₀ s s' : σ} {tr : List α} {a : α} (h : Run step ok s₀ tr s) (b : β)
    (hstep : step s a = some s') :
    notes step note s₀ b (tr ++ [a]) = note s a (notes step note s₀ b tr) := by
  simp [h.notes_append, notes, hstep]

/-- The invariant rule for an invariant that also reads the notes. -/
theorem Run.noted {I : β → σ → Prop} {s₀ s : σ} {tr : List α} {b : β}
    (h : Run step ok s₀ tr s) (hinit : I b s₀)
    (hstep : ∀ b s a s', I b s → ok s a → step s a = some s' → I (note s a b) s') :
    I (notes step note s₀ b tr) s := by
  induction h with
  | nil => exact hinit
  | snoc a hrun hok hs ih =>
    rw [hrun.notes_snoc b hs]
    exact hstep _ _ a _ ih hok hs

/-- The same system with its notes, for a guard that reads them. -/
def withNotes (step : σ → α → Option σ) (note : σ → α → β → β) (p : σ × β) (a : α) :
    Option (σ × β) :=
  (step p.1 a).map fun s' => (s', note p.1 a p.2)

theorem withNotes_eq_some {p p' : σ × β} {a : α} :
    withNotes step note p a = some p' ↔ step p.1 a = some p'.1 ∧ p'.2 = note p.1 a p.2 := by
  rw [withNotes, Option.map_eq_some_iff]
  constructor
  · rintro ⟨s', hs, rfl⟩
    exact ⟨hs, rfl⟩
  · rintro ⟨hs, hb⟩
    exact ⟨p'.1, hs, Prod.ext rfl hb.symm⟩

/-- A run with its notes is a run. -/
theorem Run.fst {ok : σ × β → α → Prop} {p₀ p : σ × β} {tr : List α}
    (h : Run (withNotes step note) ok p₀ tr p) : Run step anyStep p₀.1 tr p.1 := by
  induction h with
  | nil => exact .nil
  | snoc a _ _ hstep ih => exact .snoc a ih trivial (withNotes_eq_some.mp hstep).1

/-! ## Tallies

`tally w` adds up the weight of each step of a run, in the state it is taken.
-/

/-- Total weight of the steps `tr` takes from `s`. -/
def tally (step : σ → α → Option σ) (w : σ → α → ℕ) (s : σ) : List α → ℕ
  | [] => 0
  | a :: as => w s a + ((step s a).elim 0 fun s' => tally step w s' as)

theorem Run.tally_append {w : σ → α → ℕ} {s₀ s : σ} {tr : List α} (h : Run step ok s₀ tr s)
    (tr' : List α) :
    tally step w s₀ (tr ++ tr') = tally step w s₀ tr + tally step w s tr' := by
  induction h generalizing tr' with
  | nil => simp [tally]
  | snoc a _ _ hs ih =>
    rw [List.append_assoc, ih, ih [a]]
    simp [tally, hs, Nat.add_assoc]

theorem Run.tally_snoc {w : σ → α → ℕ} {s₀ s s' : σ} {tr : List α} {a : α}
    (h : Run step ok s₀ tr s) (hstep : step s a = some s') :
    tally step w s₀ (tr ++ [a]) = tally step w s₀ tr + w s a := by
  simp [h.tally_append, tally, hstep]

/-- Amortised bound: where each step pays its cost out of the potential and its
credit, the total cost is at most the first potential plus the total credit. -/
theorem Run.tally_le {cost credit : σ → α → ℕ} {φ : σ → ℕ} {s₀ s : σ} {tr : List α}
    (h : Run step ok s₀ tr s)
    (hpay : ∀ s a s', ok s a → step s a = some s' → cost s a + φ s' ≤ φ s + credit s a) :
    tally step cost s₀ tr + φ s ≤ φ s₀ + tally step credit s₀ tr := by
  induction h with
  | nil => simp [tally]
  | snoc a hrun hok hstep ih =>
    rw [hrun.tally_snoc hstep, hrun.tally_snoc hstep]
    have := hpay _ _ _ hok hstep
    omega

end ScribeLocal.Transition
