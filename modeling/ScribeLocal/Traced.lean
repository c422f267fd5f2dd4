import Mathlib.Tactic.TypeStar

/-!
# Traced computations

A computation that hands out items one after another and may fail. What it has handed
out stays on record when it fails.
-/
namespace ScribeLocal

/-- The items a computation has handed out, and its result. -/
structure Traced (ι ε α : Type*) where
  items : List ι
  result : Except ε α

namespace Traced
universe u

variable {ι ε : Type*} {α β : Type u}

def bind (m : Traced ι ε α) (f : α → Traced ι ε β) : Traced ι ε β :=
  match m.result with
  | .ok a => ⟨m.items ++ (f a).items, (f a).result⟩
  | .error e => ⟨m.items, .error e⟩

instance : Monad (Traced ι ε) where
  pure a := ⟨[], .ok a⟩
  bind := bind

/-- Hand out one item for a result. -/
def hand (i : ι) (result : Except ε α) : Traced ι ε α := ⟨[i], result⟩

/-- Every item handed out satisfies `p`. -/
def All (p : ι → Prop) (m : Traced ι ε α) : Prop := ∀ i ∈ m.items, p i

variable {p : ι → Prop}

@[simp] theorem all_pure (a : α) : All p (pure a : Traced ι ε α) := nofun

@[simp] theorem all_hand (i : ι) (result : Except ε α) : All p (hand i result) ↔ p i := by
  simp [All, hand]

/-- The second half hands out nothing when the first has failed. -/
@[simp] theorem all_bind (m : Traced ι ε α) (f : α → Traced ι ε β) :
    All p (m >>= f) ↔ All p m ∧ ∀ a, m.result = .ok a → All p (f a) := by
  change All p (m.bind f) ↔ _
  cases hm : m.result with
  | ok a => simp [All, bind, hm, or_imp, forall_and]
  | error e => simp [All, bind, hm]

@[simp] theorem result_pure (a : α) : (pure a : Traced ι ε α).result = .ok a := rfl

@[simp] theorem result_hand (i : ι) (result : Except ε α) : (hand i result).result = result := rfl

theorem result_bind (m : Traced ι ε α) (f : α → Traced ι ε β) :
    (m >>= f).result = m.result.bind fun a => (f a).result := by
  change (m.bind f).result = _
  cases hm : m.result with
  | ok a => simp [bind, hm, Except.bind]
  | error e => simp [bind, hm, Except.bind]

theorem result_bind_of_ok {m : Traced ι ε α} {f : α → Traced ι ε β} {a : α}
    (h : m.result = .ok a) : (m >>= f).result = (f a).result := by
  rw [result_bind, h]
  rfl

@[simp] theorem items_pure (a : α) : (pure a : Traced ι ε α).items = [] := rfl

@[simp] theorem items_hand (i : ι) (result : Except ε α) : (hand i result).items = [i] := rfl

theorem items_bind (m : Traced ι ε α) (f : α → Traced ι ε β) :
    (m >>= f).items = m.items ++ match m.result with
      | .ok a => (f a).items
      | .error _ => [] := by
  change (m.bind f).items = _
  cases hm : m.result with
  | ok a => simp [bind, hm]
  | error e => simp [bind, hm]

theorem items_bind_pure (m : Traced ι ε α) (f : α → β) :
    (m >>= fun a => pure (f a)).items = m.items := by
  rw [items_bind]
  cases m.result with
  | ok a => exact List.append_nil _
  | error e => exact List.append_nil _

theorem items_bind_of_ok {m : Traced ι ε α} {f : α → Traced ι ε β} {a : α}
    (h : m.result = .ok a) : (m >>= f).items = m.items ++ (f a).items := by
  rw [items_bind, h]

theorem exists_of_result_bind {m : Traced ι ε α} {f : α → Traced ι ε β} {b : β}
    (h : (m >>= f).result = .ok b) : ∃ a, m.result = .ok a ∧ (f a).result = .ok b := by
  rw [result_bind] at h
  cases hm : m.result with
  | ok a =>
    rw [hm] at h
    exact ⟨a, rfl, h⟩
  | error e =>
    rw [hm] at h
    cases h

theorem bind_eq (m : Traced ι ε α) (f : α → Traced ι ε β) : m >>= f = m.bind f := rfl

theorem id_map' (m : Traced ι ε α) : id <$> m = m := by
  change m.bind pure = m
  rcases m with ⟨items, e | a⟩
  · rfl
  · simp [bind]

/-- What is handed out does not depend on how the steps are grouped. -/
theorem bind_assoc' {γ : Type u} (m : Traced ι ε α) (f : α → Traced ι ε β) (g : β → Traced ι ε γ) :
    m >>= f >>= g = m >>= fun a => f a >>= g := by
  rcases m with ⟨items, e | a⟩
  · rfl
  · simp only [bind_eq, bind]
    cases (f a).result with
    | error e => rfl
    | ok b => simp

instance : LawfulMonad (Traced ι ε) :=
  LawfulMonad.mk' _ id_map' (fun _ _ => rfl) bind_assoc'

theorem All.imp {q : ι → Prop} {m : Traced ι ε α} (h : All p m) (hpq : ∀ i, p i → q i) :
    All q m := fun i hi => hpq i (h i hi)

end Traced
end ScribeLocal
