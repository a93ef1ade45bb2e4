import Mathlib.Control.Monad.Basic

/-! Loops in the `Except` monad that thread a state through a check of each element and throw
at the first element that fails. When whether an element passes does not depend on the
state, the loop returns normally exactly when every element passes. -/

namespace ExceptFold

variable {α σ ε : Type}

/-- A bind that returns normally ran both of its parts normally. -/
theorem bind_eq_ok {β : Type} {x : Except ε α} {g : α → Except ε β} {b : β} (ok : (x >>= g) = .ok b) :
    ∃ a, x = .ok a ∧ g a = .ok b := by
  cases x with
  | error e => cases ok
  | ok a => exact ⟨a, rfl, ok⟩

/-- A map that returns normally ran its argument normally. -/
theorem map_eq_ok {β : Type} {x : Except ε α} {g : α → β} {b : β} (ok : x.map g = .ok b) :
    ∃ a, x = .ok a ∧ g a = b := by
  cases x with
  | error e => cases ok
  | ok a => exact ⟨a, rfl, Except.ok.inj ok⟩

theorem ok_bind {β : Type} (a : α) (g : α → Except ε β) : (Except.ok a >>= g) = g a := rfl

theorem bind_eq_ok_iff {β : Type} {x : Except ε α} {g : α → Except ε β} {b : β} :
    (x >>= g) = .ok b ↔ ∃ a, x = .ok a ∧ g a = .ok b := by
  refine ⟨bind_eq_ok, ?_⟩
  rintro ⟨a, rfl, ok⟩
  exact ok

variable {f : σ → α → Except ε σ} (passes : α → Prop)

theorem foldlM_isOk_iff (frame : ∀ s x, (∃ s', f s x = .ok s') ↔ passes x) (xs : List α) (init : σ) :
    (∃ s, xs.foldlM f init = .ok s) ↔ ∀ x ∈ xs, passes x := by
  induction xs generalizing init with
  | nil => exact ⟨fun _ _ absent => absurd absent List.not_mem_nil, fun _ => ⟨init, rfl⟩⟩
  | cons x rest ih =>
    rw [List.foldlM_cons, List.forall_mem_cons]
    cases stepped : f init x with
    | error e =>
      -- the loop throws here, and the element fails
      have fails : ¬ passes x := fun pass => by
        obtain ⟨_, ok⟩ := (frame init x).mpr pass
        rw [stepped] at ok
        cases ok
      exact ⟨fun ⟨_, thrown⟩ => (nomatch thrown), fun both => absurd both.1 fails⟩
    | ok next =>
      have pass : passes x := (frame init x).mp ⟨next, stepped⟩
      exact (ih next).trans ⟨fun rest => ⟨pass, rest⟩, fun both => both.2⟩

end ExceptFold
