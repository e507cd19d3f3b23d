import Mathlib.Logic.Basic

/-! Calls that return or fault. `Ensures x Q E` says of a call `x` that what it returns satisfies `Q`
    and that it faults only in ways that `E` allows; with `E` false everywhere it says that the call
    returns. The rules follow the way calls are put together. -/

namespace LinuxNote.Outcome

universe u

variable {ε : Type*} {α β : Type u} {x : Except ε α} {f : α → Except ε β}

/-- The call returns a value with `Q` or faults with `E`. -/
def Ensures (x : Except ε α) (Q : α → Prop) (E : ε → Prop) : Prop :=
  match x with
  | .ok a => Q a
  | .error e => E e

variable {Q P : α → Prop} {E : ε → Prop}

theorem Ensures.imp {Q' : α → Prop} {E' : ε → Prop} (h : Ensures x Q E)
    (hQ : ∀ a, Q a → Q' a) (hE : ∀ e, E e → E' e) : Ensures x Q' E' := by
  cases x with
  | ok a => exact hQ a h
  | error e => exact hE e h

/-- Sequencing: the second call starts from what the first ensures. -/
theorem Ensures.bind {Q : β → Prop} (hx : Ensures x P E) (hf : ∀ a, P a → Ensures (f a) Q E) :
    Ensures (x >>= f) Q E := by
  cases x with
  | ok a => exact hf a hx
  | error e => exact hx

theorem Ensures.map {Q : β → Prop} {g : α → β} (hx : Ensures x P E) (hg : ∀ a, P a → Q (g a)) :
    Ensures (x.map g) Q E := by
  cases x with
  | ok a => exact hg a hx
  | error e => exact hx

/-- What a call that returned is known to satisfy. -/
theorem Ensures.of_ok {a : α} (h : Ensures x Q E) (hx : x = .ok a) : Q a := by
  subst hx; exact h

theorem Ensures.of_error {e : ε} (h : Ensures x Q E) (hx : x = .error e) : E e := by
  subst hx; exact h

/-- A call that never faults returns. -/
theorem Ensures.returns (h : Ensures x Q fun _ => False) : ∃ a, x = .ok a ∧ Q a := by
  cases x with
  | ok a => exact ⟨a, rfl, h⟩
  | error e => exact h.elim

/-- A call that was evaluated returns. -/
theorem exists_ok {γ : Type*} {g : α → γ} {c : γ} (h : x.toOption.map g = some c) :
    ∃ a, x = .ok a ∧ g a = c := by
  cases x with
  | ok a => exact ⟨a, rfl, Option.some.inj h⟩
  | error e => cases h

/-- A guarded step that is taken. -/
theorem of_guard {p : Prop} [Decidable p] {a b : α} (h : (if p then some a else none) = some b) :
    p ∧ a = b := by
  simpa only [Option.ite_none_right_eq_some, Option.some.injEq] using h

end LinuxNote.Outcome
