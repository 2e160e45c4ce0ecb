import Mathlib

/-! # Fallible code that returns

    Code that may fail returns a value or an error.  Some errors are answers;
    others, the faults, say that the code did something it never may.
    `Returns Fault x Q` says of a result that it is not a fault, and that `Q`
    holds if it is a value.

    The rules follow the code: what a first part returns is what the rest may
    assume. -/

namespace Outcome

variable {ε α β : Type} {Fault : ε → Prop} {x : Except ε α} {Q R : α → Prop}

/-- No fault, and a value that satisfies `Q` if there is a value. -/
def Returns (Fault : ε → Prop) (x : Except ε α) (Q : α → Prop) : Prop :=
  match x with
  | .ok a => Q a
  | .error e => ¬ Fault e

variable {a : α} {e : ε} {f : α → Except ε β} {b : β}

theorem of_ok (h : Q a) : Returns Fault (.ok a) Q := h

theorem of_pure (h : Q a) : Returns Fault (pure a : Except ε α) Q := h

theorem of_error (h : ¬ Fault e) : Returns Fault (.error e) Q := h

theorem of_throw (h : ¬ Fault e) : Returns Fault (throw e : Except ε α) Q := h

theorem Returns.imp (h : Returns Fault x Q) (himp : ∀ a, Q a → R a) : Returns Fault x R := by
  cases x with
  | ok a => exact himp a h
  | error e => exact h

/-- The value, when there is one. -/
theorem Returns.ok (h : Returns Fault x Q) (ha : x = .ok a) : Q a := by
  subst ha
  exact h

/-- The error, when there is one. -/
theorem Returns.error (h : Returns Fault x Q) (he : x = .error e) : ¬ Fault e := by
  subst he
  exact h

/-- Both parts return a value when the whole does. -/
theorem bind_eq_ok : (x >>= f) = .ok b ↔ ∃ a, x = .ok a ∧ f a = .ok b := by
  cases x with
  | ok a => exact ⟨fun h => ⟨a, rfl, h⟩, fun ⟨_, ha, h⟩ => Except.ok.inj ha ▸ h⟩
  | error e => exact ⟨fun h => (nomatch h), fun ⟨_, ha, _⟩ => (nomatch ha)⟩

theorem ok_bind (a : α) : ((Except.ok a : Except ε α) >>= f) = f a := rfl

theorem bind_pure_eq_map {f : α → β} : (x >>= fun a => pure (f a)) = x.map f := by
  cases x <;> rfl

/-! ## With a state -/

section
variable {σ : Type} {p : StateT σ (Except ε) α} {s s' : σ}

theorem run_pure_eq_ok {b : α} :
    (pure a : StateT σ (Except ε) α) s = .ok (b, s') ↔ a = b ∧ s = s' := by
  constructor
  · intro h
    exact Prod.mk.inj (Except.ok.inj h)
  · rintro ⟨rfl, rfl⟩
    rfl

theorem run_bind_eq_ok {f : α → StateT σ (Except ε) β} :
    (p >>= f) s = .ok (b, s') ↔ ∃ a t, p s = .ok (a, t) ∧ f a t = .ok (b, s') := by
  show (p s >>= fun r => f r.1 r.2) = _ ↔ _
  rw [bind_eq_ok]
  exact ⟨fun ⟨r, h, hf⟩ => ⟨r.1, r.2, h, hf⟩, fun ⟨a, t, h, hf⟩ => ⟨(a, t), h, hf⟩⟩

theorem run_map_eq_ok {f : α → β} :
    (f <$> p) s = .ok (b, s') ↔ ∃ a, p s = .ok (a, s') ∧ f a = b := by
  refine (run_bind_eq_ok : (p >>= fun a => pure (f a)) s = _ ↔ _).trans ?_
  simp only [run_pure_eq_ok]
  constructor
  · rintro ⟨a, _, ha, rfl, rfl⟩
    exact ⟨a, ha, rfl⟩
  · rintro ⟨a, ha, rfl⟩
    exact ⟨a, s', ha, rfl, rfl⟩

theorem run_throw_ne_ok : (throw e : StateT σ (Except ε) α) s ≠ .ok (a, s') := nofun

end

/-! ## The rules -/

/-- **ONE PART AFTER ANOTHER**. -/
theorem Returns.bind {S : β → Prop} (h : Returns Fault x Q)
    (hf : ∀ a, Q a → Returns Fault (f a) S) :
    Returns Fault (x >>= f) S := by
  cases x with
  | ok a => exact hf a h
  | error e => exact h

theorem Returns.map {f : α → β} {S : β → Prop} (h : Returns Fault x Q) (hf : ∀ a, Q a → S (f a)) :
    Returns Fault (x.map f) S := by
  cases x with
  | ok a => exact hf a h
  | error e => exact h

theorem of_ite {c : Prop} [Decidable c] {y : Except ε α} (hx : c → Returns Fault x Q)
    (hy : ¬ c → Returns Fault y Q) : Returns Fault (if c then x else y) Q := by
  split
  · next h => exact hx h
  · next h => exact hy h

/-- Refuse to go on when something holds; what is gone on with is known not to
    hold. -/
def refuse (c : Prop) [Decidable c] (e : ε) : Except ε (PLift (¬ c)) :=
  if h : c then .error e else .ok ⟨h⟩

theorem of_refuse {c : Prop} [Decidable c] (h : ¬ Fault e) :
    Returns Fault (refuse c e) (fun _ => ¬ c) := by
  rw [refuse]
  split
  · exact h
  · next hc => exact hc

end Outcome
