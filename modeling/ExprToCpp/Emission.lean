import ExprToCpp.Include
import ExprToCpp.Refusal

/-!
# Emissions

The outcome of emitting C++: a value or a refusal, and the headers needed on the way, in order. A refusal keeps the needs
that came before it. An emission is a value, not an action: it depends on no list of headers. A session writes into its lists
as it goes, and what it does is shown to follow the emission.
-/

namespace ExprToCpp

/-- A value or a refusal, with the headers needed up to there. -/
@[ext]
structure Emission (α : Type) where
  needs : List Include
  outcome : Except Refusal α

namespace Emission

variable {α β : Type}

/-- No needs and a value. -/
def ok (a : α) : Emission α := ⟨[], .ok a⟩

/-- No needs and a refusal. -/
def refuse (r : Refusal) : Emission α := ⟨[], .error r⟩

/-- A need for a header. -/
def need (i : Include) : Emission Unit := ⟨[i], .ok ()⟩

def ofExcept (x : Except Refusal α) : Emission α := ⟨[], x⟩

/-- One emission after another; after a refusal nothing more is needed. -/
def andThen (x : Emission α) (f : α → Emission β) : Emission β :=
  match x.outcome with
  | .ok a => ⟨x.needs ++ (f a).needs, (f a).outcome⟩
  | .error r => ⟨x.needs, .error r⟩

instance : Monad Emission where
  pure := ok
  bind := andThen

@[simp] theorem needs_pure (a : α) : (pure a : Emission α).needs = [] := rfl

@[simp] theorem outcome_pure (a : α) : (pure a : Emission α).outcome = .ok a := rfl

/-- What comes after a value adds its own needs. -/
theorem bind_of_ok {x : Emission α} {a : α} (h : x.outcome = .ok a) (f : α → Emission β) :
    x >>= f = ⟨x.needs ++ (f a).needs, (f a).outcome⟩ := by
  simp [bind, andThen, h]

/-- A refusal ends the needs. -/
theorem bind_of_error {x : Emission α} {r : Refusal} (h : x.outcome = .error r) (f : α → Emission β) :
    x >>= f = ⟨x.needs, .error r⟩ := by
  simp [bind, andThen, h]

/-- After a success the needs of the second step come after those of the first. -/
theorem needs_bind_of_ok {x : Emission α} {a : α} (h : x.outcome = .ok a) (f : α → Emission β) :
    (x >>= f).needs = x.needs ++ (f a).needs := by
  rw [bind_of_ok h]

/-- After a refusal the second step needs nothing. -/
theorem needs_bind_of_error {x : Emission α} {r : Refusal} (h : x.outcome = .error r) (f : α → Emission β) :
    (x >>= f).needs = x.needs := by
  rw [bind_of_error h]

/-- Outcomes follow one another whatever the needs are. -/
theorem outcome_bind (x : Emission α) (f : α → Emission β) :
    (x >>= f).outcome = x.outcome >>= fun a => (f a).outcome := by
  obtain ⟨n, o⟩ := x
  cases o <;> rfl

/-- The values of a list of emissions, one after another. -/
def sequence : List (Emission α) → Emission (List α)
  | [] => pure []
  | x :: xs => do
    let a ← x
    let as ← sequence xs
    return a :: as

theorem andThen_ok (x : Emission α) : x.andThen ok = x := by
  obtain ⟨n, o⟩ := x
  cases o <;> simp [andThen, ok]

theorem ok_andThen (a : α) (f : α → Emission β) : (ok a).andThen f = f a := by
  simp [andThen, ok]

theorem andThen_assoc {γ : Type} (x : Emission α) (f : α → Emission β) (g : β → Emission γ) :
    (x.andThen f).andThen g = x.andThen fun a => (f a).andThen g := by
  obtain ⟨n, o⟩ := x
  cases o with
  | error r => rfl
  | ok a =>
    simp only [andThen]
    cases (f a).outcome <;> simp

instance : LawfulMonad Emission :=
  LawfulMonad.mk' Emission (fun x => andThen_ok x) (fun a f => ok_andThen a f) (fun x f g => andThen_assoc x f g)

end Emission

end ExprToCpp
