import LetLang.Error
import LetLang.Fault

/-!
# Computations on a state

A computation changes a state and ends with a value or with a failure; what it did to the state
before a failure stays.
-/

namespace LetLang

inductive Failure where
  /-- The program is wrong. -/
  | error (e : Error)
  | fault (f : Fault)
  /-- The calls nest deeper than the evaluation was followed. -/
  | exhausted
deriving DecidableEq

def Stateful (σ α : Type) : Type := σ → Except Failure α × σ

namespace Stateful

variable {σ α β : Type}

def done (a : α) : Stateful σ α := fun s => (.ok a, s)

def andThen (act : Stateful σ α) (next : α → Stateful σ β) : Stateful σ β := fun s =>
  match act s with
  | (.ok a, s) => next a s
  | (.error f, s) => (.error f, s)

instance : Monad (Stateful σ) where
  pure := done
  bind := andThen

theorem bind_ok {act : Stateful σ α} {next : α → Stateful σ β} {s after : σ} {a : α}
    (h : act s = (.ok a, after)) : (act >>= next) s = next a after := by
  simp [bind, andThen, h]

theorem bind_error {act : Stateful σ α} {next : α → Stateful σ β} {s after : σ} {f : Failure}
    (h : act s = (.error f, after)) : (act >>= next) s = (.error f, after) := by
  simp [bind, andThen, h]

theorem bind_eq_ok {act : Stateful σ α} {next : α → Stateful σ β} {s after : σ} {b : β}
    (h : (act >>= next) s = (.ok b, after)) :
    ∃ a middle, act s = (.ok a, middle) ∧ next a middle = (.ok b, after) := by
  rcases called : act s with ⟨result, middle⟩
  cases result with
  | ok a => exact ⟨a, middle, rfl, by rwa [bind_ok called] at h⟩
  | error f =>
    rw [bind_error called] at h
    cases h

theorem bind_fst_eq_error {act : Stateful σ α} {next : α → Stateful σ β} {s : σ} {f : Failure}
    (h : ((act >>= next) s).1 = .error f) :
    (act s).1 = .error f ∨ ∃ a middle, act s = (.ok a, middle) ∧ (next a middle).1 = .error f := by
  rcases called : act s with ⟨result, middle⟩
  cases result with
  | ok a => exact .inr ⟨a, middle, rfl, by rwa [bind_ok called] at h⟩
  | error f' =>
    rw [bind_error called] at h
    cases h
    exact .inl rfl

theorem bind_assoc {γ : Type} (act : Stateful σ α) (next : α → Stateful σ β)
    (last : β → Stateful σ γ) : act >>= next >>= last = act >>= fun a => next a >>= last := by
  funext s
  rcases called : act s with ⟨result, middle⟩
  simp only [bind, andThen, called]
  cases result <;> rfl

theorem bind_congr {act : Stateful σ α} {next other : α → Stateful σ β}
    (h : ∀ s a after, act s = (.ok a, after) → next a = other a) : act >>= next = act >>= other := by
  funext s
  rcases called : act s with ⟨result, middle⟩
  cases result with
  | ok a => rw [bind_ok called, bind_ok called, h s a middle called]
  | error f => rw [bind_error called, bind_error called]

def fail (f : Failure) : Stateful σ α := fun s => (.error f, s)

def error (e : Error) : Stateful σ α := fail (.error e)

def ofExcept : Except Error α → Stateful σ α
  | .ok a => done a
  | .error e => error e

def attempt (act : Stateful σ α) : Stateful σ (Except Failure α) := fun s =>
  match act s with
  | (outcome, s) => (.ok outcome, s)

/-- Ends with the outcome of `act`, after `close`; a failure of `close` takes its place. -/
def guarded (act : Stateful σ α) (close : Stateful σ Unit) : Stateful σ α := fun s =>
  match act s with
  | (outcome, s) =>
    match close s with
    | (.ok _, s) => (outcome, s)
    | (.error f, s) => (.error f, s)

end Stateful

end LetLang
