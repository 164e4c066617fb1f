import LetLang.Interner

/-!
# Shared interners

A call through a handle has two parts: the string is looked up, and it is entered if it was not
found. Calls through other handles may come in between.
-/

namespace LetLang

namespace Interner

/-- An interner and its handles: each is idle, or in the middle of a call with a string that it did
not find. -/
structure Shared where
  names : Interner
  handles : List (Option String)
deriving DecidableEq

namespace Shared

def initial : Shared := ⟨.initial, [none]⟩

inductive Step where
  | clone (h : Nat)
  | look (h : Nat) (s : String)
  | enter (h : Nat)

abbrev Answer := String × Except Fault UInt32

/-- The answer of a call that ends with the step, and what is left. A step that its handle cannot
take does nothing. -/
def perform (shared : Shared) : Step → List Answer × Shared
  | .clone h =>
    match shared.handles[h]? with
    | some _ => ([], { shared with handles := shared.handles ++ [none] })
    | none => ([], shared)
  | .look h s =>
    match shared.handles[h]? with
    | some none =>
      match shared.names.number? s with
      | some n => ([(s, .ok n)], shared)
      | none => ([], { shared with handles := shared.handles.set h (some s) })
    | _ => ([], shared)
  | .enter h =>
    match shared.handles[h]? with
    | some (some s) =>
      let (answer, names) := shared.names.enter s
      ([(s, answer)], ⟨names, shared.handles.set h none⟩)
    | _ => ([], shared)

def performAll (shared : Shared) : List Step → List Answer × Shared
  | [] => ([], shared)
  | step :: steps =>
    let (answers, after) := shared.perform step
    let (more, last) := after.performAll steps
    (answers ++ more, last)

def call (shared : Shared) (h : Nat) (s : String) : List Answer × Shared :=
  shared.performAll [.look h s, .enter h]

variable {shared : Shared} {h : Nat} {s : String}

theorem perform_look_of_known {n : UInt32} (idle : shared.handles[h]? = some none)
    (known : shared.names.number? s = some n) :
    shared.perform (.look h s) = ([(s, .ok n)], shared) := by
  simp only [perform, idle, known]

theorem perform_look_of_new (idle : shared.handles[h]? = some none)
    (new : shared.names.number? s = none) :
    shared.perform (.look h s) = ([], { shared with handles := shared.handles.set h (some s) }) := by
  simp only [perform, idle, new]

theorem perform_enter_of_idle (idle : shared.handles[h]? = some none) :
    shared.perform (.enter h) = ([], shared) := by
  simp only [perform, idle]

theorem perform_enter_of_waiting (waiting : shared.handles[h]? = some (some s)) :
    shared.perform (.enter h) =
      ([(s, (shared.names.enter s).1)],
        ⟨(shared.names.enter s).2, shared.handles.set h none⟩) := by
  simp only [perform, waiting]

theorem performAll_cons (shared : Shared) (step : Step) (steps : List Step) :
    shared.performAll (step :: steps) =
      ((shared.perform step).1 ++ ((shared.perform step).2.performAll steps).1,
        ((shared.perform step).2.performAll steps).2) := rfl

end Shared

end Interner

end LetLang
