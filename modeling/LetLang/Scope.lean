import LetLang.Evaluation

/-!
# Scopes

A scope holds the bindings that its actions make and takes them away when it is closed. Scopes nest;
an abort closes the innermost one only.
-/

namespace LetLang

/-- A request leaves the bindings of its scope as they are. -/
inductive Request where
  | eval (e : Expr)
  | evalWithBindings (bindings : List (Token × Value)) (body : Expr)
  | get (t : Token)
  | bindingDepth (t : Token)
  | isUnbound
  | mode
  | boundCount
  | malformed (m : Malformed)

inductive Action where
  | bind (t : Token) (v : Value)
  | request (r : Request)
  | scope (actions : List Action)
  | abort (message : String)

inductive Answer where
  | bound (result : Except Failure Unit)
  | evaluated (result : Except Failure Value) (output written : String) (callDepth : Nat)
      (isUnbound : Bool)
  /-- The count is of the bindings made when the body was started, if it was. -/
  | evaluatedWithBindings (result : Except Failure Value) (count : Option Nat)
  | value (result : Except Error Value)
  | count (n : Nat)
  | flag (b : Bool)
  | mode (m : Mode)
  | malformed (m : Malformed)
  | scope (answers : List Answer)
  | aborted (message : String)

namespace Request

def answer (bound : Nat) (r : Request) (m : Machine) : Answer × Machine :=
  match r with
  | eval e =>
    let (outcome, after) := Run.eval e m
    (.evaluated outcome after.console.output (after.console.writtenSince m.console.size)
      after.calls.depth after.environment.isUnbound, after)
  | evalWithBindings bindings body =>
    let counted : Scoped (Nat × Except Failure Value) := do
      let count ← Scoped.boundCount
      let outcome ← (Scoped.lift (Run.eval body)).attempt
      Stateful.done (count, outcome)
    match Run.withBindings bindings counted m with
    | (.ok (count, outcome), m) => (.evaluatedWithBindings outcome (some count), m)
    | (.error f, m) => (.evaluatedWithBindings (.error f) none, m)
  | get t => (.value (m.environment.get t), m)
  | bindingDepth t => (.count (m.environment.bindingDepth t.lexeme), m)
  | isUnbound => (.flag m.environment.isUnbound, m)
  | mode => (.mode m.mode, m)
  | boundCount => (.count bound, m)
  | malformed e => (.malformed e, m)

end Request

abbrev ScopeOutcome := Except String (List Answer)

namespace ScopeOutcome

def answer : ScopeOutcome → Answer
  | .ok answers => .scope answers
  | .error message => .aborted message

def closing : ScopeOutcome × Guard × Machine → ScopeOutcome × Machine
  | (outcome, g, m) =>
    match Run.close g m with
    | (.error (.fault f), m) => (.error f.message, m)
    | (_, m) => (outcome, m)

end ScopeOutcome

namespace Action

mutual

def perform : Action → Guard × Machine → Except String Answer × Guard × Machine
  | bind t v, s =>
    let (result, s) := Scoped.bindVariable t v s
    (.ok (.bound result), s)
  | request r, (g, m) =>
    let (answer, m) := r.answer g.bound.length m
    (.ok answer, g, m)
  | scope actions, (g, m) =>
    let (outcome, m) := ScopeOutcome.closing (performAll actions (⟨[], false⟩, m))
    (.ok outcome.answer, g, m)
  | abort message, s => (.error message, s)
termination_by structural a => a

def performAll : List Action → Guard × Machine → ScopeOutcome × Guard × Machine
  | [], s => (.ok [], s)
  | a :: rest, s =>
    match a.perform s with
    | (.ok answer, s) =>
      let (outcome, s) := performAll rest s
      (outcome.map (answer :: ·), s)
    | (.error message, s) => (.error message, s)
termination_by structural actions => actions

end

end Action

def Machine.performScope (m : Machine) (actions : List Action) : ScopeOutcome × Machine :=
  ScopeOutcome.closing (Action.performAll actions (⟨[], false⟩, m))

end LetLang
