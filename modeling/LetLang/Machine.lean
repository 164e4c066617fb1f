import LetLang.Builtin.Apply
import LetLang.CallStack
import LetLang.Environment
import LetLang.Settings
import LetLang.Stateful
import LetLang.Trace

/-!
# The machine

A machine is the whole state of an evaluation. Bindings and calls are made in scopes: a scope notes
what is done through it in a `Guard` and takes it back, the latest first, on every way out.
-/

namespace LetLang

structure Machine where
  mode : Mode
  environment : Environment
  calls : CallStack
  generator : Generator
  console : Console
  trace : List Event

namespace Machine

def ofSettings (s : Settings) (environment : Environment) (trace : List Event) : Machine where
  mode := s.mode
  environment := environment
  calls := .ofLimit s.callLimit
  generator := s.generator
  console := s.console
  trace := trace

@[simp] theorem environment_ofSettings (s : Settings) (environment : Environment)
    (trace : List Event) : (ofSettings s environment trace).environment = environment := rfl

def events (m : Machine) : List Event := m.trace.reverse

end Machine

abbrev Run : Type → Type := Stateful Machine

/-- What an open scope takes back when it is closed. -/
structure Guard where
  bound : List Token
  frame : Bool

abbrev Scoped : Type → Type := Stateful (Guard × Machine)

namespace Run

variable {α : Type}

def emit (e : Event) : Run Unit := fun m => (.ok (), { m with trace := e :: m.trace })

def environment : Run Environment := fun m => (.ok m.environment, m)

def bindVariable (t : Token) (v : Value) : Run Unit := fun m =>
  match m.environment.set t v with
  | (.ok _, environment) =>
    (.ok (), { m with environment, trace := .bind t.lexeme v :: m.trace })
  | (.error e, environment) => (.error (.error e), { m with environment })

def unbindVariable (t : Token) : Run Unit := fun m =>
  match m.environment.remove t with
  | (.ok _, environment) =>
    (.ok (), { m with
      environment
      trace := .unbind t.lexeme (environment.bindingDepth t.lexeme) :: m.trace })
  | (.error f, environment) => (.error (.fault f), { m with environment })

def unbindAll : List Token → Run Unit
  | [] => Stateful.done ()
  | t :: ts => do
    unbindVariable t
    unbindAll ts

def enterCall (f : Frame) : Run Unit := fun m =>
  match m.calls.push f with
  | .ok calls => (.ok (), { m with calls })
  | .error e => (.error (.error e), m)

def leaveCall : Run Unit := fun m =>
  match m.calls.pop with
  | .ok calls => (.ok (), { m with calls })
  | .error f => (.error (.fault f), m)

/-- Closes a scope: its bindings go first, then its call. -/
def close (g : Guard) : Run Unit := do
  unbindAll g.bound
  if g.frame then leaveCall

/-- Runs `act` in a scope of its own. A fault of the closing takes the place of the outcome. -/
def inScope (frame : Bool) (act : Scoped α) : Run α := fun m =>
  match act (⟨[], frame⟩, m) with
  | (outcome, g, m) =>
    match close g m with
    | (.ok _, m) => (outcome, m)
    | (.error f, m) => (.error f, m)

def inCall (f : Frame) (act : Scoped α) : Run α := do
  enterCall f
  inScope true act

def withSpan (first last : Event) (act : Run α) : Run α := do
  emit first
  Stateful.guarded act (emit last)

def builtin (b : Builtin) (args : List Value) (offset : UInt32) : Run Value := fun m =>
  let applied := b.apply args offset m.generator m.console
  (applied.1.mapError .error, { m with generator := applied.2.1, console := applied.2.2 })

def register (d : Declaration) : Run Unit := fun m =>
  match m.environment.register d with
  | (.ok stored, environment) =>
    (.ok (), { m with environment, trace := .registered stored :: m.trace })
  | (.error f, environment) => (.error f, { m with environment })

def registerAll : List Declaration → Run Unit
  | [] => Stateful.done ()
  | d :: ds => do
    register d
    registerAll ds

end Run

namespace Scoped

variable {α : Type}

def lift (act : Run α) : Scoped α := fun (g, m) =>
  match act m with
  | (outcome, m) => (outcome, g, m)

def boundCount : Scoped Nat := fun (g, m) => (.ok g.bound.length, g, m)

def bindVariable (t : Token) (v : Value) : Scoped Unit := fun (g, m) =>
  match Run.bindVariable t v m with
  | (.ok _, m) => (.ok (), { g with bound := t :: g.bound }, m)
  | (.error f, m) => (.error f, g, m)

def bindAll : List (Token × Value) → Scoped Unit
  | [] => Stateful.done ()
  | (t, v) :: bindings => do
    bindVariable t v
    bindAll bindings

end Scoped

def Run.withBindings {α : Type} (bindings : List (Token × Value)) (body : Scoped α) : Run α :=
  inScope false do
    Scoped.bindAll bindings
    body

end LetLang
