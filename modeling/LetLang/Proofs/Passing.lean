import LetLang.Builtin.Apply
import LetLang.Functions
import LetLang.Operator.Apply
import LetLang.Stateful

/-!
# Evaluation that passes its bindings along

An evaluator that takes nothing back: an expression is evaluated in a scope that it gets and cannot
change. What a scope is, is left to a `Scoping`.
-/

namespace LetLang

structure Effects where
  generator : Generator
  console : Console

abbrev Passing : Type → Type := Stateful Effects

def Passing.builtin (b : Builtin) (args : List Value) (offset : UInt32) : Passing Value := fun s =>
  let applied := b.apply args offset s.generator s.console
  (applied.1.mapError .error, ⟨applied.2.1, applied.2.2⟩)

/-- The rules of names: how a variable is read, and which scope is behind a binding and inside a
called function. -/
structure Scoping (σ : Type) where
  functions : Functions
  read : σ → Token → Except Error Value
  bind : σ → Token → Value → Except Error σ
  enter : σ → Declaration → List Value → Except Error σ

namespace Scoping

variable {σ : Type}

def checkDepth (limit : Option Nat) (depth : Nat) (offset : UInt32) : Except Error Unit :=
  match limit with
  | some limit =>
    if limit ≤ depth then .error (.recursionLimitExceeded limit offset) else .ok ()
  | none => .ok ()

def callWith (s : Scoping σ) (limit : Option Nat) (callee : Nat → Expr → σ → Passing Value)
    (depth : Nat) (t : Token) (given : Nat) (args : Passing (List Value)) (scope : σ) :
    Passing Value :=
  match Builtin.lookup t.lexeme given with
  | some b => do
    let vs ← args
    Passing.builtin b vs t.offset
  | none =>
    match s.functions.find? t.lexeme given with
    | some d => do
      let vs ← args
      Stateful.ofExcept (checkDepth limit depth t.offset)
      let inner ← Stateful.ofExcept (s.enter scope d vs)
      callee (depth + 1) d.body inner
    | none => Stateful.error (s.functions.callError t.lexeme given t.offset)

mutual

def evalWith (s : Scoping σ) (limit : Option Nat) (callee : Nat → Expr → σ → Passing Value)
    (depth : Nat) : Expr → σ → Passing Value
  | .literal v, _ => Stateful.done v
  | .unary op t e, scope => do
    let v ← evalWith s limit callee depth e scope
    Stateful.ofExcept (op.apply v t.offset)
  | .binary op t l r, scope => do
    let v ← evalWith s limit callee depth l scope
    let w ← evalWith s limit callee depth r scope
    Stateful.ofExcept (op.apply v w t.offset)
  | .cond c y n thenOffset _, scope => do
    match ← evalWith s limit callee depth c scope with
    | .boolean true => evalWith s limit callee depth y scope
    | .boolean false => evalWith s limit callee depth n scope
    | v => Stateful.error (.nonBooleanCondition v.typeName thenOffset)
  | .letIn bs e, scope => do
    let inner ← evalBindings s limit callee depth bs scope
    evalWith s limit callee depth e inner
  | .var t, scope => Stateful.ofExcept (s.read scope t)
  | .function t _ _, _ => Stateful.error (.declarationNotAllowed t.lexeme t.offset)
  | .call t es, scope =>
    callWith s limit callee depth t es.length (evalArgs s limit callee depth es scope) scope
termination_by structural e => e

def evalBindings (s : Scoping σ) (limit : Option Nat) (callee : Nat → Expr → σ → Passing Value)
    (depth : Nat) : List (Token × Expr) → σ → Passing σ
  | [], scope => Stateful.done scope
  | (t, e) :: bs, scope => do
    let v ← evalWith s limit callee depth e scope
    let inner ← Stateful.ofExcept (s.bind scope t v)
    evalBindings s limit callee depth bs inner
termination_by structural bs => bs

def evalArgs (s : Scoping σ) (limit : Option Nat) (callee : Nat → Expr → σ → Passing Value)
    (depth : Nat) : List Expr → σ → Passing (List Value)
  | [], _ => Stateful.done []
  | e :: es, scope => do
    let v ← evalWith s limit callee depth e scope
    let vs ← evalArgs s limit callee depth es scope
    Stateful.done (v :: vs)
termination_by structural es => es

end

def evalWithin (s : Scoping σ) (limit : Option Nat) : Nat → Nat → Expr → σ → Passing Value
  | 0 => evalWith s limit fun _ _ _ => Stateful.fail .exhausted
  | n + 1 => evalWith s limit (evalWithin s limit n)

end Scoping

abbrev Valuation := String → Option Value

namespace Valuation

def set (values : Valuation) (name : String) (v : Value) : Valuation := fun other =>
  if other = name then some v else values other

def read (functions : Functions) (values : Valuation) (t : Token) : Except Error Value :=
  if functions.declares t.lexeme then .error (.missingCallParens t.lexeme t.offset)
  else
    match values t.lexeme with
    | some v => .ok v
    | none => .error (.undeclaredVariable t.lexeme t.offset)

def bind (functions : Functions) (values : Valuation) (t : Token) (v : Value) :
    Except Error Valuation :=
  if functions.declares t.lexeme then .error (.functionNameAsVariable t.lexeme t.offset)
  else .ok (values.set t.lexeme v)

def bindAll (functions : Functions) (values : Valuation) :
    List (Token × Value) → Except Error Valuation
  | [] => .ok values
  | (t, v) :: bindings => do
    let values ← bind functions values t v
    bindAll functions values bindings

end Valuation

/-- Parameters extend the map of the caller, as the bindings of a `let` do. -/
def Scoping.dynamic (functions : Functions) : Scoping Valuation where
  functions := functions
  read := Valuation.read functions
  bind := Valuation.bind functions
  enter values d args := Valuation.bindAll functions values (d.params.zip args)

end LetLang
