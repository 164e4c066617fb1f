import LetLang.Machine
import LetLang.Operator.Apply

/-!
# Evaluation

`evalWith callee` evaluates an expression and hands the bodies of declared functions to `callee`.
`evalWithin n` closes the circle for calls that nest at most `n` deep. Under a depth limit, as many
nested calls as the limit leaves are enough.
-/

namespace LetLang

namespace Expr

/-- Calls a built-in function, or else a declared one, with the values that `args` ends with. If
there is neither, no argument is evaluated. -/
def callWith (callee : Expr → Run Value) (t : Token) (given : Nat) (args : Run (List Value)) :
    Run Value :=
  match Builtin.lookup t.lexeme given with
  | some b => do
    let vs ← args
    Run.builtin b vs t.offset
  | none => do
    let env ← Run.environment
    match env.declaration? t.lexeme given with
    | some d => do
      let vs ← args
      Run.inCall ⟨d.name.lexeme, d.arity, t.offset⟩ do
        Scoped.bindAll (d.params.zip vs)
        Scoped.lift (callee d.body)
    | none => Stateful.error (env.functions.callError t.lexeme given t.offset)

mutual

def evalWith (callee : Expr → Run Value) : Expr → Run Value
  | literal v => Stateful.done v
  | unary op t e => do
    let v ← evalWith callee e
    Stateful.ofExcept (op.apply v t.offset)
  | binary op t l r => do
    let v ← evalWith callee l
    let w ← evalWith callee r
    Stateful.ofExcept (op.apply v w t.offset)
  | cond c y n thenOffset _ => do
    match ← evalWith callee c with
    | .boolean true => evalWith callee y
    | .boolean false => evalWith callee n
    | v => Stateful.error (.nonBooleanCondition v.typeName thenOffset)
  | letIn bs e =>
    Run.inScope false do
      evalBindings callee bs
      Scoped.lift (evalWith callee e)
  | var t => do
    let env ← Run.environment
    Stateful.ofExcept (env.get t)
  | function t _ _ => Stateful.error (.declarationNotAllowed t.lexeme t.offset)
  | call t es =>
    Run.withSpan (.beginCall t.lexeme es.length) .endCall
      (callWith callee t es.length (evalArgs callee es))
termination_by structural e => e

def evalBindings (callee : Expr → Run Value) : List (Token × Expr) → Scoped Unit
  | [] => Stateful.done ()
  | (t, e) :: bs => do
    let v ← Scoped.lift (evalWith callee e)
    Scoped.bindVariable t v
    evalBindings callee bs
termination_by structural bs => bs

def evalArgs (callee : Expr → Run Value) : List Expr → Run (List Value)
  | [] => Stateful.done []
  | e :: es => do
    let v ← evalWith callee e
    let vs ← evalArgs callee es
    Stateful.done (v :: vs)
termination_by structural es => es

end

/-- Evaluation in which calls nest at most `n` deep from here. -/
def evalWithin : Nat → Expr → Run Value
  | 0 => evalWith (fun _ => Stateful.fail .exhausted)
  | n + 1 => evalWith (evalWithin n)

end Expr

/-- How many more calls may nest. Without a limit, evaluation is followed to a depth that no
memory holds. -/
def CallStack.room (s : CallStack) : Nat :=
  match s.limit with
  | some limit => limit - s.depth
  | none => 0x4000000000000000

def Run.eval (e : Expr) : Run Value := fun m => e.evalWithin m.calls.room m

end LetLang
