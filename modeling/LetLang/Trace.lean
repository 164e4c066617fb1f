import LetLang.Expr.Printer

/-!
# The trace

What a machine does is recorded as events. `Event.entry` is the form in which an event is shown.
-/

namespace LetLang

inductive Event where
  | beginRun (declarations : Nat)
  | endRun
  | beginCall (function : String) (arity : Nat)
  | endCall
  | registered (d : Declaration)
  | runFailed (stage : Stage)
  | bind (name : String) (value : Value)
  /-- The depth is the number of bindings of the name that are left. -/
  | unbind (name : String) (depth : Nat)

namespace Event

abbrev Fields := List (String × String)

inductive Entry where
  | opening (span : String) (fields : Fields)
  | closing (span : String)
  | message (text level : String) (fields : Fields)

def entry : Event → Entry
  | beginRun declarations => .opening "run" [("declarations", declarations.repr)]
  | endRun => .closing "run"
  | beginCall function arity =>
    .opening "visit_call" [("function", function), ("arity", arity.repr)]
  | endCall => .closing "visit_call"
  | registered d =>
    .message "registered function" "DEBUG"
      [("signature", d.name.lexeme ++ "/" ++ d.arity.repr), ("decl", d.print)]
  | runFailed stage => .message "run failed" "DEBUG" [("error_type", stage.label)]
  | bind name value => .message "bind" "TRACE" [("name", name), ("value", value.text)]
  | unbind name depth => .message "unbind" "TRACE" [("name", name), ("depth", depth.repr)]

end Event

end LetLang
