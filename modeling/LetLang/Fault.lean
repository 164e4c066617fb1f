/-!
# Faults

A fault tells of a wrong use of a stack or of a full counter, not of a wrong program.
-/

namespace LetLang

inductive Fault where
  | unboundRemoval (name : String)
  | emptyCallStack
  | namesExhausted
  | counterOverflow
deriving DecidableEq

def Fault.isOverflow : Fault → Bool
  | namesExhausted | counterOverflow => true
  | _ => false

def Fault.message : Fault → String
  | unboundRemoval name => "remove of unbound variable '" ++ name ++ "'"
  | emptyCallStack => "CallStack::pop() called on empty stack"
  | namesExhausted => "string interner exceeded 4294967295 entries"
  | counterOverflow => "attempt to add with overflow"

end LetLang
