import LetLang.Token.Kind

/-!
# Errors

An error is a cause and the place it is reported at. The causes are data; `Cause.stage` and
`Cause.message` classify and word them.
-/

namespace LetLang

inductive Stage where
  | lexical | syntactic | semantic
deriving DecidableEq

namespace Stage

def label : Stage → String
  | lexical => "LEXICAL ERROR"
  | syntactic => "SYNTACTIC ERROR"
  | semantic => "SEMANTIC ERROR"

def name : Stage → String
  | lexical => "Lexical"
  | syntactic => "Syntactic"
  | semantic => "Semantic"

end Stage

inductive Cause where
  | reported (stage : Stage) (message : String)
  | undeclaredVariable (name : String)
  | missingCallParens (name : String)
  | functionNameAsVariable (name : String)
  | builtinRedefinition (name : String)
  | functionRedeclaration (name : String) (arity : Nat)
  | declarationNotAllowed (name : String)
  | unknownDeclaration (name : String) (arity : Nat)
  | undefinedFunction (name : String)
  | noMatchingOverload (name : String) (given : Nat) (available : List Nat)
  | recursionLimitExceeded (limit : Nat)
  | typeMismatch (context expected found : String)
  | invalidOperand (operator expected found : String)
  | nonBooleanCondition (found : String)
  | invalidUnaryOperator (symbol : String)
  | invalidBinaryOperator (symbol : String)
  | duplicateParameter (function parameter : String)
deriving DecidableEq

namespace Cause

def stage : Cause → Stage
  | reported stage _ => stage
  | invalidUnaryOperator _ | invalidBinaryOperator _ | duplicateParameter _ _ => .syntactic
  | _ => .semantic

def plural (n : Nat) : String := if n = 1 then "" else "s"

def message : Cause → String
  | reported _ message => message
  | undeclaredVariable name => "variable '" ++ name ++ "' is used but not declared"
  | missingCallParens name => "missing '(' after call to function '" ++ name ++ "'"
  | functionNameAsVariable name =>
    "function name '" ++ name ++ "' cannot be used as the name of a variable"
  | builtinRedefinition name => "'" ++ name ++ "' is a built-in function and cannot be redefined"
  | functionRedeclaration name arity =>
    "cannot redeclare function '" ++ name ++ "' with " ++ toString arity ++ " parameter" ++
      plural arity
  | declarationNotAllowed name =>
    "function '" ++ name ++ "' can only be declared at the top level"
  | unknownDeclaration name arity =>
    "no function '" ++ name ++ "' with " ++ toString arity ++ " parameter" ++ plural arity ++
      " is registered"
  | undefinedFunction name => "function '" ++ name ++ "' is not declared"
  | noMatchingOverload name given available =>
    "no overload of '" ++ name ++ "' takes " ++ toString given ++ " argument" ++ plural given ++
      " (available: " ++ String.intercalate ", " (available.map toString) ++ ")"
  | recursionLimitExceeded limit =>
    "maximum recursion depth exceeded (" ++ toString limit ++ " nested calls)"
  | typeMismatch context expected found =>
    context ++ " expects " ++ expected ++ ", found " ++ found
  | invalidOperand operator expected found =>
    "operator '" ++ operator ++ "' cannot be applied to " ++ found ++ "; expected " ++ expected
  | nonBooleanCondition found => "condition must be boolean, found " ++ found
  | invalidUnaryOperator symbol => "'" ++ symbol ++ "' is not a unary operator"
  | invalidBinaryOperator symbol => "'" ++ symbol ++ "' is not a binary operator"
  | duplicateParameter function parameter =>
    "parameter '" ++ parameter ++ "' is declared twice in function '" ++ function ++ "'"

end Cause

/-- An error has no offset where no position applies. -/
structure Error where
  cause : Cause
  offset : Option UInt32
deriving DecidableEq

namespace Error

def stage (e : Error) : Stage := e.cause.stage

def message (e : Error) : String := e.cause.message

def display (e : Error) : String :=
  e.stage.label ++ ": " ++ e.message ++
    match e.offset with
    | some offset => " (at offset " ++ toString offset.toNat ++ ")"
    | none => ""

/-- The place just behind a name of `name.length` characters; the last offset bounds it. -/
def endOf (name : String) (offset : UInt32) : UInt32 :=
  (min (offset.toNat + name.length) 0xffffffff).toUInt32

def undeclaredVariable (name : String) (offset : UInt32) : Error :=
  ⟨.undeclaredVariable name, some offset⟩

/-- Reported behind the name, where the parenthesis was expected. -/
def missingCallParens (name : String) (offset : UInt32) : Error :=
  ⟨.missingCallParens name, some (endOf name offset)⟩

def functionNameAsVariable (name : String) (offset : UInt32) : Error :=
  ⟨.functionNameAsVariable name, some offset⟩

def builtinRedefinition (name : String) (offset : UInt32) : Error :=
  ⟨.builtinRedefinition name, some offset⟩

def functionRedeclaration (name : String) (arity : Nat) (offset : UInt32) : Error :=
  ⟨.functionRedeclaration name arity, some offset⟩

def declarationNotAllowed (name : String) (offset : UInt32) : Error :=
  ⟨.declarationNotAllowed name, some offset⟩

def unknownDeclaration (name : String) (arity : Nat) : Error :=
  ⟨.unknownDeclaration name arity, none⟩

def undefinedFunction (name : String) (offset : UInt32) : Error :=
  ⟨.undefinedFunction name, some offset⟩

def noMatchingOverload (name : String) (given : Nat) (available : List Nat) (offset : UInt32) :
    Error :=
  ⟨.noMatchingOverload name given available, some offset⟩

def recursionLimitExceeded (limit : Nat) (offset : UInt32) : Error :=
  ⟨.recursionLimitExceeded limit, some offset⟩

def typeMismatch (context expected found : String) (offset : UInt32) : Error :=
  ⟨.typeMismatch context expected found, some offset⟩

def invalidOperand (operator expected found : String) (offset : UInt32) : Error :=
  ⟨.invalidOperand operator expected found, some offset⟩

def nonBooleanCondition (found : String) (offset : UInt32) : Error :=
  ⟨.nonBooleanCondition found, some offset⟩

def invalidUnaryOperator (symbol : String) (offset : UInt32) : Error :=
  ⟨.invalidUnaryOperator symbol, some offset⟩

def invalidBinaryOperator (symbol : String) (offset : UInt32) : Error :=
  ⟨.invalidBinaryOperator symbol, some offset⟩

def duplicateParameter (function parameter : String) (offset : UInt32) : Error :=
  ⟨.duplicateParameter function parameter, some offset⟩

end Error

end LetLang
