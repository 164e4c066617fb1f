import LetLang.Error
import LetLang.Operator.Basic
import LetLang.Token.Basic

/-!
# Expressions

A node that an operator or a repeated parameter spoils is refused with a `Malformed`.
-/

namespace LetLang

inductive Expr where
  | literal (value : Value)
  | unary (op : UnaryOp) (operator : Token) (operand : Expr)
  | binary (op : BinaryOp) (operator : Token) (left right : Expr)
  | cond (condition yes no : Expr) (thenOffset elseOffset : UInt32)
  | letIn (bindings : List (Token × Expr)) (body : Expr)
  | var (name : Token)
  | function (name : Token) (params : List Token) (body : Expr)
  | call (name : Token) (args : List Expr)
deriving Inhabited

structure Declaration where
  name : Token
  params : List Token
  body : Expr
deriving Inhabited

inductive Malformed where
  | notUnary (kind : TokenKind) (offset : UInt32)
  | notBinary (kind : TokenKind) (offset : UInt32)
  | duplicateParameter (function parameter : String) (offset : UInt32)
deriving DecidableEq

namespace Malformed

def offset : Malformed → UInt32
  | notUnary _ offset | notBinary _ offset | duplicateParameter _ _ offset => offset

def message : Malformed → String
  | notUnary kind _ => "'" ++ kind.spelling ++ "' is not a unary operator"
  | notBinary kind _ => "'" ++ kind.spelling ++ "' is not a binary operator"
  | duplicateParameter .. => "parameter declared twice in the same function"

def toError : Malformed → Error
  | notUnary kind offset => .invalidUnaryOperator kind.spelling offset
  | notBinary kind offset => .invalidBinaryOperator kind.spelling offset
  | duplicateParameter function parameter offset =>
    .duplicateParameter function parameter offset

end Malformed

namespace Declaration

def arity (d : Declaration) : Nat := d.params.length

def toExpr (d : Declaration) : Expr := .function d.name d.params d.body

def firstRepeated (seen : List String) : List Token → Option Token
  | [] => none
  | p :: ps => if p.lexeme ∈ seen then some p else firstRepeated (p.lexeme :: seen) ps

def ofParts (name : Token) (params : List Token) (body : Expr) : Except Malformed Declaration :=
  match firstRepeated [] params with
  | some p => .error (.duplicateParameter name.lexeme p.lexeme p.offset)
  | none => .ok ⟨name, params, body⟩

end Declaration

namespace Expr

def ofUnary (operator : Token) (operand : Expr) : Except Malformed Expr :=
  match UnaryOp.ofKind operator.kind with
  | some op => .ok (.unary op operator operand)
  | none => .error (.notUnary operator.kind operator.offset)

def ofBinary (left : Expr) (operator : Token) (right : Expr) : Except Malformed Expr :=
  match BinaryOp.ofKind operator.kind with
  | some op => .ok (.binary op operator left right)
  | none => .error (.notBinary operator.kind operator.offset)

def offset : Expr → Option UInt32
  | literal _ => none
  | unary _ operator _ => some operator.offset
  | binary _ operator left _ => left.offset <|> some operator.offset
  | cond _ _ _ thenOffset _ => some thenOffset
  | letIn ((name, _) :: _) _ => some name.offset
  | letIn [] body => body.offset
  | var name => some name.offset
  | function name _ _ => some name.offset
  | call name _ => some name.offset

end Expr

end LetLang
