import LetLang.Expr.Basic

/-!
# Printing

An operand that could be read in another way is put into parentheses, and so is an operand of a
prefix operator that itself starts with a sign.
-/

namespace LetLang

namespace Expr

def parenthesized (needed : Bool) (s : String) : String := if needed then "(" ++ s ++ ")" else s

/-- Whether the text of an expression may continue to the right or has an operator in it. -/
def isCompound : Expr → Bool
  | binary .. | cond .. | letIn .. | function .. => true
  | _ => false

def isSigned : Expr → Bool
  | unary .. => true
  | literal (.number n) => n.isNegative
  | _ => false

def commaSeparated (items : List String) : String := String.intercalate ", " items

mutual

def print : Expr → String
  | literal v => v.quoted
  | unary op _ e => op.symbol ++ parenthesized (e.isSigned || e.isCompound) e.print
  | binary op _ l r =>
    parenthesized l.isCompound l.print ++ " " ++ op.symbol ++ " " ++
      parenthesized r.isCompound r.print
  | cond c y n _ _ =>
    "if (" ++ c.print ++ ") " ++ parenthesized y.isCompound y.print ++ " else " ++ n.print
  | letIn bs e => "let " ++ commaSeparated (printBindings bs) ++ " in " ++ e.print
  | var t => t.lexeme
  | function t ps e =>
    "function " ++ t.lexeme ++ "(" ++ commaSeparated (ps.map Token.lexeme) ++ ") => " ++ e.print
  | call t es => t.lexeme ++ "(" ++ commaSeparated (printArgs es) ++ ")"
termination_by structural e => e

def printBindings : List (Token × Expr) → List String
  | [] => []
  | (t, e) :: bs => (t.lexeme ++ " = " ++ e.print) :: printBindings bs
termination_by structural bs => bs

def printArgs : List Expr → List String
  | [] => []
  | e :: es => e.print :: printArgs es
termination_by structural es => es

end

end Expr

def Declaration.print (d : Declaration) : String := d.toExpr.print

end LetLang
