import LetLang.Token.Kind

/-!
# Operators

Which token kinds are operators, and how each operator is written.
-/

namespace LetLang

inductive UnaryOp where
  | not | neg
deriving DecidableEq

namespace UnaryOp

def ofKind : TokenKind → Option UnaryOp
  | .bang => some not
  | .minus => some neg
  | _ => none

def symbol : UnaryOp → String
  | not => "!"
  | neg => "-"

end UnaryOp

inductive BinaryOp where
  | add | sub | mul | div | mod | pow
  | concat
  | and | or
  | lt | le | gt | ge | eq | ne
deriving DecidableEq

namespace BinaryOp

def ofKind : TokenKind → Option BinaryOp
  | .plus => some add
  | .minus => some sub
  | .star => some mul
  | .slash => some div
  | .percent => some mod
  | .caret => some pow
  | .atSign => some concat
  | .amp => some and
  | .pipe => some or
  | .less => some lt
  | .lessEqual => some le
  | .greater => some gt
  | .greaterEqual => some ge
  | .equalEqual => some eq
  | .bangEqual => some ne
  | _ => none

def symbol : BinaryOp → String
  | add => "+"
  | sub => "-"
  | mul => "*"
  | div => "/"
  | mod => "%"
  | pow => "^"
  | concat => "@"
  | and => "&"
  | or => "|"
  | lt => "<"
  | le => "<="
  | gt => ">"
  | ge => ">="
  | eq => "=="
  | ne => "!="

end BinaryOp

end LetLang
