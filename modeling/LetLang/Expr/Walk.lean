import LetLang.Expr.Basic

/-!
# Walking a tree

The nodes of a tree, each before its children.
-/

namespace LetLang

inductive NodeKind where
  | literal | unary | binary | conditional | letIn | var | function | call
deriving DecidableEq

def NodeKind.name : NodeKind → String
  | literal => "literal"
  | unary => "unary"
  | binary => "binary"
  | conditional => "conditional"
  | letIn => "let_in"
  | var => "variable"
  | function => "function"
  | call => "call"

namespace Expr

mutual

def walk : Expr → List NodeKind
  | literal _ => [.literal]
  | unary _ _ e => .unary :: e.walk
  | binary _ _ l r => .binary :: (l.walk ++ r.walk)
  | cond c y n _ _ => .conditional :: (c.walk ++ y.walk ++ n.walk)
  | letIn bs e => .letIn :: (walkBindings bs ++ e.walk)
  | var _ => [.var]
  | function _ _ e => .function :: e.walk
  | call _ es => .call :: walkArgs es
termination_by structural e => e

def walkBindings : List (Token × Expr) → List NodeKind
  | [] => []
  | (_, e) :: bs => e.walk ++ walkBindings bs
termination_by structural bs => bs

def walkArgs : List Expr → List NodeKind
  | [] => []
  | e :: es => e.walk ++ walkArgs es
termination_by structural es => es

end

end Expr

end LetLang
