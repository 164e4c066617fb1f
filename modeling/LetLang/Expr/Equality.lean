import LetLang.Expr.Basic

/-!
# Equality of trees

Trees are compared node by node: tokens by their sites, literals as values. So a tree with a NaN
differs from itself.
-/

namespace LetLang

def Token.sameSites : List Token → List Token → Bool
  | [], [] => true
  | s :: ss, t :: ts => s.sameSite t && sameSites ss ts
  | _, _ => false

namespace Expr

mutual

def eq : Expr → Expr → Bool
  | literal u, literal v => u.eq v
  | unary p s e, unary q t f => s.sameSite t && p == q && e.eq f
  | binary p s e₁ e₂, binary q t f₁ f₂ => e₁.eq f₁ && s.sameSite t && p == q && e₂.eq f₂
  | cond c₁ y₁ n₁ t₁ e₁, cond c₂ y₂ n₂ t₂ e₂ =>
    c₁.eq c₂ && y₁.eq y₂ && n₁.eq n₂ && t₁ == t₂ && e₁ == e₂
  | letIn bs e, letIn cs f => eqBindings bs cs && e.eq f
  | var s, var t => s.sameSite t
  | function s ps e, function t qs f => s.sameSite t && Token.sameSites ps qs && e.eq f
  | call s es, call t fs => s.sameSite t && eqArgs es fs
  | _, _ => false
termination_by structural e => e

def eqBindings : List (Token × Expr) → List (Token × Expr) → Bool
  | [], [] => true
  | (s, e) :: bs, (t, f) :: cs => s.sameSite t && e.eq f && eqBindings bs cs
  | _, _ => false
termination_by structural bs => bs

def eqArgs : List Expr → List Expr → Bool
  | [], [] => true
  | e :: es, f :: fs => e.eq f && eqArgs es fs
  | _, _ => false
termination_by structural es => es

end

end Expr

end LetLang
