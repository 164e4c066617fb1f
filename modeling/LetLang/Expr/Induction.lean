import LetLang.Expr.Basic

/-!
# Induction on expressions

`Expr.induction` gives a hypothesis for every child, also for those inside the bindings of a `let`
and the arguments of a call.
-/

namespace LetLang

namespace Expr

@[elab_as_elim]
theorem induction {P : Expr → Prop}
    (literal : ∀ v, P (.literal v))
    (unary : ∀ op t e, P e → P (.unary op t e))
    (binary : ∀ op t l r, P l → P r → P (.binary op t l r))
    (cond : ∀ c y n i j, P c → P y → P n → P (.cond c y n i j))
    (letIn : ∀ bs e, (∀ b ∈ bs, P b.2) → P e → P (.letIn bs e))
    (var : ∀ t, P (.var t))
    (function : ∀ t ps e, P e → P (.function t ps e))
    (call : ∀ t es, (∀ e ∈ es, P e) → P (.call t es)) :
    ∀ e, P e :=
  @Expr.rec P (fun bs => ∀ b ∈ bs, P b.2) (fun es => ∀ e ∈ es, P e) (fun b => P b.2)
    literal unary binary cond letIn var function call
    (fun _ member => nomatch member)
    (fun _ _ first rest => List.forall_mem_cons.mpr ⟨first, rest⟩)
    (fun _ member => nomatch member)
    (fun _ _ first rest => List.forall_mem_cons.mpr ⟨first, rest⟩)
    (fun _ _ value => value)

end Expr

end LetLang
