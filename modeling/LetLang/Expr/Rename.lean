import LetLang.Expr.Basic

/-!
# Renaming

`replace` points every reference to one binding site at another token, and `occurrences` counts
those references. A variable refers to the target if it has its site, or if it has its lexeme and no
binder of that lexeme stands in between. Call names, declared names and operators are never touched.
-/

namespace LetLang

namespace Token

/-- Whether a variable stands for `target`, where `visible` says that no binder hides it. -/
def refersTo (target : Token) (visible : Bool) (t : Token) : Bool :=
  t.sameSite target || (visible && t.sameLexeme target)

def hides (target binder : Token) : Bool := binder.sameLexeme target && !binder.sameSite target

def reference (old new : Token) (visible : Bool) (t : Token) : Token :=
  if old.refersTo visible t then new else t

/-- A binder after the replacement; only the binding site of `old` itself changes. -/
def binder (old new : Token) (t : Token) : Token := if t.sameSite old then new else t

end Token

namespace Expr

def visibleBehind (target : Token) (visible : Bool) (bindings : List (Token × Expr)) : Bool :=
  visible && !bindings.any (fun b => target.hides b.1)

def visibleUnder (target : Token) (visible : Bool) (params : List Token) : Bool :=
  visible && !params.any target.hides

mutual

def replaceIn (old new : Token) (visible : Bool) : Expr → Expr
  | literal v => literal v
  | unary op t e => unary op t (replaceIn old new visible e)
  | binary op t l r => binary op t (replaceIn old new visible l) (replaceIn old new visible r)
  | cond c y n i j =>
    cond (replaceIn old new visible c) (replaceIn old new visible y) (replaceIn old new visible n)
      i j
  | letIn bs e =>
    letIn (replaceBindings old new visible bs) (replaceIn old new (visibleBehind old visible bs) e)
  | var t => var (old.reference new visible t)
  | function t ps e =>
    function t (ps.map (old.binder new)) (replaceIn old new (visibleUnder old visible ps) e)
  | call t es => call t (replaceArgs old new visible es)
termination_by structural e => e

/-- A binding is visible to the bindings behind it, but not to its own value. -/
def replaceBindings (old new : Token) (visible : Bool) :
    List (Token × Expr) → List (Token × Expr)
  | [] => []
  | (t, e) :: bs =>
    (old.binder new t, replaceIn old new visible e) ::
      replaceBindings old new (visible && !old.hides t) bs
termination_by structural bs => bs

def replaceArgs (old new : Token) (visible : Bool) : List Expr → List Expr
  | [] => []
  | e :: es => replaceIn old new visible e :: replaceArgs old new visible es
termination_by structural es => es

end

def replace (e : Expr) (old new : Token) : Expr := replaceIn old new true e

mutual

def occurrencesIn (target : Token) (visible : Bool) : Expr → Nat
  | literal _ => 0
  | unary _ _ e => occurrencesIn target visible e
  | binary _ _ l r => occurrencesIn target visible l + occurrencesIn target visible r
  | cond c y n _ _ =>
    occurrencesIn target visible c + occurrencesIn target visible y +
      occurrencesIn target visible n
  | letIn bs e =>
    occurrencesInBindings target visible bs +
      occurrencesIn target (visibleBehind target visible bs) e
  | var t => if target.refersTo visible t then 1 else 0
  | function _ ps e =>
    ps.countP (·.sameSite target) + occurrencesIn target (visibleUnder target visible ps) e
  | call _ es => occurrencesInArgs target visible es
termination_by structural e => e

def occurrencesInBindings (target : Token) (visible : Bool) : List (Token × Expr) → Nat
  | [] => 0
  | (t, e) :: bs =>
    occurrencesIn target visible e + (if t.sameSite target then 1 else 0) +
      occurrencesInBindings target (visible && !target.hides t) bs
termination_by structural bs => bs

def occurrencesInArgs (target : Token) (visible : Bool) : List Expr → Nat
  | [] => 0
  | e :: es => occurrencesIn target visible e + occurrencesInArgs target visible es
termination_by structural es => es

end

def occurrences (e : Expr) (target : Token) : Nat := occurrencesIn target true e

end Expr

end LetLang
