import LetLang.Environment
import LetLang.Proofs.Renaming.Simultaneous
import LetLang.Proofs.Tables

/-!
# Programs without print

Every call of `print` with one argument is replaced by that argument. Renaming does not see a
difference.
-/

namespace LetLang

theorem Builtin.lookup_some {name : String} {given : Nat} {b : Builtin}
    (found : lookup name given = some b) : b.name = name ∧ b.arity = given := by
  simpa using List.find?_some found

namespace Expr

/-- A call, or its only argument if it is one of `print`. -/
def callUnlessPrint (t : Token) : List Expr → Expr
  | [e] => if t.lexeme = Builtin.print.name then e else call t [e]
  | es => call t es

mutual

def erasePrint : Expr → Expr
  | literal v => literal v
  | unary op t e => unary op t e.erasePrint
  | binary op t l r => binary op t l.erasePrint r.erasePrint
  | cond c y n i j => cond c.erasePrint y.erasePrint n.erasePrint i j
  | letIn bs e => letIn (erasePrintInBindings bs) e.erasePrint
  | var t => var t
  | function t ps e => function t ps e.erasePrint
  | call t es => callUnlessPrint t (erasePrintInArgs es)
termination_by structural e => e

def erasePrintInBindings : List (Token × Expr) → List (Token × Expr)
  | [] => []
  | (t, e) :: bs => (t, e.erasePrint) :: erasePrintInBindings bs
termination_by structural bs => bs

def erasePrintInArgs : List Expr → List Expr
  | [] => []
  | e :: es => e.erasePrint :: erasePrintInArgs es
termination_by structural es => es

end

theorem map_fst_erasePrint (bs : List (Token × Expr)) :
    (erasePrintInBindings bs).map Prod.fst = bs.map Prod.fst := by
  induction bs with
  | nil => rfl
  | cons b bs ih => exact congrArg (b.1 :: ·) ih

theorem length_erasePrint (es : List Expr) : (erasePrintInArgs es).length = es.length := by
  induction es with
  | nil => rfl
  | cons e es ih => exact congrArg Nat.succ ih

theorem callUnlessPrint_cases (t : Token) (es : List Expr) :
    (t.lexeme = Builtin.print.name ∧ ∃ e, es = [e]) ∨
      (Builtin.lookup t.lexeme es.length ≠ some .print ∧
        callUnlessPrint t (erasePrintInArgs es) = call t (erasePrintInArgs es)) := by
  by_cases printed : t.lexeme = Builtin.print.name ∧ es.length = 1
  · obtain ⟨e, rfl⟩ := List.length_eq_one_iff.mp printed.2
    exact .inl ⟨printed.1, e, rfl⟩
  · refine .inr ⟨fun found => ?_, ?_⟩
    · obtain ⟨name, arity⟩ := Builtin.lookup_some found
      exact printed ⟨name.symm, arity.symm⟩
    · match es with
      | [] => rfl
      | [e] => exact if_neg fun name => printed ⟨name, rfl⟩
      | e :: e' :: es => rfl

theorem replaceIn_callUnlessPrint (old new : Token) (visible : Bool) (t : Token) (es : List Expr) :
    replaceIn old new visible (callUnlessPrint t es) =
      callUnlessPrint t (replaceArgs old new visible es) := by
  match es with
  | [] => rfl
  | [e] =>
    simp only [callUnlessPrint, replaceArgs]
    split <;> rfl
  | e :: e' :: es => rfl

theorem erasePrint_replaceBindings {old new : Token} {bs : List (Token × Expr)}
    (each : ∀ b ∈ bs, ∀ visible,
      (replaceIn old new visible b.2).erasePrint = replaceIn old new visible b.2.erasePrint)
    (visible : Bool) :
    erasePrintInBindings (replaceBindings old new visible bs) =
      replaceBindings old new visible (erasePrintInBindings bs) := by
  induction bs generalizing visible with
  | nil => rfl
  | cons b bs ih =>
    obtain ⟨t, e⟩ := b
    obtain ⟨first, rest⟩ := List.forall_mem_cons.mp each
    simp only [replaceBindings, erasePrintInBindings, first visible, ih rest]

theorem erasePrint_replaceArgs {old new : Token} {visible : Bool} {es : List Expr}
    (each : ∀ e ∈ es, ∀ visible,
      (replaceIn old new visible e).erasePrint = replaceIn old new visible e.erasePrint) :
    erasePrintInArgs (replaceArgs old new visible es) =
      replaceArgs old new visible (erasePrintInArgs es) := by
  induction es with
  | nil => rfl
  | cons e es ih =>
    obtain ⟨first, rest⟩ := List.forall_mem_cons.mp each
    simp only [replaceArgs, erasePrintInArgs, first visible, ih rest]

theorem erasePrint_replaceIn (old new : Token) (visible : Bool) (e : Expr) :
    (replaceIn old new visible e).erasePrint = replaceIn old new visible e.erasePrint := by
  induction e using Expr.induction generalizing visible with
  | literal v => rfl
  | unary op t e operand => simp only [replaceIn, erasePrint, operand]
  | binary op t l r left right => simp only [replaceIn, erasePrint, left, right]
  | cond c y n i j condition yes no => simp only [replaceIn, erasePrint, condition, yes, no]
  | letIn bs e bindings body =>
    simp only [replaceIn, erasePrint, erasePrint_replaceBindings bindings, body, visibleBehind_eq,
      map_fst_erasePrint]
  | var t => rfl
  | function t ps e body => simp only [replaceIn, erasePrint, body]
  | call t es args =>
    simp only [replaceIn, erasePrint, replaceIn_callUnlessPrint, erasePrint_replaceArgs args]

end Expr

namespace Declaration

def erasePrint (d : Declaration) : Declaration := { d with body := d.body.erasePrint }

theorem erasePrint_renameBody (body : Expr) (pairs : List (Token × Token)) :
    (renameBody body pairs).erasePrint = renameBody body.erasePrint pairs := by
  induction pairs generalizing body with
  | nil => rfl
  | cons pair pairs ih =>
    rw [renameBody, List.foldl_cons, ← renameBody, ih, Expr.replace, Expr.erasePrint_replaceIn]
    rfl

theorem hygienic_erasePrint (d : Declaration) (r : Renamer) :
    d.erasePrint.hygienic r = ((d.hygienic r).1.map erasePrint, (d.hygienic r).2) := by
  simp only [hygienic, erasePrint]
  cases (r.freshAll d.params).1 with
  | error f => rfl
  | ok fresh => simp only [Except.map, withParams, erasePrint, erasePrint_renameBody]

end Declaration

namespace Functions

def erasePrint (fs : Functions) : Functions :=
  ⟨fs.entries.map fun entry => (entry.1, entry.2.erasePrint)⟩

theorem related_erasePrint (fs : Functions) : Related (fun d s => s = d.erasePrint) fs fs.erasePrint :=
  List.forall₂_map_right_iff.mpr (List.forall₂_same.mpr fun _ _ => ⟨rfl, rfl⟩)

theorem insert_erasePrint (fs : Functions) (key : String × Nat) (d : Declaration) :
    (fs.insert key d).erasePrint = fs.erasePrint.insert key d.erasePrint := by
  simp [erasePrint, insert]

theorem find?_erasePrint (fs : Functions) (name : String) (arity : Nat) :
    fs.erasePrint.find? name arity = (fs.find? name arity).map Declaration.erasePrint := by
  rcases fs.related_erasePrint.find? name arity with ⟨missing, missing'⟩ | ⟨d, s, found, found', rfl⟩
  · rw [missing, missing']
    rfl
  · rw [found, found']
    rfl

end Functions

/-! ### The environment -/

namespace Environment

def erasePrint (env : Environment) : Environment :=
  { env with functions := env.functions.erasePrint }

theorem get_erasePrint (env : Environment) (t : Token) : env.erasePrint.get t = env.get t := by
  have declared : env.erasePrint.isFunction t.lexeme = env.isFunction t.lexeme :=
    env.functions.related_erasePrint.declares t.lexeme
  rw [get, get, declared]
  rfl

theorem set_erasePrint (env : Environment) (t : Token) (v : Value) :
    env.erasePrint.set t v = ((env.set t v).1, (env.set t v).2.erasePrint) := by
  have declared : env.erasePrint.isFunction t.lexeme = env.isFunction t.lexeme :=
    env.functions.related_erasePrint.declares t.lexeme
  rw [set, set, declared]
  split <;> rfl

theorem remove_erasePrint (env : Environment) (t : Token) :
    env.erasePrint.remove t = ((env.remove t).1, (env.remove t).2.erasePrint) := by
  have same : env.erasePrint.bindings = env.bindings := rfl
  unfold remove
  rw [same]
  cases env.bindings.pop? t.lexeme <;> rfl

theorem declaration?_erasePrint (env : Environment) (name : String) (arity : Nat) :
    env.erasePrint.declaration? name arity =
      (env.declaration? name arity).map Declaration.erasePrint :=
  env.functions.find?_erasePrint name arity

theorem refusal_erasePrint (env : Environment) (d : Declaration) :
    env.erasePrint.refusal d.erasePrint = env.refusal d := by
  have known : env.erasePrint.isFunctionWithArity d.name.lexeme d.arity =
      env.isFunctionWithArity d.name.lexeme d.arity := by
    rw [isFunctionWithArity, declaration?_erasePrint, Option.isSome_map]
    rfl
  unfold refusal
  change (if isBuiltin d.name.lexeme d.arity then _
    else if env.erasePrint.isFunctionWithArity d.name.lexeme d.arity then _ else none) = _
  rw [known]
  rfl

theorem register_erasePrint (env : Environment) (d : Declaration) :
    env.erasePrint.register d.erasePrint =
      ((env.register d).1.map Declaration.erasePrint, (env.register d).2.erasePrint) := by
  have same := env.refusal_erasePrint d
  have renamed : d.erasePrint.hygienic env.erasePrint.renamer = _ :=
    d.hygienic_erasePrint env.renamer
  rcases env.register_cases d with ⟨e, refused, failed⟩ | ⟨f, r, free, full, failed⟩ |
    ⟨stored, r, free, given, added⟩
  · rw [register_of_refused (same.trans refused), failed]
    rfl
  · rw [full] at renamed
    rw [register_of_fault (same.trans free) renamed, failed]
    rfl
  · rw [given] at renamed
    rw [register_of_free (same.trans free) renamed, added]
    simp only [Except.map, erasePrint, Functions.insert_erasePrint]
    rfl

end Environment

end LetLang
