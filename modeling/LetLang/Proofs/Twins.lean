import LetLang.Proofs.LexicalScope
import LetLang.Proofs.Renaming.Exchange

/-!
# Evaluation with other fresh tokens

Two tables of stored declarations that differ in their fresh tokens only give the same evaluations:
no value, message or line contains a fresh lexeme.
-/

namespace LetLang

structure Functions.Twins (functions others : Functions) : Prop where
  plain : ∀ name, ¬ Plain name → functions.declares name = false
  declares : ∀ name, others.declares name = functions.declares name
  arities : ∀ name, others.arities name = functions.arities name
  find? : ∀ name arity,
    (functions.find? name arity = none ∧ others.find? name arity = none) ∨
      ∃ d twin f, functions.find? name arity = some d ∧ others.find? name arity = some twin ∧
        d.arity = arity ∧ d.Twin f twin

theorem Functions.Twins.callError {functions others : Functions} (twins : functions.Twins others)
    (name : String) (given : Nat) (offset : UInt32) :
    others.callError name given offset = functions.callError name given offset := by
  rw [Functions.callError, Functions.callError, twins.arities]

namespace Valuation

/-- The maps agree on the names of the program and, through `f`, on the bound fresh tokens. -/
structure Twins (f : Token → Token) (bound : List Token) (values others : Valuation) : Prop where
  plain : ∀ name, Plain name → others name = values name
  bound : ∀ p ∈ bound, ∃ v, values p.lexeme = some v ∧ others (f p).lexeme = some v

namespace Twins

variable {functions otherFunctions : Functions} {f : Token → Token} {bound fresh : List Token}
  {values others : Valuation} {t : Token}

theorem mono (twins : Twins f bound values others) {fewer : List Token} (sub : fewer ⊆ bound) :
    Twins f fewer values others :=
  ⟨twins.plain, fun p member => twins.bound p (sub member)⟩

theorem plainly (twins : Twins f bound values others) (g : Token → Token) :
    Twins g [] values others :=
  ⟨twins.plain, fun _ absent => nomatch absent⟩

theorem read (twins : Twins f fresh values others) (tables : functions.Twins otherFunctions)
    (exchanges : Token.Exchanges f fresh) (known : t.Known f fresh) :
    Valuation.read functions values t = Valuation.read otherFunctions others (f t) := by
  rcases known with ⟨plain, fixed⟩ | member
  · rw [fixed, Valuation.read, Valuation.read, tables.declares, twins.plain t.lexeme plain]
  · obtain ⟨v, value, other⟩ := twins.bound t member
    obtain ⟨marked, marked'⟩ := exchanges.marked t member
    simp [Valuation.read, tables.declares, tables.plain _ marked, tables.plain _ marked', value, other]

theorem set (twins : Twins f bound values others) (exchanges : Token.Exchanges f fresh)
    (sub : bound ⊆ fresh) (known : t.Known f fresh) (v : Value) :
    Twins f (t :: bound) (values.set t.lexeme v) (others.set (f t).lexeme v) := by
  refine ⟨fun name plain => ?_, List.forall_mem_cons.mpr
    ⟨⟨v, set_of_eq _ _ _, set_of_eq _ _ _⟩, fun p member => ?_⟩⟩
  · rcases known with ⟨_, fixed⟩ | here
    · rw [fixed, Valuation.set, Valuation.set, twins.plain name plain]
    · obtain ⟨marked, marked'⟩ := exchanges.marked t here
      have other : name ≠ t.lexeme := fun same => marked (same ▸ plain)
      have other' : name ≠ (f t).lexeme := fun same => marked' (same ▸ plain)
      rw [set_of_ne other, set_of_ne other', twins.plain name plain]
  · have same : (f p).lexeme = (f t).lexeme ↔ p.lexeme = t.lexeme := by
      rcases known with ⟨plain, fixed⟩ | here
      · obtain ⟨marked, marked'⟩ := exchanges.marked p (sub member)
        rw [fixed]
        exact ⟨fun same => absurd (same ▸ plain) marked', fun same => absurd (same ▸ plain) marked⟩
      · exact exchanges.alike p (sub member) t here
    by_cases hit : p.lexeme = t.lexeme
    · rw [hit, same.mpr hit, set_of_eq, set_of_eq]
      exact ⟨v, rfl, rfl⟩
    · rw [set_of_ne hit, set_of_ne (mt same.mp hit)]
      exact twins.bound p member

theorem setAll (twins : Twins f bound values others) (exchanges : Token.Exchanges f fresh)
    (sub : bound ⊆ fresh) {ts : List Token} (params : ts ⊆ fresh) {args : List Value}
    (length : args.length = ts.length) :
    Twins f (ts ++ bound) (values.setAll (ts.zip args)) (others.setAll ((ts.map f).zip args)) := by
  induction ts generalizing bound values others args with
  | nil => exact twins
  | cons t ts ih =>
    cases args with
    | nil => cases length
    | cons v args =>
      obtain ⟨here, params⟩ := List.cons_subset.mp params
      have next := twins.set exchanges sub (.inr here) v
      refine (ih next (List.cons_subset.mpr ⟨here, sub⟩) params (Nat.succ.inj length)).mono ?_
      exact List.Perm.subset List.perm_middle.symm

theorem bind (twins : Twins f fresh values others) (tables : functions.Twins otherFunctions)
    (exchanges : Token.Exchanges f fresh) (known : t.Known f fresh) (v : Value) :
    (∃ e, Valuation.bind functions values t v = .error e ∧
      Valuation.bind otherFunctions others (f t) v = .error e) ∨
    ∃ inner inner', Valuation.bind functions values t v = .ok inner ∧
      Valuation.bind otherFunctions others (f t) v = .ok inner' ∧ Twins f fresh inner inner' := by
  have next := (twins.set exchanges (List.Subset.refl _) known v).mono (List.subset_cons_self t fresh)
  rcases known with ⟨_, fixed⟩ | here
  · rw [fixed] at next ⊢
    simp only [Valuation.bind, tables.declares]
    by_cases declared : functions.declares t.lexeme = true
    · rw [if_pos declared, if_pos declared]
      exact .inl ⟨_, rfl, rfl⟩
    · rw [if_neg declared, if_neg declared]
      exact .inr ⟨_, _, rfl, rfl, next⟩
  · obtain ⟨marked, marked'⟩ := exchanges.marked t here
    simp only [Valuation.bind, tables.declares, tables.plain _ marked, tables.plain _ marked']
    exact .inr ⟨_, _, rfl, rfl, next⟩

theorem enter {d twin : Declaration} {g : Token → Token} (twins : Twins g bound values others)
    (tables : functions.Twins otherFunctions) (same : d.Twin f twin) {args : List Value}
    (length : args.length = d.arity) :
    ∃ inner inner', (Scoping.dynamic functions).enter values d args = .ok inner ∧
      (Scoping.dynamic otherFunctions).enter others twin args = .ok inner' ∧
      Twins f d.params inner inner' := by
  have free : ∀ b ∈ d.params.zip args, functions.declares b.1.lexeme = false := fun b member =>
    tables.plain _ (same.exchanges.marked _ (List.of_mem_zip member).1).1
  have free' : ∀ b ∈ (d.params.map f).zip args, otherFunctions.declares b.1.lexeme = false := by
    intro b member
    obtain ⟨p, here, equal⟩ := List.mem_map.mp (List.of_mem_zip member).1
    rw [tables.declares, ← equal]
    exact tables.plain _ (same.exchanges.marked p here).2
  have inside := (twins.plainly f).setAll same.exchanges (List.nil_subset _)
    (List.Subset.refl d.params) length
  rw [List.append_nil] at inside
  refine ⟨_, _, bindAll_of_free free, ?_, inside⟩
  simp only [Scoping.dynamic, same.params]
  exact bindAll_of_free free'

end Twins

end Valuation

section

variable {functions others : Functions} {limit : Option Nat} {depth : Nat} {f : Token → Token}
  {fresh : List Token} {values otherValues : Valuation}
  {callee otherCallee : Nat → Expr → Valuation → Passing Value}

def CalleesTwin (callee otherCallee : Nat → Expr → Valuation → Passing Value) : Prop :=
  ∀ f (d twin : Declaration), d.Twin f twin →
    ∀ depth values otherValues, Valuation.Twins f d.params values otherValues →
      callee depth d.body values = otherCallee depth twin.body otherValues

def Expr.Exchanged (functions others : Functions) (limit : Option Nat) (depth : Nat)
    (f : Token → Token) (fresh : List Token)
    (callee otherCallee : Nat → Expr → Valuation → Passing Value) (e : Expr) : Prop :=
  ∀ values otherValues, Valuation.Twins f fresh values otherValues →
    (∀ t ∈ e.tokens, t.Known f fresh) →
      (Scoping.dynamic functions).evalWith limit callee depth e values =
        (Scoping.dynamic others).evalWith limit otherCallee depth (e.mapVars f) otherValues

namespace Expr

variable (tables : functions.Twins others) (exchanges : Token.Exchanges f fresh)

include tables exchanges in
theorem evalBindings_exchanged {bs : List (Token × Expr)}
    (each : ∀ b ∈ bs, Exchanged functions others limit depth f fresh callee otherCallee b.2)
    (twins : Valuation.Twins f fresh values otherValues)
    (known : ∀ t ∈ tokensOfBindings bs, t.Known f fresh) {next otherNext : Valuation → Passing Value}
    (rest : ∀ inner inner', Valuation.Twins f fresh inner inner' → next inner = otherNext inner') :
    ((Scoping.dynamic functions).evalBindings limit callee depth bs values >>= next) =
      ((Scoping.dynamic others).evalBindings limit otherCallee depth (mapVarsOfBindings f bs)
        otherValues >>= otherNext) := by
  induction bs generalizing values otherValues with
  | nil => exact rest values otherValues twins
  | cons b bs ih =>
    obtain ⟨t, e⟩ := b
    obtain ⟨first, behind⟩ := List.forall_mem_cons.mp each
    simp only [tokensOfBindings, List.forall_mem_cons, List.forall_mem_append] at known
    obtain ⟨binder, value, later⟩ := known
    simp only [mapVarsOfBindings, Scoping.evalBindings, Stateful.bind_assoc,
      ← first values otherValues twins value]
    refine Stateful.bind_congr fun _ v _ _ => ?_
    simp only [Scoping.dynamic] at ih ⊢
    rcases twins.bind tables exchanges binder v with ⟨e, refused, refused'⟩ |
      ⟨inner, inner', bound, bound', twins'⟩
    · rw [refused, refused']
      rfl
    · rw [bound, bound']
      exact ih behind twins' later

theorem evalArgs_exchanged {es : List Expr}
    (each : ∀ e ∈ es, Exchanged functions others limit depth f fresh callee otherCallee e)
    (twins : Valuation.Twins f fresh values otherValues)
    (known : ∀ t ∈ tokensOfArgs es, t.Known f fresh) :
    (Scoping.dynamic functions).evalArgs limit callee depth es values =
      (Scoping.dynamic others).evalArgs limit otherCallee depth (mapVarsOfArgs f es) otherValues := by
  induction es with
  | nil => rfl
  | cons e es ih =>
    obtain ⟨first, rest⟩ := List.forall_mem_cons.mp each
    simp only [tokensOfArgs, List.forall_mem_append] at known
    simp only [mapVarsOfArgs, Scoping.evalArgs, first values otherValues twins known.1,
      ih rest known.2]

include tables in
theorem callWith_exchanged (calls : CalleesTwin callee otherCallee) (t : Token) (given : Nat)
    {args : Passing (List Value)} (twins : Valuation.Twins f fresh values otherValues)
    (length : ∀ before vs after, args before = (.ok vs, after) → vs.length = given) :
    (Scoping.dynamic functions).callWith limit callee depth t given args values =
      (Scoping.dynamic others).callWith limit otherCallee depth t given args otherValues := by
  unfold Scoping.callWith
  cases Builtin.lookup t.lexeme given with
  | some b => rfl
  | none =>
    dsimp only [Scoping.dynamic]
    rcases tables.find? t.lexeme given with ⟨missing, missing'⟩ |
      ⟨d, twin, g, found, found', arity, same⟩
    · rw [missing, missing', tables.callError]
    · rw [found, found']
      refine Stateful.bind_congr fun before vs after evaluated => ?_
      have given := (length before vs after evaluated).trans arity.symm
      obtain ⟨inner, inner', entered, entered', inside⟩ := twins.enter tables same given
      simp only [Scoping.dynamic] at entered entered'
      rw [entered, entered']
      refine Stateful.bind_congr fun _ _ _ _ => ?_
      exact calls g d twin same (depth + 1) inner inner' inside

include tables exchanges in
theorem exchanged_evalWith (calls : CalleesTwin callee otherCallee) (e : Expr) :
    Exchanged functions others limit depth f fresh callee otherCallee e := by
  induction e using Expr.induction with
  | literal v => exact fun _ _ _ _ => rfl
  | unary op t e operand =>
    intro values otherValues twins known
    simp only [tokens, List.forall_mem_cons] at known
    simp only [mapVars, Scoping.evalWith, operand values otherValues twins known.2]
  | binary op t l r left right =>
    intro values otherValues twins known
    simp only [tokens, List.forall_mem_cons, List.forall_mem_append] at known
    simp only [mapVars, Scoping.evalWith, left values otherValues twins known.2.1,
      right values otherValues twins known.2.2]
  | cond c y n i j condition yes no =>
    intro values otherValues twins known
    simp only [tokens, List.forall_mem_append] at known
    simp only [mapVars, Scoping.evalWith, condition values otherValues twins known.1,
      yes values otherValues twins known.2.1, no values otherValues twins known.2.2]
  | letIn bs e bindings body =>
    intro values otherValues twins known
    simp only [tokens, List.forall_mem_append] at known
    rw [mapVars, Scoping.evalWith, Scoping.evalWith]
    exact evalBindings_exchanged tables exchanges bindings twins known.1 fun inner inner' twins =>
      body inner inner' twins known.2
  | var t =>
    intro values otherValues twins known
    rw [mapVars, Scoping.evalWith, Scoping.evalWith]
    exact congrArg Stateful.ofExcept (twins.read tables exchanges (known t List.mem_cons_self))
  | function t ps e _ => exact fun _ _ _ _ => rfl
  | call t es args =>
    intro values otherValues twins known
    simp only [tokens, List.forall_mem_cons] at known
    rw [mapVars, Scoping.evalWith, Scoping.evalWith, length_mapVarsOfArgs,
      ← evalArgs_exchanged args twins known.2]
    exact callWith_exchanged tables calls t es.length twins fun _ _ _ => Scoping.length_evalArgs

include tables in
theorem exchanged_evalWithin (n : Nat) (e : Expr) (exchanges : Token.Exchanges f fresh)
    (twins : Valuation.Twins f fresh values otherValues) (known : ∀ t ∈ e.tokens, t.Known f fresh) :
    (Scoping.dynamic functions).evalWithin limit n depth e values =
      (Scoping.dynamic others).evalWithin limit n depth (e.mapVars f) otherValues := by
  induction n generalizing e depth f fresh values otherValues with
  | zero =>
    have exhausted : CalleesTwin (fun _ _ _ => Stateful.fail .exhausted)
        (fun _ _ _ => Stateful.fail .exhausted) := fun _ _ _ _ _ _ _ _ => rfl
    exact exchanged_evalWith tables exchanges exhausted e values otherValues twins known
  | succ n ih =>
    have calls : CalleesTwin ((Scoping.dynamic functions).evalWithin limit n)
        ((Scoping.dynamic others).evalWithin limit n) := by
      intro f d twin same depth values otherValues twins
      rw [same.body]
      exact ih d.body same.exchanges twins same.known
    exact exchanged_evalWith tables exchanges calls e values otherValues twins known

theorem evalWithin_of_twins (tables : functions.Twins others) (n : Nat) (e : Expr)
    (plain : ∀ t ∈ e.tokens, Plain t.lexeme)
    (agree : ∀ name, Plain name → otherValues name = values name) :
    (Scoping.dynamic functions).evalWithin limit n depth e values =
      (Scoping.dynamic others).evalWithin limit n depth e otherValues := by
  have none : Token.Exchanges id [] :=
    ⟨fun _ absent => (nomatch absent), fun _ absent => nomatch absent⟩
  have twins : Valuation.Twins id [] values otherValues := ⟨agree, fun _ absent => nomatch absent⟩
  have same : (Scoping.dynamic functions).evalWithin limit n depth e values =
      (Scoping.dynamic others).evalWithin limit n depth (e.mapVars id) otherValues :=
    exchanged_evalWithin tables n e none twins fun t member => .inl ⟨plain t member, rfl⟩
  rwa [mapVars_of_fixed (f := id) e fun _ _ => rfl] at same

end Expr

end

end LetLang
