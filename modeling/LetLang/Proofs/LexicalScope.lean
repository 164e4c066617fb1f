import LetLang.Proofs.Refinement
import LetLang.Proofs.Renaming.Hygiene
import LetLang.Proofs.Tables

/-!
# Lexical scope of parameters

Fresh names make parameters lexical although all bindings are in one table. A second evaluator takes
the declarations as they were written and keeps the parameters of the current function apart from
the bindings of `let`, which callees see. Both evaluators agree.
-/

namespace LetLang

structure Frames where
  parameters : Valuation
  bindings : Valuation

namespace Valuation

def empty : Valuation := fun _ => none

def erase (values : Valuation) (name : String) : Valuation := fun other =>
  if other = name then none else values other

def parameters : List Token → List Value → Valuation
  | p :: ps, v :: vs => fun name => if name = p.lexeme then some v else parameters ps vs name
  | _, _ => empty

def setAll (values : Valuation) : List (Token × Value) → Valuation
  | [] => values
  | (t, v) :: bindings => setAll (values.set t.lexeme v) bindings

end Valuation

/-- A parameter hides functions and bindings of its name, and a binding hides a parameter. -/
def Scoping.lexical (functions : Functions) : Scoping Frames where
  functions := functions
  read frames t :=
    match frames.parameters t.lexeme with
    | some v => .ok v
    | none => Valuation.read functions frames.bindings t
  bind frames t v :=
    (Valuation.bind functions frames.bindings t v).map fun bindings =>
      ⟨frames.parameters.erase t.lexeme, bindings⟩
  enter frames d args := .ok ⟨.parameters d.params args, frames.bindings⟩

namespace Declaration

structure StoredBy (handles : List (Token × Token)) (d stored : Declaration) : Prop where
  params : d.params = handles.map Prod.fst
  fresh : stored.params = handles.map Prod.snd
  body : stored.body = d.body.renameAll handles
  plain : Plain d.name.lexeme
  ordinary : ∀ t ∈ d.body.tokens, t.Ordinary handles
  distinct : (handles.map fun pair => pair.2.lexeme).Nodup
  marked : ∀ pair ∈ handles, ¬ Plain pair.2.lexeme

def Stored (d stored : Declaration) : Prop := ∃ handles, StoredBy handles d stored

theorem stored_hygienic {d stored : Declaration} {r : Renamer} (source : d.Source)
    (spared : r.symbols.Spares d.arity d.params) (made : (d.hygienic r).1 = .ok stored) :
    d.Stored stored := by
  obtain ⟨_, rfl, _⟩ := hygienic_eq_ok_iff.mp (Prod.ext made rfl)
  rw [renamed_eq source spared]
  refine ⟨d.freshPairs r, (fst_freshPairs d r).symm, (snd_freshPairs d r).symm, rfl,
    source.plain_name, fun t member => source.ordinary_body member, ?_, fun _ => snd_not_plain⟩
  exact nodup_snd_freshPairs d r

end Declaration

namespace Functions

variable {decls : List Declaration} {stored : Functions}
  (related : Related Declaration.Stored (ofDeclarations decls) stored)

include related

theorem not_declares_of_not_plain {name : String} (marked : ¬ Plain name) :
    (ofDeclarations decls).declares name = false := by
  rw [declares, keys_ofDeclarations, List.any_map]
  refine List.any_eq_false.mpr fun d member same => marked ?_
  have paired := related.declarations
  rw [declarations_ofDeclarations] at paired
  obtain ⟨i, below, rfl⟩ := List.getElem_of_mem member
  obtain ⟨_, source⟩ := paired.get below (paired.length_eq ▸ below)
  exact beq_iff_eq.mp same ▸ source.plain

theorem find?_stored (name : String) (arity : Nat) :
    ((ofDeclarations decls).find? name arity = none ∧ stored.find? name arity = none) ∨
      ∃ d s, (ofDeclarations decls).find? name arity = some d ∧
        stored.find? name arity = some s ∧ d.Stored s ∧ d.arity = arity := by
  rcases related.find? name arity with missing | ⟨d, s, found, storedFound, same⟩
  · exact .inl missing
  · have key := ((keyed_ofDeclarations decls).mem_of_find? found).2
    exact .inr ⟨d, s, found, storedFound, same, (Prod.mk.inj key).2⟩

end Functions

namespace Valuation

theorem set_of_eq (values : Valuation) (name : String) (v : Value) :
    values.set name v name = some v := if_pos rfl

theorem set_of_ne {name other : String} (different : other ≠ name) (values : Valuation) (v : Value) :
    values.set name v other = values other := if_neg different

theorem setAll_of_notMem {values : Valuation} {name : String} {bindings : List (Token × Value)}
    (other : ∀ b ∈ bindings, name ≠ b.1.lexeme) : values.setAll bindings name = values name := by
  induction bindings generalizing values with
  | nil => rfl
  | cons b bindings ih =>
    obtain ⟨first, rest⟩ := List.forall_mem_cons.mp other
    rw [setAll, ih rest, set_of_ne first]

theorem isSome_setAll {values : Valuation} {name : String} (bound : (values name).isSome)
    (bindings : List (Token × Value)) : (values.setAll bindings name).isSome := by
  induction bindings generalizing values with
  | nil => exact bound
  | cons b bindings ih =>
    refine ih ?_
    rw [set]
    split
    · rfl
    · exact bound

theorem setAll_isSome {values : Valuation} {handles : List (Token × Token)} {args : List Value}
    (length : args.length = handles.length) {pair : Token × Token} (member : pair ∈ handles) :
    (values.setAll ((handles.map Prod.snd).zip args) pair.2.lexeme).isSome := by
  induction handles generalizing args values with
  | nil => cases member
  | cons first handles ih =>
    cases args with
    | nil => cases length
    | cons v args =>
      rcases List.mem_cons.mp member with rfl | later
      · have bound := congrArg Option.isSome (set_of_eq values pair.2.lexeme v)
        exact isSome_setAll bound _
      · exact ih (Nat.succ.inj length) later

theorem bindAll_of_free {functions : Functions} {values : Valuation}
    {bindings : List (Token × Value)} (free : ∀ b ∈ bindings, functions.declares b.1.lexeme = false) :
    bindAll functions values bindings = .ok (values.setAll bindings) := by
  induction bindings generalizing values with
  | nil => rfl
  | cons b bindings ih =>
    obtain ⟨first, rest⟩ := List.forall_mem_cons.mp free
    have bound : bind functions values b.1 b.2 = .ok (values.set b.1.lexeme b.2) := by
      simp [bind, first]
    rw [bindAll, bound]
    exact ih rest

theorem parameters_of_eq (p : Token) (ps : List Token) (v : Value) (vs : List Value) :
    parameters (p :: ps) (v :: vs) p.lexeme = some v := if_pos rfl

theorem parameters_of_ne {name : String} {p : Token} (other : name ≠ p.lexeme) (ps : List Token)
    (v : Value) (vs : List Value) : parameters (p :: ps) (v :: vs) name = parameters ps vs name :=
  if_neg other

theorem parameters_eq {handles : List (Token × Token)} {args : List Value} (values : Valuation)
    (length : args.length = handles.length)
    (distinct : (handles.map fun pair => pair.2.lexeme).Nodup) (name : String) :
    parameters (handles.map Prod.fst) args name =
      (Token.standIn? handles name).bind fun f =>
        values.setAll ((handles.map Prod.snd).zip args) f.lexeme := by
  induction handles generalizing args values with
  | nil => rfl
  | cons pair handles ih =>
    obtain ⟨head, distinct⟩ := List.nodup_cons.mp distinct
    cases args with
    | nil => cases length
    | cons v args =>
      rw [List.map_cons, List.map_cons, List.zip_cons_cons, setAll]
      by_cases hit : name = pair.1.lexeme
      · have found : Token.standIn? (pair :: handles) name = some pair.2 := by
          simp [Token.standIn?, hit]
        have last : ∀ b ∈ (handles.map Prod.snd).zip args, pair.2.lexeme ≠ b.1.lexeme := by
          intro b member same
          obtain ⟨next, later, equal⟩ := List.mem_map.mp (List.of_mem_zip member).1
          exact head (List.mem_map.mpr ⟨next, later, by rw [equal, ← same]⟩)
        rw [found, hit, parameters_of_eq, Option.bind_some, setAll_of_notMem last, set_of_eq]
      · have skipped : Token.standIn? (pair :: handles) name = Token.standIn? handles name := by
          simp [Token.standIn?, hit]
        rw [parameters_of_ne hit, skipped]
        exact ih _ (Nat.succ.inj length) distinct

end Valuation

/-- The map has the bindings by their names, and by the fresh names the parameters in sight. -/
structure Frames.Shown (visible : List (Token × Token)) (frames : Frames) (values : Valuation) :
    Prop where
  bindings : ∀ name, Plain name → values name = frames.bindings name
  parameters : ∀ name, Plain name →
    frames.parameters name = (Token.standIn? visible name).bind fun f => values f.lexeme
  known : ∀ pair ∈ visible, (values pair.2.lexeme).isSome
  marked : ∀ pair ∈ visible, ¬ Plain pair.2.lexeme

theorem Frames.Shown.empty : Frames.Shown [] ⟨.empty, .empty⟩ .empty :=
  ⟨fun _ _ => rfl, fun _ _ => rfl, fun _ member => (nomatch member), fun _ member => nomatch member⟩

namespace Frames.Shown

variable {decls : List Declaration} {stored : Functions} {handles visible : List (Token × Token)}
  {frames : Frames} {values : Valuation} {t : Token}

theorem read (related : Functions.Related Declaration.Stored (.ofDeclarations decls) stored)
    (shown : Frames.Shown visible frames values) (ordinary : t.Ordinary handles) :
    (Scoping.lexical (.ofDeclarations decls)).read frames t =
      (Scoping.dynamic stored).read values (t.renamedBy handles visible) := by
  have parameter := shown.parameters t.lexeme ordinary.plain
  rw [ordinary.renamedBy]
  simp only [Scoping.lexical, Scoping.dynamic]
  cases found : Token.standIn? visible t.lexeme with
  | none =>
    rw [found, Option.bind_none] at parameter
    simp only [parameter, Option.getD_none, Valuation.read, related.declares,
      shown.bindings t.lexeme ordinary.plain]
  | some f =>
    obtain ⟨pair, member, _, rfl⟩ := Token.standIn?_mem found
    obtain ⟨v, bound⟩ := Option.isSome_iff_exists.mp (shown.known pair member)
    rw [found, Option.bind_some, bound] at parameter
    have free := Functions.not_declares_of_not_plain related (shown.marked pair member)
    simp [parameter, Valuation.read, related.declares, free, bound]

theorem set (shown : Frames.Shown visible frames values) (sub : visible ⊆ handles)
    (ordinary : t.Ordinary handles) (v : Value) :
    Frames.Shown (Token.remaining visible [t])
      ⟨frames.parameters.erase t.lexeme, frames.bindings.set t.lexeme v⟩
      (values.set t.lexeme v) := by
  have other : ∀ pair ∈ visible, pair.2.lexeme ≠ t.lexeme := fun pair member same =>
    shown.marked pair member (same ▸ ordinary.plain)
  refine ⟨?_, ?_, ?_, fun pair member => shown.marked pair (Token.remaining_subset _ _ member)⟩
  · intro name plain
    simp only [Valuation.set, shown.bindings name plain]
  · intro name plain
    rw [ordinary.standIn?_remaining sub]
    by_cases hit : name = t.lexeme
    · simp [Valuation.erase, hit]
    · simp only [Valuation.erase, hit, if_false, shown.parameters name plain]
      cases found : Token.standIn? visible name with
      | none => rfl
      | some f =>
        obtain ⟨pair, member, _, rfl⟩ := Token.standIn?_mem found
        exact (Valuation.set_of_ne (other pair member) values v).symm
  · intro pair member
    have member := Token.remaining_subset _ _ member
    rw [Valuation.set_of_ne (other pair member)]
    exact shown.known pair member

theorem bind (related : Functions.Related Declaration.Stored (.ofDeclarations decls) stored)
    (shown : Frames.Shown visible frames values) (sub : visible ⊆ handles)
    (ordinary : t.Ordinary handles) (v : Value) :
    (∃ e, (Scoping.lexical (.ofDeclarations decls)).bind frames t v = .error e ∧
      (Scoping.dynamic stored).bind values t v = .error e) ∨
    ∃ frames' values', (Scoping.lexical (.ofDeclarations decls)).bind frames t v = .ok frames' ∧
      (Scoping.dynamic stored).bind values t v = .ok values' ∧
      Frames.Shown (Token.remaining visible [t]) frames' values' := by
  simp only [Scoping.lexical, Scoping.dynamic, Valuation.bind, related.declares]
  by_cases declared : (Functions.ofDeclarations decls).declares t.lexeme = true
  · simp [declared, Except.map]
  · rw [if_neg declared, if_neg declared]
    exact .inr ⟨_, _, rfl, rfl, shown.set sub ordinary v⟩

theorem enter {d s : Declaration} {args : List Value}
    (related : Functions.Related Declaration.Stored (.ofDeclarations decls) stored)
    (same : d.StoredBy handles s)
    (shown : Frames.Shown visible frames values) (length : args.length = d.arity) :
    ∃ frames' values', (Scoping.lexical (.ofDeclarations decls)).enter frames d args = .ok frames' ∧
      (Scoping.dynamic stored).enter values s args = .ok values' ∧
      Frames.Shown handles frames' values' := by
  have marked : ∀ b ∈ s.params.zip args, ¬ Plain b.1.lexeme := by
    intro b member
    rw [same.fresh] at member
    obtain ⟨pair, here, equal⟩ := List.mem_map.mp (List.of_mem_zip member).1
    exact equal ▸ same.marked pair here
  have free : ∀ b ∈ s.params.zip args, stored.declares b.1.lexeme = false := by
    intro b member
    rw [related.declares]
    exact Functions.not_declares_of_not_plain related (marked b member)
  have lengths : args.length = handles.length := by
    rw [length, Declaration.arity, same.params, List.length_map]
  have parameters := Valuation.parameters_eq values lengths same.distinct
  rw [← same.params, ← same.fresh] at parameters
  refine ⟨⟨.parameters d.params args, frames.bindings⟩, values.setAll (s.params.zip args), rfl,
    Valuation.bindAll_of_free free, ?_, fun name _ => parameters name, ?_, same.marked⟩
  · intro name plain
    rw [Valuation.setAll_of_notMem fun b member equal => marked b member (equal ▸ plain)]
    exact shown.bindings name plain
  · intro pair member
    rw [same.fresh]
    exact Valuation.setAll_isSome lengths member

end Frames.Shown

/-! ### Evaluation -/

theorem Scoping.length_evalArgs {σ : Type} {s : Scoping σ} {limit : Option Nat}
    {callee : Nat → Expr → σ → Passing Value} {depth : Nat} {es : List Expr} {scope : σ}
    {before after : Effects} {vs : List Value}
    (h : s.evalArgs limit callee depth es scope before = (.ok vs, after)) :
    vs.length = es.length := by
  induction es generalizing before after vs with
  | nil =>
    cases h
    rfl
  | cons e es ih =>
    obtain ⟨v, middle, _, h⟩ := Stateful.bind_eq_ok h
    obtain ⟨rest, last, others, h⟩ := Stateful.bind_eq_ok h
    cases h
    exact congrArg Nat.succ (ih others)

section

variable {decls : List Declaration} {stored : Functions} {limit : Option Nat} {depth : Nat}
  {handles visible : List (Token × Token)} {frames : Frames} {values : Valuation}
  {callee : Nat → Expr → Frames → Passing Value}
  {storedCallee : Nat → Expr → Valuation → Passing Value}

def CalleesAgree (callee : Nat → Expr → Frames → Passing Value)
    (storedCallee : Nat → Expr → Valuation → Passing Value) : Prop :=
  ∀ handles (d s : Declaration), d.StoredBy handles s →
    ∀ depth frames values, Frames.Shown handles frames values →
      callee depth d.body frames = storedCallee depth s.body values

/-- Wherever the map shows the frames, the renamed expression is evaluated as the expression is. -/
def Expr.Lexical (decls : List Declaration) (stored : Functions) (limit : Option Nat) (depth : Nat)
    (handles : List (Token × Token)) (callee : Nat → Expr → Frames → Passing Value)
    (storedCallee : Nat → Expr → Valuation → Passing Value) (e : Expr) : Prop :=
  ∀ visible frames values, visible ⊆ handles → Frames.Shown visible frames values →
    (∀ t ∈ e.tokens, t.Ordinary handles) →
      (Scoping.lexical (.ofDeclarations decls)).evalWith limit callee depth e frames =
        (Scoping.dynamic stored).evalWith limit storedCallee depth (e.renameIn handles visible)
          values

namespace Expr

variable (related : Functions.Related Declaration.Stored (.ofDeclarations decls) stored)

include related

theorem evalBindings_bind {bs : List (Token × Expr)}
    (each : ∀ b ∈ bs, Lexical decls stored limit depth handles callee storedCallee b.2)
    (sub : visible ⊆ handles) (shown : Frames.Shown visible frames values)
    (ordinary : ∀ t ∈ tokensOfBindings bs, t.Ordinary handles)
    {next : Frames → Passing Value} {storedNext : Valuation → Passing Value}
    (rest : ∀ frames values,
      Frames.Shown (Token.remaining visible (bs.map Prod.fst)) frames values →
        next frames = storedNext values) :
    ((Scoping.lexical (.ofDeclarations decls)).evalBindings limit callee depth bs frames >>= next) =
      ((Scoping.dynamic stored).evalBindings limit storedCallee depth
        (renameBindings handles visible bs) values >>= storedNext) := by
  induction bs generalizing visible frames values with
  | nil => exact rest frames values (by rwa [List.map_nil, Token.remaining_nil])
  | cons b bs ih =>
    obtain ⟨t, e⟩ := b
    obtain ⟨first, others⟩ := List.forall_mem_cons.mp each
    simp only [tokensOfBindings, List.forall_mem_cons, List.forall_mem_append] at ordinary
    obtain ⟨binder, value, behind⟩ := ordinary
    have sub' := Token.remaining_subset_of sub [t]
    simp only [renameBindings, Scoping.evalBindings, Stateful.bind_assoc, binder.reboundBy,
      ← first visible frames values sub shown value]
    refine Stateful.bind_congr fun _ v _ _ => ?_
    rcases shown.bind related sub binder v with ⟨e, refused, storedRefused⟩ |
      ⟨frames', values', bound, storedBound, shown'⟩
    · rw [refused, storedRefused]
      rfl
    · rw [bound, storedBound]
      refine ih others sub' shown' behind fun frames values shown => rest frames values ?_
      rwa [List.map_cons, Token.remaining_cons]

omit related in
theorem evalArgs_lexical {es : List Expr}
    (each : ∀ e ∈ es, Lexical decls stored limit depth handles callee storedCallee e)
    (sub : visible ⊆ handles) (shown : Frames.Shown visible frames values)
    (ordinary : ∀ t ∈ tokensOfArgs es, t.Ordinary handles) :
    (Scoping.lexical (.ofDeclarations decls)).evalArgs limit callee depth es frames =
      (Scoping.dynamic stored).evalArgs limit storedCallee depth (renameArgs handles visible es)
        values := by
  induction es with
  | nil => rfl
  | cons e es ih =>
    obtain ⟨first, others⟩ := List.forall_mem_cons.mp each
    simp only [tokensOfArgs, List.forall_mem_append] at ordinary
    simp only [renameArgs, Scoping.evalArgs, first visible frames values sub shown ordinary.1,
      ih others ordinary.2]

theorem callWith_lexical (calls : CalleesAgree callee storedCallee) (t : Token) (given : Nat)
    {args : Passing (List Value)} (shown : Frames.Shown visible frames values)
    (length : ∀ before vs after, args before = (.ok vs, after) → vs.length = given) :
    (Scoping.lexical (.ofDeclarations decls)).callWith limit callee depth t given args frames =
      (Scoping.dynamic stored).callWith limit storedCallee depth t given args values := by
  unfold Scoping.callWith
  cases Builtin.lookup t.lexeme given with
  | some b => rfl
  | none =>
    simp only [Scoping.lexical, Scoping.dynamic]
    rcases Functions.find?_stored related t.lexeme given with ⟨missing, storedMissing⟩ |
      ⟨d, s, found, storedFound, ⟨handles, same⟩, arity⟩
    · rw [missing, storedMissing, related.callError]
    · rw [found, storedFound]
      refine Stateful.bind_congr fun before vs after evaluated => ?_
      have given := (length before vs after evaluated).trans arity.symm
      obtain ⟨frames', values', entered, storedEntered, shown'⟩ := shown.enter related same given
      simp only [Scoping.lexical, Scoping.dynamic] at entered storedEntered
      rw [entered, storedEntered]
      refine Stateful.bind_congr fun _ _ _ _ => ?_
      exact calls handles d s same (depth + 1) frames' values' shown'

theorem lexical_evalWith (calls : CalleesAgree callee storedCallee) (e : Expr) :
    Lexical decls stored limit depth handles callee storedCallee e := by
  induction e using Expr.induction with
  | literal v => exact fun _ _ _ _ _ _ => rfl
  | unary op t e operand =>
    intro visible frames values sub shown ordinary
    simp only [tokens, List.forall_mem_cons] at ordinary
    simp only [renameIn, Scoping.evalWith, operand visible frames values sub shown ordinary.2]
  | binary op t l r left right =>
    intro visible frames values sub shown ordinary
    simp only [tokens, List.forall_mem_cons, List.forall_mem_append] at ordinary
    simp only [renameIn, Scoping.evalWith, left visible frames values sub shown ordinary.2.1,
      right visible frames values sub shown ordinary.2.2]
  | cond c y n i j condition yes no =>
    intro visible frames values sub shown ordinary
    simp only [tokens, List.forall_mem_append] at ordinary
    simp only [renameIn, Scoping.evalWith, condition visible frames values sub shown ordinary.1,
      yes visible frames values sub shown ordinary.2.1,
      no visible frames values sub shown ordinary.2.2]
  | letIn bs e bindings body =>
    intro visible frames values sub shown ordinary
    simp only [tokens, List.forall_mem_append] at ordinary
    have sub' := Token.remaining_subset_of sub (bs.map Prod.fst)
    rw [renameIn, Scoping.evalWith, Scoping.evalWith]
    exact evalBindings_bind related bindings sub shown ordinary.1 fun frames values shown =>
      body _ frames values sub' shown ordinary.2
  | var t =>
    intro visible frames values sub shown ordinary
    rw [renameIn, Scoping.evalWith, Scoping.evalWith,
      shown.read related (ordinary t List.mem_cons_self)]
  | function t ps e _ => exact fun _ _ _ _ _ _ => rfl
  | call t es args =>
    intro visible frames values sub shown ordinary
    simp only [tokens, List.forall_mem_cons] at ordinary
    have length : (renameArgs handles visible es).length = es.length := length_renameArgs es
    rw [renameIn, Scoping.evalWith, Scoping.evalWith, length,
      ← evalArgs_lexical args sub shown ordinary.2]
    exact callWith_lexical related calls t es.length shown fun _ _ _ => Scoping.length_evalArgs

theorem lexical_evalWithin (n : Nat) (e : Expr) (sub : visible ⊆ handles)
    (shown : Frames.Shown visible frames values) (ordinary : ∀ t ∈ e.tokens, t.Ordinary handles) :
    (Scoping.lexical (.ofDeclarations decls)).evalWithin limit n depth e frames =
      (Scoping.dynamic stored).evalWithin limit n depth (e.renameIn handles visible) values := by
  induction n generalizing e depth handles visible frames values with
  | zero =>
    have exhausted : CalleesAgree (fun _ _ _ => Stateful.fail .exhausted)
        (fun _ _ _ => Stateful.fail .exhausted) := fun _ _ _ _ _ _ _ _ => rfl
    exact lexical_evalWith related exhausted e visible frames values sub shown ordinary
  | succ n ih =>
    have calls : CalleesAgree ((Scoping.lexical (.ofDeclarations decls)).evalWithin limit n)
        ((Scoping.dynamic stored).evalWithin limit n) := by
      intro handles d s same depth frames values shown
      rw [same.body]
      exact ih d.body (List.Subset.refl _) shown same.ordinary
    exact lexical_evalWith related calls e visible frames values sub shown ordinary

end Expr

end

namespace Run

theorem register_ok {d : Declaration} {m after : Machine} (h : register d m = (.ok (), after)) :
    ∃ stored, m.environment.register d = (.ok stored, after.environment) := by
  rw [register] at h
  rcases registered : m.environment.register d with ⟨outcome, environment⟩
  rw [registered] at h
  cases outcome with
  | ok stored =>
    cases h
    exact ⟨stored, rfl⟩
  | error f => cases h

theorem registerAll_ok {known ds : List Declaration} {m after : Machine}
    (h : registerAll ds m = (.ok (), after)) (sources : ∀ d ∈ ds, d.Source)
    (spared : m.environment.renamer.symbols.SparesAll ds)
    (related : Functions.Related Declaration.Stored (.ofDeclarations known) m.environment.functions) :
    after.environment.bindings = m.environment.bindings ∧
      Functions.Related Declaration.Stored (.ofDeclarations (known ++ ds))
        after.environment.functions := by
  induction ds generalizing known m with
  | nil =>
    cases h
    rw [List.append_nil]
    exact ⟨rfl, related⟩
  | cons d ds ih =>
    obtain ⟨source, sources⟩ := List.forall_mem_cons.mp sources
    obtain ⟨_, middle, registered, h⟩ := Stateful.bind_eq_ok h
    obtain ⟨stored, registered⟩ := register_ok registered
    obtain ⟨_, renamer, made, environment⟩ := Environment.register_eq_ok_iff.mp registered
    obtain ⟨_, _, rfl⟩ := Declaration.hygienic_eq_ok_iff.mp made
    have later : middle.environment.renamer.symbols.SparesAll ds := by
      rw [environment]
      exact spared.tail (Renamer.nextSite_nextAll _ _)
    have next : Functions.Related Declaration.Stored (.ofDeclarations (known ++ [d]))
        middle.environment.functions := by
      rw [Functions.ofDeclarations_append, environment]
      exact related.insert (Declaration.stored_hygienic source spared.head (congrArg Prod.fst made)) _
    obtain ⟨bindings, all⟩ := ih h sources later next
    rw [List.append_assoc] at all
    exact ⟨bindings.trans (by rw [environment]), all⟩

end Run

/-- Parameters have lexical scope. Declarations that register in a fresh environment are evaluated
as they were written, with the parameters of each call kept apart from the bindings of `let`: the
result, what is printed and what is drawn are the same, whatever the limit of calls and the state of
the generator, and however deep calls are followed. The fresh tokens must have sites of their own,
which they have until the sites start again. -/
theorem parameters_lexical {decls : List Declaration} {body : Expr} {symbols : Symbols}
    {start m : Machine} (fresh : start.environment = .ofSymbols symbols)
    (sources : ∀ d ∈ decls, d.Source) (spared : symbols.SparesAll decls)
    (plain : ∀ t ∈ body.tokens, Plain t.lexeme)
    (registered : Run.registerAll decls start = (.ok (), m)) (n : Nat) :
    (Scoping.lexical (.ofDeclarations decls)).evalWithin m.calls.limit n m.calls.depth body
        ⟨.empty, .empty⟩ m.effects =
      ((body.evalWithin n m).1, (body.evalWithin n m).2.effects) := by
  have spared : start.environment.renamer.symbols.SparesAll decls := by
    rw [fresh]
    exact spared
  have nothing : Functions.Related Declaration.Stored (.ofDeclarations [])
      start.environment.functions := by
    rw [fresh]
    exact .empty
  obtain ⟨bindings, related⟩ := Run.registerAll_ok registered sources spared nothing
  rw [fresh] at bindings
  have values : m.environment.value? = Valuation.empty := by
    funext name
    rw [Environment.value?, bindings]
    rfl
  have ordinary : ∀ t ∈ body.tokens, t.Ordinary [] := fun t member =>
    ⟨plain t member, fun _ absent => nomatch absent⟩
  have lexical : (Scoping.lexical (.ofDeclarations decls)).evalWithin m.calls.limit n
      m.calls.depth body ⟨.empty, .empty⟩ =
        (Scoping.dynamic m.environment.functions).evalWithin m.calls.limit n m.calls.depth
          (body.renameIn [] []) Valuation.empty :=
    Expr.lexical_evalWithin related n body (List.Subset.refl _) .empty ordinary
  rw [Expr.renameIn_nil] at lexical
  have passed := Expr.implements_evalWithin n body m ⟨rfl, rfl, rfl, values⟩
  exact (congrFun lexical m.effects).trans passed

/-- A parameter has the name of a function, which sees a binding of its caller. -/
theorem parameters_lexical_clashing :
    let k : Declaration := ⟨⟨.identifier, "k", none, 9, 0⟩, [], .var ⟨.identifier, "y", none, 16, 1⟩⟩
    let inner : Expr := .binary .concat ⟨.atSign, "@", none, 52, 4⟩
      (.call ⟨.identifier, "k", none, 48, 5⟩ []) (.var ⟨.identifier, "k", none, 54, 6⟩)
    let f : Declaration := ⟨⟨.identifier, "f", none, 28, 2⟩, [⟨.identifier, "k", none, 30, 3⟩],
      .letIn [(⟨.identifier, "y", none, 40, 7⟩, .var ⟨.identifier, "k", none, 44, 8⟩)] inner⟩
    let body : Expr := .call ⟨.identifier, "f", none, 57, 9⟩ [.literal (.string "a")]
    let start : Machine := .ofSettings .testRun (.ofSymbols ⟨.initial, 10⟩) []
    (Run.registerAll [k, f] start).1 = .ok () ∧
      (body.evalWithin 2 (Run.registerAll [k, f] start).2).1 = .ok (.string "aa") := by
  intro k inner f body start
  have sources : ∀ d ∈ [k, f], d.Source := List.forall_mem_cons.mpr
    ⟨⟨rfl, by decide, by decide⟩, List.forall_mem_singleton.mpr ⟨rfl, by decide, by decide⟩⟩
  have spared : Symbols.SparesAll ⟨.initial, 10⟩ [k, f] := .of_issued (by decide) (by decide)
  have plain : ∀ t ∈ body.tokens, Plain t.lexeme := by decide
  have accepted : (Run.registerAll [k, f] start).1 = .ok () := by rfl
  have registered : Run.registerAll [k, f] start = (.ok (), (Run.registerAll [k, f] start).2) :=
    Prod.ext accepted rfl
  have same := congrArg Prod.fst (parameters_lexical rfl sources spared plain registered 2)
  dsimp only at same
  refine ⟨accepted, same.symm.trans ?_⟩
  rfl

/-- Where the fresh `x` has the site of `y`, the call `f("a", "b")` of `f(x, y) => x` gives `b`. -/
theorem parameters_confused : ¬ ∀ (decls : List Declaration) (body : Expr) (symbols : Symbols)
    (start m : Machine), start.environment = .ofSymbols symbols → (∀ d ∈ decls, d.Source) →
      (∀ t ∈ body.tokens, Plain t.lexeme) → Run.registerAll decls start = (.ok (), m) → ∀ n,
        (Scoping.lexical (.ofDeclarations decls)).evalWithin m.calls.limit n m.calls.depth body
          ⟨.empty, .empty⟩ m.effects = ((body.evalWithin n m).1, (body.evalWithin n m).2.effects) := by
  intro agree
  let f : Declaration := ⟨⟨.identifier, "f", none, 9, 0⟩,
    [⟨.identifier, "x", none, 11, 1⟩, ⟨.identifier, "y", none, 14, 2⟩],
    .var ⟨.identifier, "x", none, 20, 3⟩⟩
  let body : Expr := .call ⟨.identifier, "f", none, 22, 4⟩
    [.literal (.string "a"), .literal (.string "b")]
  let start : Machine := .ofSettings .testRun (.ofSymbols ⟨.initial, 2⟩) []
  have sources : ∀ d ∈ [f], d.Source := List.forall_mem_singleton.mpr ⟨rfl, by decide, by decide⟩
  have accepted : (Run.registerAll [f] start).1 = .ok () := by rfl
  have registered : Run.registerAll [f] start = (.ok (), (Run.registerAll [f] start).2) :=
    Prod.ext accepted rfl
  have same := congrArg Prod.fst (agree [f] body _ start _ rfl sources (by decide) registered 1)
  dsimp only at same
  have read : (body.evalWithin 1 (Run.registerAll [f] start).2).1 = .ok (.string "b") := by
    decide +kernel
  rw [read] at same
  exact absurd same (by decide +kernel)

end LetLang
