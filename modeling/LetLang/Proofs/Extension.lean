import LetLang.Proofs.FunctionTable

/-!
# One more function

A new function gives a meaning to its own name and takes none from the others. The parameters of
stored functions do not count: none of them has the name that it was written with.
-/

namespace LetLang

variable {α β : Type}

namespace Expr

mutual

def variableTokens : Expr → List Token
  | literal _ => []
  | unary _ _ e => e.variableTokens
  | binary _ _ l r => l.variableTokens ++ r.variableTokens
  | cond c y n _ _ => c.variableTokens ++ (y.variableTokens ++ n.variableTokens)
  | letIn bs e => variableTokensOfBindings bs ++ e.variableTokens
  | var t => [t]
  | function _ _ e => e.variableTokens
  | call _ es => variableTokensOfArgs es
termination_by structural e => e

def variableTokensOfBindings : List (Token × Expr) → List Token
  | [] => []
  | (t, e) :: bs => t :: (e.variableTokens ++ variableTokensOfBindings bs)
termination_by structural bs => bs

def variableTokensOfArgs : List Expr → List Token
  | [] => []
  | e :: es => e.variableTokens ++ variableTokensOfArgs es
termination_by structural es => es

end

def Avoids (name : String) (e : Expr) : Prop := ∀ t ∈ e.variableTokens, t.lexeme ≠ name

instance (name : String) (e : Expr) : Decidable (e.Avoids name) :=
  inferInstanceAs (Decidable (∀ t ∈ e.variableTokens, t.lexeme ≠ name))

end Expr

def Error.IsUnmatchedCall (name : String) (e : Error) : Prop :=
  e.cause = .undefinedFunction name ∨
    ∃ given available, e.cause = .noMatchingOverload name given available

theorem Functions.callError_unmatched (fs : Functions) (name : String) (given : Nat)
    (offset : UInt32) : (fs.callError name given offset).IsUnmatchedCall name := by
  unfold callError
  split
  next => exact .inl rfl
  next => exact .inr ⟨given, _, rfl⟩

/-- `other` does what `act` does, unless `act` ends with an error of the kind. -/
def Passing.Unless (kind : Error → Prop) (act other : Passing α) : Prop :=
  ∀ s, (∃ e, (act s).1 = .error (.error e) ∧ kind e) ∨ act s = other s

namespace Passing.Unless

variable {kind : Error → Prop}

theorem refl (act : Passing α) : act.Unless kind act := fun _ => .inr rfl

theorem error {e : Error} (here : kind e) (other : Passing α) :
    Passing.Unless kind (Stateful.error e) other := fun _ => .inl ⟨e, rfl, here⟩

theorem bind {act other : Passing α} {next otherNext : α → Passing β} (first : act.Unless kind other)
    (rest : ∀ a, (next a).Unless kind (otherNext a)) :
    Passing.Unless kind (act >>= next) (other >>= otherNext) := by
  intro s
  rcases called : act s with ⟨result, middle⟩
  rcases first s with ⟨e, ended, here⟩ | same
  · rw [called] at ended
    dsimp only at ended
    subst ended
    exact .inl ⟨e, by rw [Stateful.bind_error called], here⟩
  · rw [called] at same
    cases result with
    | ok a =>
      rw [Stateful.bind_ok called, Stateful.bind_ok same.symm]
      exact rest a middle
    | error f => exact .inr (by rw [Stateful.bind_error called, Stateful.bind_error same.symm])

end Passing.Unless

section

variable {functions : Functions} {key : String × Nat} {d : Declaration} {t : Token}

theorem Functions.declares_insert_of_ne {name : String} (other : name ≠ key.1) :
    (functions.insert key d).declares name = functions.declares name := by
  rw [declares_insert, beq_false_of_ne other.symm, Bool.or_false]

theorem Functions.callError_insert_of_ne {name : String} (other : name ≠ key.1) (given : Nat)
    (offset : UInt32) :
    (functions.insert key d).callError name given offset = functions.callError name given offset := by
  rw [callError, callError, arities_insert_of_ne functions d other.symm]

theorem Functions.find?_insert_of_some {name : String} {arity : Nat} {s : Declaration}
    (found : functions.find? name arity = some s) :
    (functions.insert key d).find? name arity = some s := by
  rw [find?_insert, found, Option.some_or]

theorem Functions.find?_insert_of_ne {name : String} (other : name ≠ key.1) (arity : Nat) :
    (functions.insert key d).find? name arity = functions.find? name arity := by
  rw [find?_insert, if_neg fun same => other (congrArg Prod.fst same).symm, Option.or_none]

namespace Valuation

theorem read_insert (values : Valuation) (other : t.lexeme ≠ key.1) :
    read (functions.insert key d) values t = read functions values t := by
  rw [read, read, Functions.declares_insert_of_ne other]

theorem bind_insert (values : Valuation) (other : t.lexeme ≠ key.1) (v : Value) :
    bind (functions.insert key d) values t v = bind functions values t v := by
  rw [bind, bind, Functions.declares_insert_of_ne other]

theorem bindAll_insert (values : Valuation) {bindings : List (Token × Value)}
    (others : ∀ b ∈ bindings, b.1.lexeme ≠ key.1) :
    bindAll (functions.insert key d) values bindings = bindAll functions values bindings := by
  induction bindings generalizing values with
  | nil => rfl
  | cons b bindings ih =>
    obtain ⟨first, rest⟩ := List.forall_mem_cons.mp others
    obtain ⟨t, v⟩ := b
    simp only [bindAll, bind_insert values first, ih _ rest]

end Valuation

end

/-! ### Evaluation -/

section

variable {functions : Functions} {key : String × Nat} {d : Declaration} {limit : Option Nat}
  {depth : Nat} {values : Valuation} {callee otherCallee : Nat → Expr → Valuation → Passing Value}

/-- Where the name in the key is no variable, evaluation with `d` in the table goes as without. -/
def Expr.Conserved (functions : Functions) (key : String × Nat) (d : Declaration)
    (limit : Option Nat) (depth : Nat) (callee otherCallee : Nat → Expr → Valuation → Passing Value) (e : Expr) : Prop :=
  e.Avoids key.1 → ∀ values,
    Passing.Unless (Error.IsUnmatchedCall key.1)
      ((Scoping.dynamic functions).evalWith limit callee depth e values)
      ((Scoping.dynamic (functions.insert key d)).evalWith limit otherCallee depth e values)

namespace Expr

theorem conserved_evalArgs {es : List Expr}
    (each : ∀ e ∈ es, Conserved functions key d limit depth callee otherCallee e)
    (avoids : ∀ t ∈ variableTokensOfArgs es, t.lexeme ≠ key.1) :
    Passing.Unless (Error.IsUnmatchedCall key.1)
      ((Scoping.dynamic functions).evalArgs limit callee depth es values)
      ((Scoping.dynamic (functions.insert key d)).evalArgs limit otherCallee depth es values) := by
  induction es with
  | nil => exact .refl _
  | cons e es ih =>
    obtain ⟨first, rest⟩ := List.forall_mem_cons.mp each
    simp only [variableTokensOfArgs, List.forall_mem_append] at avoids
    exact .bind (first avoids.1 values) fun _ => .bind (ih rest avoids.2) fun _ => .refl _

theorem conserved_evalBindings {bs : List (Token × Expr)}
    (each : ∀ b ∈ bs, Conserved functions key d limit depth callee otherCallee b.2)
    (avoids : ∀ t ∈ variableTokensOfBindings bs, t.lexeme ≠ key.1) :
    Passing.Unless (Error.IsUnmatchedCall key.1)
      ((Scoping.dynamic functions).evalBindings limit callee depth bs values)
      ((Scoping.dynamic (functions.insert key d)).evalBindings limit otherCallee depth bs values) := by
  induction bs generalizing values with
  | nil => exact .refl _
  | cons b bs ih =>
    obtain ⟨t, e⟩ := b
    obtain ⟨first, rest⟩ := List.forall_mem_cons.mp each
    simp only [variableTokensOfBindings, List.forall_mem_cons, List.forall_mem_append] at avoids
    obtain ⟨binder, value, behind⟩ := avoids
    refine .bind (first value values) fun v => ?_
    have bound : (Scoping.dynamic (functions.insert key d)).bind values t v =
        (Scoping.dynamic functions).bind values t v := Valuation.bind_insert values binder v
    rw [bound]
    exact .bind (.refl _) fun inner => ih rest behind

variable (params : ∀ s ∈ functions.declarations, ∀ p ∈ s.params, p.lexeme ≠ key.1)
  (calls : ∀ s ∈ functions.declarations, ∀ depth values,
    Passing.Unless (Error.IsUnmatchedCall key.1) (callee depth s.body values)
      (otherCallee depth s.body values))

include params calls

theorem conserved_callWith (t : Token) (given : Nat) {args otherArgs : Passing (List Value)}
    (arguments : args.Unless (Error.IsUnmatchedCall key.1) otherArgs) :
    Passing.Unless (Error.IsUnmatchedCall key.1)
      ((Scoping.dynamic functions).callWith limit callee depth t given args values)
      ((Scoping.dynamic (functions.insert key d)).callWith limit otherCallee depth t given otherArgs
        values) := by
  unfold Scoping.callWith
  cases Builtin.lookup t.lexeme given with
  | some b => exact .bind arguments fun _ => .refl _
  | none =>
    dsimp only [Scoping.dynamic]
    cases found : functions.find? t.lexeme given with
    | some s =>
      rw [Functions.find?_insert_of_some found]
      have member : s ∈ functions.declarations := List.mem_map_of_mem (Functions.mem_of_find? found)
      refine .bind arguments fun vs => .bind (.refl _) fun _ => ?_
      rw [Valuation.bindAll_insert values fun b here => params s member b.1 (List.of_mem_zip here).1]
      exact .bind (.refl _) fun inner => calls s member (depth + 1) inner
    | none =>
      by_cases own : t.lexeme = key.1
      · exact .error (own ▸ functions.callError_unmatched t.lexeme given t.offset) _
      · rw [Functions.find?_insert_of_ne own, found, Functions.callError_insert_of_ne own]
        exact .refl _

theorem conserved_evalWith (e : Expr) :
    Conserved functions key d limit depth callee otherCallee e := by
  induction e using Expr.induction with
  | literal v => exact fun _ _ => .refl _
  | unary op t e operand =>
    intro avoids values
    simp only [Avoids, variableTokens] at avoids
    exact .bind (operand avoids values) fun _ => .refl _
  | binary op t l r left right =>
    intro avoids values
    simp only [Avoids, variableTokens, List.forall_mem_append] at avoids
    exact .bind (left avoids.1 values) fun _ => .bind (right avoids.2 values) fun _ => .refl _
  | cond c y n i j condition yes no =>
    intro avoids values
    simp only [Avoids, variableTokens, List.forall_mem_append] at avoids
    refine .bind (condition avoids.1 values) fun v => ?_
    split
    · exact yes avoids.2.1 values
    · exact no avoids.2.2 values
    · exact .refl _
  | letIn bs e bindings body =>
    intro avoids values
    simp only [Avoids, variableTokens, List.forall_mem_append] at avoids
    exact .bind (conserved_evalBindings bindings avoids.1) fun inner => body avoids.2 inner
  | var t =>
    intro avoids values
    have read : (Scoping.dynamic (functions.insert key d)).read values t =
        (Scoping.dynamic functions).read values t :=
      Valuation.read_insert values (avoids t List.mem_cons_self)
    rw [Scoping.evalWith, Scoping.evalWith, read]
    exact .refl _
  | function t ps e _ => exact fun _ _ => .refl _
  | call t es args =>
    intro avoids values
    simp only [Avoids, variableTokens] at avoids
    exact conserved_callWith params calls t es.length (conserved_evalArgs args avoids)

omit calls

theorem conserved_evalWithin (bodies : ∀ s ∈ functions.declarations, s.body.Avoids key.1)
    (n : Nat) (e : Expr) (avoids : e.Avoids key.1) :
    Passing.Unless (Error.IsUnmatchedCall key.1)
      ((Scoping.dynamic functions).evalWithin limit n depth e values)
      ((Scoping.dynamic (functions.insert key d)).evalWithin limit n depth e values) := by
  induction n generalizing depth e values with
  | zero => exact conserved_evalWith params (fun _ _ _ _ => .refl _) e avoids values
  | succ n ih =>
    exact conserved_evalWith params (fun s member _ _ => ih s.body (bodies s member)) e avoids values

theorem sameEnd_evalWithin {m grown : Machine} (table : m.environment.functions = functions)
    (shown : grown.Shows (functions.insert key d) m.calls.limit m.calls.depth m.environment.value?)
    (effects : grown.effects = m.effects)
    (bodies : ∀ s ∈ functions.declarations, s.body.Avoids key.1) (n : Nat) (e : Expr)
    (avoids : e.Avoids key.1)
    (matched : ∀ err, (e.evalWithin n m).1 = .error (.error err) →
      ¬ err.IsUnmatchedCall key.1) :
    SameEnd (e.evalWithin n grown) (e.evalWithin n m) := by
  have passed := implements_evalWithin n e m ⟨table, rfl, rfl, rfl⟩
  have passed' := implements_evalWithin n e grown shown
  rw [effects] at passed'
  rcases conserved_evalWithin params bodies n e avoids m.effects with ⟨err, ended, here⟩ | same
  · rw [passed] at ended
    exact absurd here (matched err ended)
  · rw [passed] at same
    exact Prod.mk.inj (passed'.symm.trans same.symm)

end Expr

end

/-- A declaration that is added to an environment changes no evaluation in which its name is no
variable, unless that came to a call of the name which no function took: the outcome, what is
printed and what is drawn stay the same, however deep calls are followed. -/
theorem registration_conservative {symbols : Symbols} {ops : List Environment.Operation}
    {d stored : Declaration} {after : Environment} {m : Machine} {e : Expr}
    (built : m.environment = (Environment.ofSymbols symbols).performAll ops)
    (registered : m.environment.register d = (.ok stored, after)) (plain : Plain d.name.lexeme)
    (unused : e.Avoids d.name.lexeme)
    (bodies : ∀ s ∈ m.environment.functions.declarations, s.body.Avoids d.name.lexeme) :
    ((∀ err, (Run.eval e m).1 = .error (.error err) → ¬ err.IsUnmatchedCall d.name.lexeme) →
        SameEnd (Run.eval e { m with environment := after }) (Run.eval e m)) ∧
      ∀ n, (∀ err, (e.evalWithin n m).1 = .error (.error err) →
          ¬ err.IsUnmatchedCall d.name.lexeme) →
        SameEnd (e.evalWithin n { m with environment := after }) (e.evalWithin n m) := by
  obtain ⟨_, renamer, _, rfl⟩ := Environment.register_eq_ok_iff.mp registered
  have tabled := (Environment.Tabled.ofSymbols symbols).performAll ops
  rw [← built] at tabled
  have params : ∀ s ∈ m.environment.functions.declarations, ∀ p ∈ s.params,
      p.lexeme ≠ d.name.lexeme := fun s member p here same =>
    tabled.not_plain (List.mem_flatMap.mpr ⟨s, member, here⟩) (same ▸ plain)
  -- an evaluation is followed as deep as there is room, which is one of all depths
  refine (and_iff_right_of_imp fun within => within m.calls.room).mpr fun n matched => ?_
  let more : Machine := { m with environment := { m.environment with
    functions := m.environment.functions.insert d.key stored, renamer } }
  have grown : more.Shows (m.environment.functions.insert d.key stored) m.calls.limit m.calls.depth
      m.environment.value? := ⟨rfl, rfl, rfl, rfl⟩
  exact Expr.sameEnd_evalWithin params rfl grown rfl bodies n e unused matched

/-- The new name is that of a parameter: `f(g) => g @ "!"` is stored, then `g(x) => x` is added. -/
theorem registration_conservative_parameter :
    let f : Declaration := ⟨⟨.identifier, "f", none, 9, 0⟩, [⟨.identifier, "g", none, 11, 1⟩],
      .binary .concat ⟨.atSign, "@", none, 19, 2⟩ (.var ⟨.identifier, "g", none, 17, 3⟩)
        (.literal (.string "!"))⟩
    let g : Declaration := ⟨⟨.identifier, "g", none, 34, 4⟩, [⟨.identifier, "x", none, 36, 5⟩],
      .var ⟨.identifier, "x", none, 42, 6⟩⟩
    let e : Expr := .call ⟨.identifier, "f", none, 45, 7⟩ [.literal (.string "a")]
    let m : Machine :=
      .ofSettings .testRun ((Environment.ofSymbols ⟨.initial, 8⟩).performAll [.register f]) []
    let after := m.environment.perform (.register g)
    (Run.eval e m).1 = .ok (.string "a!") ∧ after.isFunction "g" = true ∧
      SameEnd (Run.eval e { m with environment := after }) (Run.eval e m) := by
  intro f g e m after
  have value : (Run.eval e m).1 = .ok (.string "a!") := by decide +kernel
  have registered : m.environment.register g =
      (.ok (g.renamed m.environment.renamer), after) := rfl
  have unused : e.Avoids "g" := by decide
  have bodies : ∀ s ∈ m.environment.functions.declarations, s.body.Avoids "g" := by decide +kernel
  obtain ⟨same, _⟩ := registration_conservative rfl registered (by decide) unused bodies
  exact ⟨value, rfl, same fun err failed => nomatch value.symm.trans failed⟩

end LetLang
