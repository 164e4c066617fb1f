import LetLang.Proofs.FunctionTable

/-!
# Registering declarations

A refused registration leaves everything as it was. An accepted one adds an entry to the table and
takes a fresh name for each parameter. So the table tells which registrations were accepted, and
each entry stays what its registration made it.
-/

namespace LetLang

namespace Environment

variable {env after : Environment} {d stored : Declaration} {name : String} {arity : Nat}

structure Adds (env : Environment) (d stored : Declaration) (after : Environment) : Prop where
  entry : (d.hygienic env.renamer).1 = .ok stored
  names : stored.params.map Token.lexeme =
    (d.params.zipIdx env.renamer.issued.toNat).map fun (p, n) => Renamer.freshLexeme p.lexeme n
  bindings : after.bindings = env.bindings
  functions : after.functions.entries =
    env.functions.entries ++ [((d.name.lexeme, d.arity), stored)]
  issued : after.renamer.issued.toNat = env.renamer.issued.toNat + d.arity
  interned : after.renamer.symbols.names =
    env.renamer.symbols.names.internAll (stored.params.map Token.lexeme)
  nextSite : after.renamer.symbols.nextSite = env.renamer.symbols.nextSite + .ofNat d.arity

theorem adds_of_register (done : (env.register d).1 = .ok stored) :
    env.Adds d stored (env.register d).2 := by
  obtain ⟨rfl, stores⟩ := stores_of_register done
  obtain ⟨_, _, made, _⟩ := register_eq_ok_iff.mp (Prod.ext done rfl)
  exact {
    entry := congrArg Prod.fst made
    names := Renamer.lexemes_freshTokens env.renamer d.params
    bindings := bindings_perform_register env d
    functions := congrArg Functions.entries stores.functions
    issued := stores.renamer ▸ Renamer.issued_nextAll stores.room.counter
    interned := stores.renamer ▸ Renamer.names_nextAll stores.room.counter
    nextSite := stores.renamer ▸ Renamer.nextSite_nextAll env.renamer d.params }

/-- How a registration ends, and what it changes. -/
structure Registers (env : Environment) (d : Declaration) : Prop where
  builtin : (env.register d).1 =
      .error (.error (.builtinRedefinition d.name.lexeme d.name.offset)) ↔
    isBuiltin d.name.lexeme d.arity = true
  known : (env.register d).1 =
      .error (.error (.functionRedeclaration d.name.lexeme d.arity d.name.offset)) ↔
    env.isFunctionWithArity d.name.lexeme d.arity = true
  accepted : (∃ stored, (env.register d).1 = .ok stored) ↔
    (isBuiltin d.name.lexeme d.arity = false ∧
      env.isFunctionWithArity d.name.lexeme d.arity = false) ∧ env.renamer.HasRoom d.params
  /-- Counter and interner have 32 bits. -/
  overflows : (∃ f, (env.register d).1 = .error (.fault f)) ↔
    (isBuiltin d.name.lexeme d.arity = false ∧
      env.isFunctionWithArity d.name.lexeme d.arity = false) ∧ ¬ env.renamer.HasRoom d.params
  room : env.renamer.issued.toNat + d.arity < UInt32.size →
    env.renamer.symbols.names.size + d.arity ≤ UInt32.size → env.renamer.HasRoom d.params
  refused : ∀ e, (env.register d).1 = .error (.error e) → (env.register d).2 = env ∧
    ∀ m : Machine, m.environment = env → Run.register d m = (.error (.error e), m)
  overflown : ∀ f, (env.register d).1 = .error (.fault f) →
    (env.register d).2.bindings = env.bindings ∧ (env.register d).2.functions = env.functions
  done : ∀ stored, (env.register d).1 = .ok stored → env.Adds d stored (env.register d).2

theorem refusal_eq_none_iff_undeclared : env.refusal d = none ↔
    isBuiltin d.name.lexeme d.arity = false ∧
      env.isFunctionWithArity d.name.lexeme d.arity = false := by
  rw [refusal_eq_none_iff, isFunctionWithArity, declaration?, Option.isSome_eq_false_iff,
    Option.isNone_iff_eq_none]

theorem register_fst_eq_error_iff {e : Error} :
    (env.register d).1 = .error (.error e) ↔ env.refusal d = some e := by
  refine ⟨fun failed => (register_eq_error_iff.mp (Prod.ext failed rfl)).1, fun refused => ?_⟩
  rw [register_of_refused refused]

theorem registers (reserved : ∀ name arity, env.isFunctionWithArity name arity = true →
    isBuiltin name arity = false) (d : Declaration) : env.Registers d where
  builtin := by
    rw [register_fst_eq_error_iff, refusal]
    by_cases own : isBuiltin d.name.lexeme d.arity = true
    · simp [own]
    · cases env.isFunctionWithArity d.name.lexeme d.arity <;>
        simp [own, Error.functionRedeclaration, Error.builtinRedefinition]
  known := by
    rw [register_fst_eq_error_iff, refusal]
    cases stored : env.isFunctionWithArity d.name.lexeme d.arity with
    | true => simp [reserved _ _ stored]
    | false =>
      cases isBuiltin d.name.lexeme d.arity <;>
        simp [Error.functionRedeclaration, Error.builtinRedefinition]
  accepted := by
    rw [← refusal_eq_none_iff_undeclared]
    constructor
    · rintro ⟨stored, done⟩
      have stores := (stores_of_register done).2
      exact ⟨stores.free, stores.room⟩
    · rintro ⟨free, room⟩
      exact ⟨d.renamed env.renamer, by rw [register_of_room free room]⟩
  overflows := by
    rw [← refusal_eq_none_iff_undeclared]
    rcases env.register_cases d with ⟨e, refused, same⟩ | ⟨f, r, free, full, same⟩ |
      ⟨stored, r, free, made, same⟩
    · simp [same, refused]
    · simp [same, free, Declaration.not_hasRoom_of_hygienic full]
    · simp [same, (Declaration.hygienic_eq_ok_iff.mp made).1]
  room counter names := Renamer.hasRoom_of_le counter names
  refused e failed := by
    have same : env.register d = (.error (.error e), env) :=
      register_of_refused (register_fst_eq_error_iff.mp failed)
    refine ⟨congrArg Prod.snd same, ?_⟩
    rintro m rfl
    simp only [Run.register, same]
  overflown f failed :=
    ⟨bindings_perform_register env d, functions_perform_register_of_error failed⟩
  done _ := adds_of_register

/-! ### A history of registrations -/

def StoredBy (env : Environment) (ops : List Operation) (name : String) (arity : Nat)
    (stored : Declaration) : Prop :=
  ∃ past d later, ops = past ++ .register d :: later ∧ d.key = (name, arity) ∧
    ((env.performAll past).register d).1 = .ok stored

theorem StoredBy.cons {op : Operation} {ops : List Operation}
    (later : (env.perform op).StoredBy ops name arity d) :
    env.StoredBy (op :: ops) name arity d := by
  obtain ⟨past, source, rest, rfl, key, registered⟩ := later
  exact ⟨op :: past, source, rest, rfl, key, registered⟩

theorem Tabled.keys {sources : List Declaration} (tabled : env.Tabled sources) :
    env.functions.keys = sources.map Declaration.key :=
  tabled.derived.keys.trans (Functions.keys_ofDeclarations sources)

end Environment

end LetLang
