import LetLang.Proofs.FunctionTable

/-!
# Calls that no function takes

A call that neither a built-in nor a declared function takes fails before any of its arguments is
evaluated. Its error lists the declared functions of the name, and leaves out a built-in one.
-/

namespace LetLang

/-- The error of a call with `given` arguments tells all numbers of arguments that satisfy `takes`:
the name is not declared if there is none, and otherwise they are listed, ascending. -/
structure Error.ListsAll (takes : Nat → Prop) (t : Token) (given : Nat) (e : Error) : Prop where
  undefined : e = .undefinedFunction t.lexeme t.offset ↔ ∀ n, ¬ takes n
  available : (∃ n, takes n) → ∃ available, e = .noMatchingOverload t.lexeme given available t.offset ∧
    available.Pairwise (· < ·) ∧ ∀ n, n ∈ available ↔ takes n

theorem Functions.callError_cases (fs : Functions) (name : String) (given : Nat) (offset : UInt32) :
    fs.arities name = [] ∧ fs.callError name given offset = .undefinedFunction name offset ∨
      fs.arities name ≠ [] ∧ fs.callError name given offset =
        .noMatchingOverload name given (fs.arities name) offset := by
  unfold callError
  split
  next none => exact .inl ⟨none, rfl⟩
  next some => exact .inr ⟨some, rfl⟩

namespace Expr

variable {t : Token} {es : List Expr} {m : Machine}

theorem evalWith_call_of_unmatched (callee : Expr → Run Value)
    (unreserved : Builtin.lookup t.lexeme es.length = none)
    (undeclared : m.environment.declaration? t.lexeme es.length = none) :
    evalWith callee (.call t es) m =
      (.error (.error (m.environment.functions.callError t.lexeme es.length t.offset)),
        (m.note (.beginCall t.lexeme es.length)).note .endCall) := by
  have opened : Run.emit (.beginCall t.lexeme es.length) m =
    (.ok (), m.note (.beginCall t.lexeme es.length)) := rfl
  have known : Run.environment (m.note (.beginCall t.lexeme es.length)) =
    (.ok m.environment, m.note (.beginCall t.lexeme es.length)) := rfl
  have refused : callWith callee t es.length (evalArgs callee es)
      (m.note (.beginCall t.lexeme es.length)) =
        (.error (.error (m.environment.functions.callError t.lexeme es.length t.offset)),
          m.note (.beginCall t.lexeme es.length)) := by
    unfold callWith
    rw [unreserved]
    dsimp only
    rw [Stateful.bind_ok known, undeclared]
    rfl
  unfold evalWith Run.withSpan
  rw [Stateful.bind_ok opened]
  simp only [Stateful.guarded, refused]
  rfl

theorem evalWithin_call_of_unmatched (n : Nat)
    (unreserved : Builtin.lookup t.lexeme es.length = none)
    (undeclared : m.environment.declaration? t.lexeme es.length = none) :
    evalWithin n (.call t es) m =
      (.error (.error (m.environment.functions.callError t.lexeme es.length t.offset)),
        (m.note (.beginCall t.lexeme es.length)).note .endCall) := by
  cases n with
  | zero => exact evalWith_call_of_unmatched _ unreserved undeclared
  | succ n => exact evalWith_call_of_unmatched _ unreserved undeclared

end Expr

namespace Environment

variable {env : Environment} {sources : List Declaration} {t : Token} {given : Nat}

def Callable (env : Environment) (name : String) (given : Nat) : Prop :=
  isBuiltin name given = true ∨ env.isFunctionWithArity name given = true

theorem not_callable_iff {name : String} : ¬ env.Callable name given ↔
    Builtin.lookup name given = none ∧ env.declaration? name given = none := by
  unfold Callable isBuiltin isFunctionWithArity
  rw [not_or, Bool.not_eq_true, Bool.not_eq_true, Option.isSome_eq_false_iff,
    Option.isSome_eq_false_iff, Option.isNone_iff_eq_none, Option.isNone_iff_eq_none]

theorem mem_arities_iff {name : String} {arity : Nat} :
    arity ∈ env.functions.arities name ↔ env.isFunctionWithArity name arity = true := by
  rw [Functions.mem_arities_iff, isFunctionWithArity, Option.isSome_iff_ne_none, ne_eq, declaration?,
    Functions.find?_eq_none_iff, not_not]

namespace Tabled

theorem listsAll_declared (tabled : env.Tabled sources) (t : Token) (given : Nat) :
    (env.functions.callError t.lexeme given t.offset).ListsAll
      (fun n => env.isFunctionWithArity t.lexeme n = true) t given := by
  rcases env.functions.callError_cases t.lexeme given t.offset with ⟨nothing, error⟩ | ⟨some, error⟩
  · have undeclared : ∀ n, ¬ env.isFunctionWithArity t.lexeme n = true := by
      intro n declared
      rw [← mem_arities_iff, nothing] at declared
      cases declared
    exact ⟨iff_of_true error undeclared, fun ⟨n, declared⟩ => absurd declared (undeclared n)⟩
  · obtain ⟨n, member⟩ := List.exists_mem_of_ne_nil _ some
    have declared := mem_arities_iff.mp member
    refine ⟨iff_of_false ?_ fun undeclared => undeclared n declared, fun _ => ?_⟩
    · rw [error]
      exact fun same => nomatch congrArg Error.cause same
    · exact ⟨_, error, Functions.pairwise_arities tabled.distinct t.lexeme, fun _ => mem_arities_iff⟩

theorem listsAll_callable_iff (tabled : env.Tabled sources) (t : Token) (given : Nat) :
    (env.functions.callError t.lexeme given t.offset).ListsAll (env.Callable t.lexeme) t given ↔
      ∀ n, isBuiltin t.lexeme n = false := by
  have declared := tabled.listsAll_declared t given
  constructor
  · intro lists n
    refine Bool.eq_false_iff.mpr fun reserved => ?_
    -- the list would have the reserved number, but it has declared ones only
    obtain ⟨available, error, _, all⟩ := lists.available ⟨n, .inl reserved⟩
    have listed : n ∈ available := (all n).mpr (.inl reserved)
    have some : ∃ k, env.isFunctionWithArity t.lexeme k = true := by
      refine Classical.not_forall_not.mp fun none => ?_
      rw [declared.undefined.mpr none] at error
      exact nomatch congrArg Error.cause error
    obtain ⟨own, same, _, exact'⟩ := declared.available some
    obtain rfl : available = own := by
      have causes := congrArg Error.cause (error.symm.trans same)
      exact (Cause.noMatchingOverload.inj causes).2.2
    have free := tabled.reserved_of_declared ((exact' n).mp listed)
    rw [reserved] at free
    cases free
  · intro unreserved
    have same : env.Callable t.lexeme = fun n => env.isFunctionWithArity t.lexeme n = true := by
      funext n
      simp [Callable, unreserved n]
    rw [same]
    exact declared

end Tabled

/-- A call that no function takes fails at its place, and of its arguments nothing is seen. The error
lists the declared functions of the name, and it lists all that can be called exactly if no built-in
function has the name. -/
theorem failed_call_lists_declared (symbols : Symbols) (ops : List Operation) (t : Token)
    (es : List Expr) {m : Machine} (reached : m.environment = (ofSymbols symbols).performAll ops)
    (unmatched : ¬ m.environment.Callable t.lexeme es.length) (n : Nat) :
    ∃ e, (Expr.call t es).evalWithin n m =
        (.error (.error e), (m.note (.beginCall t.lexeme es.length)).note .endCall) ∧
      e.offset = some t.offset ∧
      e.ListsAll (fun k => m.environment.isFunctionWithArity t.lexeme k = true) t es.length ∧
      (e.ListsAll (m.environment.Callable t.lexeme) t es.length ↔
        ∀ k, isBuiltin t.lexeme k = false) := by
  have tabled := (Tabled.ofSymbols symbols).performAll ops
  rw [← reached] at tabled
  obtain ⟨unreserved, undeclared⟩ := not_callable_iff.mp unmatched
  refine ⟨_, Expr.evalWithin_call_of_unmatched n unreserved undeclared, ?_,
    tabled.listsAll_declared t es.length, tabled.listsAll_callable_iff t es.length⟩
  rcases m.environment.functions.callError_cases t.lexeme es.length t.offset with
    ⟨_, error⟩ | ⟨_, error⟩
  · rw [error]
    rfl
  · rw [error]
    rfl

/-- `log` takes two arguments as a built-in function, and is declared with three and with one. -/
theorem failed_call_lists_declared_mixed :
    let p (name : String) (site : UInt32) : Token := ⟨.identifier, name, none, 0, site⟩
    let three : Declaration := ⟨p "log" 0, [p "a" 1, p "b" 2, p "c" 3], .var (p "a" 4)⟩
    let one : Declaration := ⟨p "log" 5, [p "a" 6], .var (p "a" 7)⟩
    let env := (ofSymbols ⟨.initial, 8⟩).performAll [.register three, .register one]
    let m : Machine := .ofSettings .testRun env []
    ¬ env.Callable "log" 0 ∧ env.Callable "log" 1 ∧ env.Callable "log" 2 ∧ env.Callable "log" 3 ∧
      ∃ e, ((Expr.call (p "log" 8) []).evalWithin 0 m).1 = .error (.error e) ∧
        e.ListsAll (fun k => env.isFunctionWithArity "log" k = true) (p "log" 8) 0 ∧
        ¬ e.ListsAll (env.Callable "log") (p "log" 8) 0 := by
  intro p three one env m
  have reached : m.environment = env := Machine.environment_ofSettings _ _ _
  have unmatched : ¬ m.environment.Callable "log" 0 := by
    rw [reached]
    exact not_callable_iff.mpr ⟨rfl, by decide +kernel⟩
  obtain ⟨e, failed, _, declared, all⟩ := failed_call_lists_declared ⟨.initial, 8⟩
    [.register three, .register one] (p "log" 8) [] reached unmatched 0
  rw [reached] at unmatched declared all
  refine ⟨unmatched, .inr (by decide +kernel), .inl rfl, .inr (by decide +kernel), e,
    congrArg Prod.fst failed, declared, ?_⟩
  intro lists
  exact Bool.false_ne_true ((all.mp lists 2).symm.trans rfl)

/-- `log` is called with one argument while nothing is declared. -/
theorem failed_call_omits_builtin : ¬ ∀ (ops : List Operation) (t : Token) (es : List Expr)
    (m : Machine) (n : Nat), m.environment = initial.performAll ops →
      ¬ m.environment.Callable t.lexeme es.length →
        ∃ e, ((Expr.call t es).evalWithin n m).1 = .error (.error e) ∧
          e.ListsAll (m.environment.Callable t.lexeme) t es.length := by
  intro all
  let t : Token := ⟨.identifier, "log", none, 0, 0⟩
  let m : Machine := .ofSettings .testRun initial []
  have unmatched : ¬ initial.Callable "log" 1 := not_callable_iff.mpr ⟨rfl, rfl⟩
  obtain ⟨e, failed, lists⟩ := all [] t [.literal (.boolean true)] m 0 rfl unmatched
  obtain ⟨available, listed, _⟩ := lists.available ⟨2, .inl rfl⟩
  have nothing : initial.functions.arities "log" = [] := List.mergeSort_nil
  have undefined : ((Expr.call t [.literal (.boolean true)]).evalWithin 0 m).1 =
      .error (.error (.undefinedFunction "log" 0)) := by
    rw [Expr.evalWithin_call_of_unmatched 0 rfl rfl]
    change Except.error (Failure.error (initial.functions.callError "log" 1 0)) = _
    rw [Functions.callError, nothing]
  obtain rfl := Failure.error.inj (Except.error.inj (undefined.symm.trans failed))
  cases congrArg Error.cause listed

end Environment

end LetLang
