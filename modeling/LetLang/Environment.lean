import LetLang.Builtin.Basic
import LetLang.Declaration.Hygiene
import LetLang.Functions
import LetLang.Stateful
import LetLang.Variables

/-!
# The environment

The active bindings, the registered declarations and the supply of fresh tokens.
-/

namespace LetLang

structure Environment where
  bindings : Variables
  functions : Functions
  renamer : Renamer

namespace Environment

def ofSymbols (symbols : Symbols) : Environment := ⟨.empty, .empty, ⟨0, symbols⟩⟩

def initial : Environment := ofSymbols .initial

def isFunction (env : Environment) (name : String) : Bool := env.functions.declares name

def declaration? (env : Environment) (name : String) (arity : Nat) : Option Declaration :=
  env.functions.find? name arity

def isFunctionWithArity (env : Environment) (name : String) (arity : Nat) : Bool :=
  (env.declaration? name arity).isSome

def isBuiltin (name : String) (arity : Nat) : Bool := (Builtin.lookup name arity).isSome

def arities (env : Environment) (name : String) : List Nat := env.functions.arities name

def functionCount (env : Environment) : Nat := env.functions.size

def declaration (env : Environment) (name : String) (arity : Nat) : Except Error Declaration :=
  match env.declaration? name arity with
  | some d => .ok d
  | none => .error (.unknownDeclaration name arity)

def parameters (env : Environment) (name : String) (arity : Nat) : Except Error (List Token) :=
  (env.declaration name arity).map Declaration.params

def body (env : Environment) (name : String) (arity : Nat) : Except Error Expr :=
  (env.declaration name arity).map Declaration.body

def refusal (env : Environment) (d : Declaration) : Option Error :=
  let name := d.name.lexeme
  if isBuiltin name d.arity then some (.builtinRedefinition name d.name.offset)
  else if env.isFunctionWithArity name d.arity then
    some (.functionRedeclaration name d.arity d.name.offset)
  else none

/-- Stores the declaration with fresh parameters, under the key that it was written with. A refused
one changes nothing; where the fresh names run out, what the renamer has done stays. -/
def register (env : Environment) (d : Declaration) : Except Failure Declaration × Environment :=
  match env.refusal d with
  | some e => (.error (.error e), env)
  | none =>
    match d.hygienic env.renamer with
    | (.ok stored, renamer) =>
      (.ok stored, { env with functions := env.functions.insert d.key stored, renamer })
    | (.error f, renamer) => (.error (.fault f), { env with renamer })

def value? (env : Environment) (name : String) : Option Value := env.bindings.value? name

def get (env : Environment) (t : Token) : Except Error Value :=
  if env.isFunction t.lexeme then .error (.missingCallParens t.lexeme t.offset)
  else
    match env.value? t.lexeme with
    | some v => .ok v
    | none => .error (.undeclaredVariable t.lexeme t.offset)

def set (env : Environment) (t : Token) (v : Value) : Except Error Unit × Environment :=
  if env.isFunction t.lexeme then (.error (.functionNameAsVariable t.lexeme t.offset), env)
  else (.ok (), { env with bindings := env.bindings.push t.lexeme v })

def bindingDepth (env : Environment) (name : String) : Nat := env.bindings.depth name

def remove (env : Environment) (t : Token) : Except Fault Unit × Environment :=
  match env.bindings.pop? t.lexeme with
  | some bindings => (.ok (), { env with bindings })
  | none => (.error (.unboundRemoval t.lexeme), env)

def isUnbound (env : Environment) : Bool := env.bindings.isEmpty

section

variable {env after : Environment} {d stored : Declaration}

theorem register_of_refused {e : Error} (refused : env.refusal d = some e) :
    env.register d = (.error (.error e), env) := by
  rw [register, refused]

theorem register_of_fault {f : Fault} {renamer : Renamer} (free : env.refusal d = none)
    (failed : d.hygienic env.renamer = (.error f, renamer)) :
    env.register d = (.error (.fault f), { env with renamer }) := by
  rw [register, free, failed]

theorem register_of_free {renamer : Renamer} (free : env.refusal d = none)
    (renamed : d.hygienic env.renamer = (.ok stored, renamer)) :
    env.register d =
      (.ok stored, { env with functions := env.functions.insert d.key stored, renamer }) := by
  rw [register, free, renamed]

theorem register_cases (env : Environment) (d : Declaration) :
    (∃ e, env.refusal d = some e ∧ env.register d = (.error (.error e), env)) ∨
    (∃ f renamer, env.refusal d = none ∧ d.hygienic env.renamer = (.error f, renamer) ∧
      env.register d = (.error (.fault f), { env with renamer })) ∨
    (∃ stored renamer, env.refusal d = none ∧ d.hygienic env.renamer = (.ok stored, renamer) ∧
      env.register d =
        (.ok stored, { env with functions := env.functions.insert d.key stored, renamer })) := by
  cases refused : env.refusal d with
  | some e => exact .inl ⟨e, rfl, register_of_refused refused⟩
  | none =>
    rcases renamed : d.hygienic env.renamer with ⟨outcome, renamer⟩
    cases outcome with
    | error f => exact .inr (.inl ⟨f, renamer, rfl, rfl, register_of_fault refused renamed⟩)
    | ok stored => exact .inr (.inr ⟨stored, renamer, rfl, rfl, register_of_free refused renamed⟩)

theorem register_eq_ok_iff :
    env.register d = (.ok stored, after) ↔ env.refusal d = none ∧
      ∃ renamer, d.hygienic env.renamer = (.ok stored, renamer) ∧
        after = { env with functions := env.functions.insert d.key stored, renamer } := by
  constructor
  · intro registered
    rcases env.register_cases d with ⟨e, _, same⟩ | ⟨f, r, _, _, same⟩ | ⟨s, r, free, renamed, same⟩
    · cases same.symm.trans registered
    · cases same.symm.trans registered
    · cases same.symm.trans registered
      exact ⟨free, r, renamed, rfl⟩
  · rintro ⟨free, renamer, renamed, rfl⟩
    exact register_of_free free renamed

theorem register_eq_error_iff {e : Error} :
    env.register d = (.error (.error e), after) ↔ env.refusal d = some e ∧ after = env := by
  constructor
  · intro failed
    rcases env.register_cases d with ⟨e', refused, same⟩ | ⟨f, r, _, _, same⟩ | ⟨s, r, _, _, same⟩
    · cases same.symm.trans failed
      exact ⟨refused, rfl⟩
    · cases same.symm.trans failed
    · cases same.symm.trans failed
  · rintro ⟨refused, rfl⟩
    exact register_of_refused refused

end

theorem refusal_eq_none_iff {env : Environment} {d : Declaration} : env.refusal d = none ↔
    isBuiltin d.name.lexeme d.arity = false ∧ env.functions.find? d.name.lexeme d.arity = none := by
  have known : env.isFunctionWithArity d.name.lexeme d.arity = false ↔
      env.functions.find? d.name.lexeme d.arity = none := by
    rw [isFunctionWithArity, declaration?, Option.isSome_eq_false_iff, Option.isNone_iff_eq_none]
  rw [← known, refusal]
  by_cases own : isBuiltin d.name.lexeme d.arity = true
  · simp [own]
  · cases env.isFunctionWithArity d.name.lexeme d.arity <;> simp [own]

theorem set_of_free {env : Environment} {t : Token} (free : env.isFunction t.lexeme = false)
    (v : Value) :
    env.set t v = (.ok (), { env with bindings := env.bindings.push t.lexeme v }) := by
  simp [set, free]

theorem set_of_declared {env : Environment} {t : Token} (declared : env.isFunction t.lexeme = true)
    (v : Value) :
    env.set t v = (.error (.functionNameAsVariable t.lexeme t.offset), env) := by
  simp [set, declared]

theorem set_eq_ok_iff {env after : Environment} {t : Token} {v : Value} :
    env.set t v = (.ok (), after) ↔
      env.isFunction t.lexeme = false ∧
        after = { env with bindings := env.bindings.push t.lexeme v } := by
  cases declared : env.isFunction t.lexeme with
  | true => simp [set_of_declared declared]
  | false => simp [set_of_free declared, eq_comm (b := after)]

theorem set_error {env after : Environment} {t : Token} {v : Value} {e : Error}
    (failed : env.set t v = (.error e, after)) : after = env := by
  cases declared : env.isFunction t.lexeme with
  | true =>
    rw [set_of_declared declared] at failed
    exact (Prod.mk.inj failed).2.symm
  | false =>
    rw [set_of_free declared] at failed
    cases failed

theorem remove_of_bound {env : Environment} {t : Token} {bindings : Variables}
    (popped : env.bindings.pop? t.lexeme = some bindings) :
    env.remove t = (.ok (), { env with bindings }) := by
  rw [remove, popped]

theorem remove_of_unbound {env : Environment} {t : Token}
    (unbound : env.bindings.pop? t.lexeme = none) :
    env.remove t = (.error (.unboundRemoval t.lexeme), env) := by
  rw [remove, unbound]

theorem remove_set {env after : Environment} {t : Token} {v : Value}
    (h : env.set t v = (.ok (), after)) : after.remove t = (.ok (), env) := by
  obtain ⟨_, rfl⟩ := set_eq_ok_iff.mp h
  exact remove_of_bound (Variables.pop?_push _ _ _)

theorem pop?_eq_none_iff_bindingDepth {env : Environment} {name : String} :
    env.bindings.pop? name = none ↔ env.bindingDepth name = 0 := by
  rw [Variables.pop?_eq_none_iff]
  unfold bindingDepth Variables.depth
  cases env.bindings.stack? name <;> simp [Stack.size]

theorem remove_eq_error_iff {env after : Environment} {t : Token} {f : Fault} :
    env.remove t = (.error f, after) ↔
      env.bindingDepth t.lexeme = 0 ∧ f = .unboundRemoval t.lexeme ∧ after = env := by
  rw [← pop?_eq_none_iff_bindingDepth]
  cases popped : env.bindings.pop? t.lexeme with
  | some bindings => simp [remove_of_bound popped]
  | none => simp [remove_of_unbound popped, eq_comm (b := f), eq_comm (b := after)]

end Environment

end LetLang
