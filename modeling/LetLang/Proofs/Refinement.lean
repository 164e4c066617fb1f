import LetLang.Proofs.Passing
import LetLang.Proofs.Restoration

/-!
# The machine and passing evaluation

The machine keeps one table of stacks that scopes push to and pop from. What an evaluation gives and
does is what evaluation that passes a map from names to values gives and does.
-/

namespace LetLang

variable {α β : Type}

def Machine.effects (m : Machine) : Effects := ⟨m.generator, m.console⟩

structure Machine.Shows (functions : Functions) (limit : Option Nat) (depth : Nat)
    (values : Valuation) (m : Machine) : Prop where
  functions : m.environment.functions = functions
  limit : m.calls.limit = limit
  depth : m.calls.depth = depth
  values : m.environment.value? = values

section

variable {functions : Functions} {limit : Option Nat} {depth : Nat} {values : Valuation}

theorem Machine.Shows.of_restored {m after : Machine} (shown : m.Shows functions limit depth values)
    (environment : after.environment = m.environment) (calls : after.calls = m.calls) :
    after.Shows functions limit depth values := by
  obtain ⟨rfl, rfl, rfl, rfl⟩ := shown
  exact ⟨by rw [environment], by rw [calls], by rw [calls], by rw [environment]⟩

/-- On machines of a view, `act` ends as `pass` does and has the same effects. -/
def Run.Implements (view : Machine → Prop) (act : Run α) (pass : Passing α) : Prop :=
  ∀ m, view m → pass m.effects = ((act m).1, (act m).2.effects)

namespace Run.Implements

theorem done {view : Machine → Prop} (a : α) :
    Run.Implements view (Stateful.done a) (Stateful.done a) := fun _ _ => rfl

theorem fail {view : Machine → Prop} (f : Failure) :
    Run.Implements view (Stateful.fail (α := α) f) (Stateful.fail f) := fun _ _ => rfl

theorem ofExcept {view : Machine → Prop} (r : Except Error α) :
    Run.Implements view (Stateful.ofExcept r) (Stateful.ofExcept r) := by
  cases r with
  | ok a => exact done a
  | error e => exact fail (.error e)

theorem bind {act : Run α} {pass : Passing α} {next : α → Run β} {passNext : α → Passing β}
    (restores : act.Restores)
    (first : Run.Implements (Machine.Shows functions limit depth values) act pass)
    (rest : ∀ a, Run.Implements (Machine.Shows functions limit depth values) (next a) (passNext a)) :
    Run.Implements (Machine.Shows functions limit depth values) (act >>= next) (pass >>= passNext) := by
  intro m shown
  rcases called : act m with ⟨result, middle⟩
  obtain ⟨environment, calls, _⟩ := restores m result middle called
  have passed := first m shown
  rw [called] at passed
  cases result with
  | ok a =>
    rw [Stateful.bind_ok called, Stateful.bind_ok passed]
    exact rest a middle (shown.of_restored environment calls)
  | error f => rw [Stateful.bind_error called, Stateful.bind_error passed]

theorem builtin {view : Machine → Prop} (b : Builtin) (args : List Value) (offset : UInt32) :
    Run.Implements view (Run.builtin b args offset) (Passing.builtin b args offset) :=
  fun _ _ => rfl

theorem withSpan {first last : Event} {act : Run α} {pass : Passing α}
    (inner : Run.Implements (Machine.Shows functions limit depth values) act pass) :
    Run.Implements (Machine.Shows functions limit depth values) (Run.withSpan first last act) pass := by
  intro m shown
  have opened : Run.emit first m = (.ok (), { m with trace := first :: m.trace }) := rfl
  rw [Run.withSpan, Stateful.bind_ok opened]
  exact inner { m with trace := first :: m.trace } (shown.of_restored rfl rfl)

theorem environment {next : Environment → Run α} {pass : Passing α}
    (rest : ∀ env, env.functions = functions → env.value? = values →
      Run.Implements (Machine.Shows functions limit depth values) (next env) pass) :
    Run.Implements (Machine.Shows functions limit depth values) (Run.environment >>= next) pass :=
  fun m shown => rest m.environment shown.functions shown.values m shown

end Run.Implements

/-- On machines of a view, `act` binds what `pass` adds to the map, or fails as `pass` does. -/
def Scoped.Extends (functions : Functions) (limit : Option Nat) (depth : Nat) (values : Valuation)
    (act : Scoped Unit) (pass : Passing Valuation) : Prop :=
  ∀ g m outcome g' after, m.Shows functions limit depth values →
    act (g, m) = (outcome, g', after) →
    (∃ inner, outcome = .ok () ∧ pass m.effects = (.ok inner, after.effects) ∧
      after.Shows functions limit depth inner) ∨
    ∃ f, outcome = .error f ∧ pass m.effects = (.error f, after.effects)

namespace Scoped.Extends

theorem done : Scoped.Extends functions limit depth values (Stateful.done ()) (Stateful.done values) := by
  rintro g m outcome g' after shown ⟨⟩
  exact .inl ⟨values, rfl, rfl, shown⟩

theorem bindVariable (t : Token) (v : Value) :
    Scoped.Extends functions limit depth values (Scoped.bindVariable t v)
      (Stateful.ofExcept (Valuation.bind functions values t v)) := by
  intro g m outcome g' after shown h
  obtain ⟨rfl, rfl, rfl, rfl⟩ := shown
  by_cases declared : m.environment.functions.declares t.lexeme = true
  · simp only [Scoped.bindVariable, Run.bindVariable, Environment.set, Environment.isFunction,
      declared, if_true] at h
    cases h
    refine .inr ⟨_, rfl, ?_⟩
    simp only [Valuation.bind, declared, if_true]
    rfl
  · simp only [Scoped.bindVariable, Run.bindVariable, Environment.set, Environment.isFunction,
      declared] at h
    cases h
    refine .inl ⟨Valuation.set m.environment.value? t.lexeme v, rfl, ?_, rfl, rfl, rfl, ?_⟩
    · simp only [Valuation.bind, declared]
      rfl
    · funext name
      exact Variables.value?_push _ _ _ _

theorem bind {act next : Scoped Unit} {pass : Passing Valuation}
    {passNext : Valuation → Passing Valuation}
    (first : Scoped.Extends functions limit depth values act pass)
    (rest : ∀ inner, Scoped.Extends functions limit depth inner next (passNext inner)) :
    Scoped.Extends functions limit depth values (do act; next) (pass >>= passNext) := by
  intro g m outcome g' after shown h
  rcases called : act (g, m) with ⟨result, g₁, middle⟩
  rcases first g m result g₁ middle shown called with ⟨inner, rfl, passed, shown'⟩ | ⟨f, rfl, passed⟩
  · rw [Stateful.bind_ok called] at h
    rw [Stateful.bind_ok passed]
    exact rest inner g₁ middle outcome g' after shown' h
  · rw [Stateful.bind_error called] at h
    obtain ⟨rfl, same⟩ := Prod.mk.inj h
    obtain ⟨rfl, rfl⟩ := Prod.mk.inj same
    exact .inr ⟨f, rfl, by rw [Stateful.bind_error passed]⟩

theorem lift_bind {act : Run Value} {next : Value → Scoped Unit} {pass : Passing Value}
    {passNext : Value → Passing Valuation} (restores : act.Restores)
    (first : Run.Implements (Machine.Shows functions limit depth values) act pass)
    (rest : ∀ v, Scoped.Extends functions limit depth values (next v) (passNext v)) :
    Scoped.Extends functions limit depth values (Scoped.lift act >>= next) (pass >>= passNext) := by
  intro g m outcome g' after shown h
  rcases called : act m with ⟨result, middle⟩
  obtain ⟨environment, calls, _⟩ := restores m result middle called
  have passed := first m shown
  rw [called] at passed
  have lifted : Scoped.lift act (g, m) = (result, g, middle) := by simp [Scoped.lift, called]
  cases result with
  | ok v =>
    rw [Stateful.bind_ok lifted] at h
    rw [Stateful.bind_ok passed]
    exact rest v g middle outcome g' after (shown.of_restored environment calls) h
  | error f =>
    rw [Stateful.bind_error lifted] at h
    obtain ⟨rfl, same⟩ := Prod.mk.inj h
    obtain ⟨rfl, rfl⟩ := Prod.mk.inj same
    exact .inr ⟨f, rfl, by rw [Stateful.bind_error passed]⟩

theorem bindAll (bindings : List (Token × Value)) :
    Scoped.Extends functions limit depth values (Scoped.bindAll bindings)
      (Stateful.ofExcept (Valuation.bindAll functions values bindings)) := by
  induction bindings generalizing values with
  | nil => exact done
  | cons binding rest ih =>
    have split : Stateful.ofExcept (Valuation.bindAll functions values (binding :: rest)) =
        (Stateful.ofExcept (Valuation.bind functions values binding.1 binding.2) >>= fun inner =>
          Stateful.ofExcept (Valuation.bindAll functions inner rest) : Passing Valuation) := by
      obtain ⟨t, v⟩ := binding
      simp only [Valuation.bindAll]
      cases Valuation.bind functions values t v <;> rfl
    rw [split]
    exact bind (bindVariable _ _) fun inner => ih

theorem body {act : Scoped Unit} {pass : Passing Valuation} {body : Run α}
    {passBody : Valuation → Passing α}
    (opening : Scoped.Extends functions limit depth values act pass)
    (inner : ∀ inner, Run.Implements (Machine.Shows functions limit depth inner) body (passBody inner))
    {g g' : Guard} {m after : Machine} {outcome : Except Failure α}
    (shown : m.Shows functions limit depth values)
    (h : (do act; Scoped.lift body : Scoped α) (g, m) = (outcome, g', after)) :
    (pass >>= passBody) m.effects = (outcome, after.effects) := by
  rcases called : act (g, m) with ⟨result, g₁, middle⟩
  rcases opening g m result g₁ middle shown called with ⟨values', rfl, passed, shown'⟩ | ⟨f, rfl, passed⟩
  · rw [Stateful.bind_ok called] at h
    simp only [Scoped.lift] at h
    obtain ⟨rfl, same⟩ := Prod.mk.inj h
    obtain ⟨rfl, rfl⟩ := Prod.mk.inj same
    rw [Stateful.bind_ok passed]
    exact inner values' middle shown'
  · rw [Stateful.bind_error called] at h
    obtain ⟨rfl, same⟩ := Prod.mk.inj h
    obtain ⟨rfl, rfl⟩ := Prod.mk.inj same
    rw [Stateful.bind_error passed]

end Scoped.Extends

theorem CallStack.push_eq (s : CallStack) (f : Frame) :
    s.push f = (Scoping.checkDepth s.limit s.depth f.offset).map
      fun _ => { s with frames := f :: s.frames } := by
  unfold CallStack.push Scoping.checkDepth
  cases s.limit with
  | some limit => by_cases full : limit ≤ s.depth <;> simp [full, Except.map]
  | none => rfl

theorem Run.Implements.inCall {f : Frame} {act : Scoped Unit}
    {opening : Except Error Valuation} {body : Run α} {passBody : Valuation → Passing α}
    (undoable : act.Undoable) (restores : body.Restores)
    (opens : Scoped.Extends functions limit (depth + 1) values act (Stateful.ofExcept opening))
    (inner : ∀ inner,
      Run.Implements (Machine.Shows functions limit (depth + 1) inner) body (passBody inner)) :
    Run.Implements (Machine.Shows functions limit depth values)
      (Run.inCall f (do act; Scoped.lift body))
      (do
        Stateful.ofExcept (Scoping.checkDepth limit depth f.offset)
        let inner ← Stateful.ofExcept opening
        passBody inner) := by
  intro m shown
  have same : Scoping.checkDepth m.calls.limit m.calls.depth f.offset =
      Scoping.checkDepth limit depth f.offset := by rw [shown.limit, shown.depth]
  have pushed := m.calls.push_eq f
  rw [same] at pushed
  cases checked : Scoping.checkDepth limit depth f.offset with
  | error e =>
    rw [checked] at pushed
    rw [Run.inCall_of_refused pushed]
    rfl
  | ok =>
    rw [checked] at pushed
    have deeper : Machine.Shows functions limit (depth + 1) values
        { m with calls := { m.calls with frames := f :: m.calls.frames } } :=
      ⟨shown.functions, shown.limit, congrArg Nat.succ shown.depth, shown.values⟩
    rcases called : (do act; Scoped.lift body : Scoped α)
      (⟨[], true⟩, { m with calls := { m.calls with frames := f :: m.calls.frames } })
      with ⟨result, g, middle⟩
    have whole : Scoped.Undoable (do act; Scoped.lift body) := .bind undoable fun _ => .lift restores
    obtain ⟨trace, closed⟩ := Run.inCall_of_undoable whole pushed called
    have passed := opens.body inner deeper called
    rw [closed]
    exact passed

theorem Run.Implements.inScope {act : Scoped Unit} {opening : Passing Valuation} {body : Run α}
    {passBody : Valuation → Passing α} (undoable : act.Undoable) (restores : body.Restores)
    (opens : Scoped.Extends functions limit depth values act opening)
    (inner : ∀ inner,
      Run.Implements (Machine.Shows functions limit depth inner) body (passBody inner)) :
    Run.Implements (Machine.Shows functions limit depth values)
      (Run.inScope false (do act; Scoped.lift body)) (opening >>= passBody) := by
  intro m shown
  rcases called : (do act; Scoped.lift body : Scoped α) (⟨[], false⟩, m) with ⟨result, g, middle⟩
  have whole : Scoped.Undoable (do act; Scoped.lift body) := .bind undoable fun _ => .lift restores
  obtain ⟨trace, closed⟩ := Run.inScope_of_undoable whole called
  have passed := opens.body inner shown called
  rw [closed]
  exact passed

namespace Expr

variable {callee : Expr → Run Value} {passCallee : Nat → Expr → Valuation → Passing Value}

theorem implements_evalArgs {es : List Expr} (restores : ∀ e ∈ es, (evalWith callee e).Restores)
    (each : ∀ e ∈ es, Run.Implements (Machine.Shows functions limit depth values) (evalWith callee e)
      ((Scoping.dynamic functions).evalWith limit passCallee depth e values)) :
    Run.Implements (Machine.Shows functions limit depth values) (evalArgs callee es)
      ((Scoping.dynamic functions).evalArgs limit passCallee depth es values) := by
  induction es with
  | nil => exact .done _
  | cons e es ih =>
    obtain ⟨first, rest⟩ := List.forall_mem_cons.mp each
    obtain ⟨restores, others⟩ := List.forall_mem_cons.mp restores
    exact .bind restores first fun v => .bind (restores_evalArgs others) (ih others rest) fun vs =>
      .done _

theorem extends_evalBindings {bs : List (Token × Expr)}
    (restores : ∀ b ∈ bs, (evalWith callee b.2).Restores)
    (each : ∀ b ∈ bs, ∀ values,
      Run.Implements (Machine.Shows functions limit depth values) (evalWith callee b.2)
        ((Scoping.dynamic functions).evalWith limit passCallee depth b.2 values)) :
    Scoped.Extends functions limit depth values (evalBindings callee bs)
      ((Scoping.dynamic functions).evalBindings limit passCallee depth bs values) := by
  induction bs generalizing values with
  | nil => exact .done
  | cons b bs ih =>
    obtain ⟨first, rest⟩ := List.forall_mem_cons.mp each
    obtain ⟨restores, others⟩ := List.forall_mem_cons.mp restores
    exact .lift_bind restores (first values) fun v =>
      .bind (.bindVariable b.1 v) fun inner => ih others rest

theorem implements_callWith (restores : ∀ e, (callee e).Restores)
    (calls : ∀ depth values e,
      Run.Implements (Machine.Shows functions limit depth values) (callee e)
        (passCallee depth e values))
    (t : Token) (given : Nat) {args : Run (List Value)} {passArgs : Passing (List Value)}
    (argsRestore : args.Restores)
    (arguments : Run.Implements (Machine.Shows functions limit depth values) args passArgs) :
    Run.Implements (Machine.Shows functions limit depth values) (callWith callee t given args)
      ((Scoping.dynamic functions).callWith limit passCallee depth t given passArgs values) := by
  simp only [callWith, Scoping.callWith, Scoping.dynamic]
  cases Builtin.lookup t.lexeme given with
  | some b => exact .bind argsRestore arguments fun vs => .builtin b vs t.offset
  | none =>
    refine .environment fun env declared _ => ?_
    have found : env.declaration? t.lexeme given = functions.find? t.lexeme given := by
      rw [Environment.declaration?, declared]
    rw [found, declared]
    cases functions.find? t.lexeme given with
    | some d =>
      exact .bind argsRestore arguments fun vs =>
        .inCall (.bindAll _) (restores d.body) (.bindAll _) fun inner => calls _ inner d.body
    | none => exact .fail _

theorem implements_evalWith (restores : ∀ e, (callee e).Restores)
    (calls : ∀ depth values e,
      Run.Implements (Machine.Shows functions limit depth values) (callee e)
        (passCallee depth e values))
    (e : Expr) :
    Run.Implements (Machine.Shows functions limit depth values) (evalWith callee e)
      ((Scoping.dynamic functions).evalWith limit passCallee depth e values) := by
  have here : ∀ e, (evalWith callee e).Restores := restores_evalWith restores
  induction e using Expr.induction generalizing values with
  | literal v => exact .done v
  | unary op t e operand => exact .bind (here e) operand fun v => .ofExcept _
  | binary op t l r left right =>
    exact .bind (here l) left fun v => .bind (here r) right fun w => .ofExcept _
  | cond c y n i j condition yes no =>
    refine .bind (here c) condition fun v => ?_
    cases v with
    | number _ | string _ => exact .fail _
    | boolean b =>
      cases b with
      | true => exact yes
      | false => exact no
  | letIn bs e bindings body =>
    exact .inScope (undoable_evalBindings fun b _ => here b.2) (here e)
      (extends_evalBindings (fun b _ => here b.2) fun b member _ => bindings b member) fun inner =>
      body
  | var t =>
    refine .environment fun env declared shown => ?_
    have read : env.get t = Valuation.read functions values t := by
      subst declared shown
      rfl
    rw [read]
    exact .ofExcept _
  | function t ps e _ => exact .fail _
  | call t es args =>
    exact .withSpan (implements_callWith restores calls t es.length
      (restores_evalArgs fun e _ => here e)
      (implements_evalArgs (fun e _ => here e) fun e member => args e member))

theorem implements_evalWithin (n : Nat) (e : Expr) :
    Run.Implements (Machine.Shows functions limit depth values) (e.evalWithin n)
      ((Scoping.dynamic functions).evalWithin limit n depth e values) := by
  induction n generalizing e depth values with
  | zero => exact implements_evalWith (fun _ => .exhausted) (fun _ _ _ => .fail _) e
  | succ n ih => exact implements_evalWith (restores_evalWithin n) (fun _ _ e => ih e) e

end Expr

end

/-- What an evaluation on the machine gives, prints and draws is what evaluation that passes a map
from names to values gives, prints and draws, whatever functions are declared, whatever bindings
are active and however deep calls are followed. So the values that others hide do not matter. -/
theorem evaluation_passes_bindings (n : Nat) (e : Expr) (m : Machine) :
    (Scoping.dynamic m.environment.functions).evalWithin m.calls.limit n m.calls.depth e
        m.environment.value? m.effects =
      ((e.evalWithin n m).1, (e.evalWithin n m).2.effects) ∧
    ∀ bindings : Variables, bindings.value? = m.environment.bindings.value? →
      (e.evalWithin n { m with environment := { m.environment with bindings } }).1 =
        (e.evalWithin n m).1 ∧
      (e.evalWithin n { m with environment := { m.environment with bindings } }).2.effects =
        (e.evalWithin n m).2.effects := by
  have passed : ∀ m : Machine, _ = ((e.evalWithin n m).1, (e.evalWithin n m).2.effects) := fun m =>
    Expr.implements_evalWithin n e m ⟨rfl, rfl, rfl, rfl⟩
  refine ⟨passed m, fun bindings same => ?_⟩
  have other := passed { m with environment := { m.environment with bindings } }
  have values : Environment.value? { m.environment with bindings } = m.environment.value? := same
  rw [values] at other
  exact Prod.mk.inj (other.symm.trans (passed m))

/-- A table in which `x` has a hidden value, and one in which it has not. -/
theorem evaluation_passes_bindings_hidden :
    let hidden : Variables := (Variables.empty.push "x" (.boolean false)).push "x" (.boolean true)
    let single : Variables := Variables.empty.push "x" (.boolean true)
    let m : Machine := .ofSettings .testRun { Environment.initial with bindings := single } []
    let e : Expr := .letIn [(⟨.identifier, "y", none, 4, 0⟩, .var ⟨.identifier, "x", none, 8, 1⟩)]
      (.var ⟨.identifier, "y", none, 13, 2⟩)
    hidden.value? = single.value? ∧ (e.evalWithin 0 m).1 = .ok (.boolean true) ∧
      (e.evalWithin 0 { m with environment := { m.environment with bindings := hidden } }).1 =
        .ok (.boolean true) := by
  intro hidden single m e
  have same : hidden.value? = single.value? := by
    funext name
    by_cases hit : name = "x" <;> simp [hidden, single, Variables.value?_push, hit]
  have plain : (e.evalWithin 0 m).1 = .ok (.boolean true) := by rfl
  exact ⟨same, plain, ((evaluation_passes_bindings 0 e m).2 hidden same).1.trans plain⟩

end LetLang
