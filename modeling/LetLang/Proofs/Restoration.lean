import LetLang.Evaluation
import LetLang.Expr.Induction

/-!
# Evaluation restores the environment

Whatever a scope binds it takes back, so an evaluation leaves the environment and the calls as it
found them, and no closing ever finds a binding or a call missing.
-/

namespace LetLang

variable {α β : Type}

def Faultless (outcome : Except Failure α) : Prop := ∀ f, outcome ≠ .error (.fault f)

theorem faultless_ok (a : α) : Faultless (.ok a) := by simp [Faultless]

theorem faultless_error (e : Error) : Faultless (α := α) (.error (.error e)) := by simp [Faultless]

theorem faultless_mapError (r : Except Error α) : Faultless (r.mapError Failure.error) := by
  cases r with
  | ok a => exact faultless_ok a
  | error e => exact faultless_error e

theorem Scoped.bindVariable_cases (t : Token) (v : Value) (g : Guard) (m : Machine) :
    (∃ environment, m.environment.set t v = (.ok (), environment) ∧
      Scoped.bindVariable t v (g, m) = (.ok (), { g with bound := t :: g.bound },
        { m with environment, trace := .bind t.lexeme v :: m.trace })) ∨
    ∃ e, m.environment.set t v = (.error e, m.environment) ∧
      Scoped.bindVariable t v (g, m) = (.error (.error e), g, m) := by
  rcases set : m.environment.set t v with ⟨outcome, environment⟩
  cases outcome with
  | ok _ => exact .inl ⟨environment, rfl, by simp only [Scoped.bindVariable, Run.bindVariable, set]⟩
  | error e =>
    obtain rfl := Environment.set_error set
    exact .inr ⟨e, rfl, by simp only [Scoped.bindVariable, Run.bindVariable, set]⟩

/-- Removing the tokens in order leads from `now` back to `before`. -/
inductive Undoes : List Token → Environment → Environment → Prop where
  | nothing (env : Environment) : Undoes [] env env
  | removal {t : Token} {ts : List Token} {now next before : Environment}
      (removed : now.remove t = (.ok (), next)) (rest : Undoes ts next before) :
      Undoes (t :: ts) now before

theorem Undoes.trans {ts us : List Token} {now middle before : Environment}
    (first : Undoes ts now middle) (second : Undoes us middle before) :
    Undoes (ts ++ us) now before := by
  induction first with
  | nothing => exact second
  | removal removed _ ih => exact .removal removed (ih second)

/-- Whatever `act` does, the bindings, functions and calls are as before. -/
def Run.Restores (act : Run α) : Prop :=
  ∀ m outcome after, act m = (outcome, after) →
    after.environment = m.environment ∧ after.calls = m.calls ∧ Faultless outcome

namespace Run.Restores

theorem done (a : α) : Run.Restores (Stateful.done a) := by
  rintro m outcome after ⟨⟩
  exact ⟨rfl, rfl, faultless_ok a⟩

theorem error (e : Error) : Run.Restores (α := α) (Stateful.error e) := by
  rintro m outcome after ⟨⟩
  exact ⟨rfl, rfl, faultless_error e⟩

theorem exhausted : Run.Restores (α := α) (Stateful.fail .exhausted) := by
  rintro m outcome after ⟨⟩
  exact ⟨rfl, rfl, by simp [Faultless]⟩

theorem ofExcept (r : Except Error α) : Run.Restores (Stateful.ofExcept r) := by
  cases r with
  | ok a => exact done a
  | error e => exact error e

theorem bind {act : Run α} {next : α → Run β} (first : Run.Restores act)
    (rest : ∀ a, Run.Restores (next a)) : Run.Restores (act >>= next) := by
  intro m outcome after h
  cases called : act m with
  | mk result middle =>
    obtain ⟨environment, calls, faultless⟩ := first m result middle called
    cases result with
    | ok a =>
      rw [Stateful.bind_ok called] at h
      obtain ⟨environment', calls', faultless'⟩ := rest a middle outcome after h
      exact ⟨environment'.trans environment, calls'.trans calls, faultless'⟩
    | error f =>
      rw [Stateful.bind_error called] at h
      obtain ⟨rfl, rfl⟩ := Prod.mk.inj h
      exact ⟨environment, calls, fun f' same => faultless f' (by cases same; rfl)⟩

theorem environment : Run.Restores Run.environment := by
  rintro m outcome after ⟨⟩
  exact ⟨rfl, rfl, faultless_ok _⟩

theorem builtin (b : Builtin) (args : List Value) (offset : UInt32) :
    Run.Restores (Run.builtin b args offset) := by
  intro m outcome after h
  obtain ⟨rfl, rfl⟩ := Prod.mk.inj h
  exact ⟨rfl, rfl, faultless_mapError _⟩

theorem withSpan {first last : Event} {act : Run α} (inner : Run.Restores act) :
    Run.Restores (Run.withSpan first last act) := by
  intro m outcome after h
  cases called : act { m with trace := first :: m.trace } with
  | mk result middle =>
    obtain ⟨environment, calls, faultless⟩ := inner _ result middle called
    have opened : Run.emit first m = (.ok (), { m with trace := first :: m.trace }) := rfl
    rw [Run.withSpan, Stateful.bind_ok opened] at h
    simp only [Stateful.guarded, called, Run.emit] at h
    obtain ⟨rfl, rfl⟩ := Prod.mk.inj h
    exact ⟨environment, calls, faultless⟩

end Run.Restores

/-- `act` notes every binding that it makes, and its notes lead back to where it started. -/
def Scoped.Undoable (act : Scoped α) : Prop :=
  ∀ g m outcome g' after, act (g, m) = (outcome, g', after) →
    (∃ bound, g' = { g with bound := bound ++ g.bound } ∧
      Undoes bound after.environment m.environment) ∧
    after.calls = m.calls ∧ Faultless outcome

namespace Scoped.Undoable

theorem done (a : α) : Scoped.Undoable (Stateful.done a) := by
  rintro g m outcome g' after ⟨⟩
  exact ⟨⟨[], rfl, .nothing _⟩, rfl, faultless_ok a⟩

theorem bind {act : Scoped α} {next : α → Scoped β} (first : Scoped.Undoable act)
    (rest : ∀ a, Scoped.Undoable (next a)) : Scoped.Undoable (act >>= next) := by
  intro g m outcome g' after h
  cases called : act (g, m) with
  | mk result state =>
    obtain ⟨g₁, middle⟩ := state
    obtain ⟨⟨bound, rfl, undone⟩, calls, faultless⟩ := first g m result g₁ middle called
    cases result with
    | ok a =>
      rw [Stateful.bind_ok called] at h
      obtain ⟨⟨bound', rfl, undone'⟩, calls', faultless'⟩ := rest a _ middle outcome g' after h
      exact ⟨⟨bound' ++ bound, by simp, undone'.trans undone⟩, calls'.trans calls, faultless'⟩
    | error f =>
      rw [Stateful.bind_error called] at h
      obtain ⟨rfl, same⟩ := Prod.mk.inj h
      obtain ⟨rfl, rfl⟩ := Prod.mk.inj same
      exact ⟨⟨bound, rfl, undone⟩, calls, fun f' same => faultless f' (by cases same; rfl)⟩

theorem lift {act : Run α} (inner : act.Restores) : Scoped.Undoable (Scoped.lift act) := by
  intro g m outcome g' after h
  cases called : act m with
  | mk result middle =>
    obtain ⟨environment, calls, faultless⟩ := inner m result middle called
    simp only [Scoped.lift, called] at h
    obtain ⟨rfl, same⟩ := Prod.mk.inj h
    obtain ⟨rfl, rfl⟩ := Prod.mk.inj same
    exact ⟨⟨[], rfl, environment ▸ .nothing _⟩, calls, faultless⟩

theorem bindVariable (t : Token) (v : Value) : Scoped.Undoable (Scoped.bindVariable t v) := by
  intro g m outcome g' after h
  rcases Scoped.bindVariable_cases t v g m with ⟨environment, set, bound⟩ | ⟨e, _, refused⟩
  · cases bound.symm.trans h
    exact ⟨⟨[t], rfl, .removal (Environment.remove_set set) (.nothing _)⟩, rfl, faultless_ok _⟩
  · cases refused.symm.trans h
    exact ⟨⟨[], rfl, .nothing _⟩, rfl, faultless_error e⟩

theorem bindAll (bindings : List (Token × Value)) : Scoped.Undoable (Scoped.bindAll bindings) := by
  induction bindings with
  | nil => exact done ()
  | cons binding rest ih => exact bind (bindVariable _ _) fun _ => ih

end Scoped.Undoable

theorem Scoped.bindVariable_ok {t : Token} {v : Value} {g g' : Guard} {m after : Machine}
    (h : Scoped.bindVariable t v (g, m) = (.ok (), g', after)) :
    ∃ environment, m.environment.set t v = (.ok (), environment) ∧
      g' = { g with bound := t :: g.bound } ∧
      after = { m with environment, trace := .bind t.lexeme v :: m.trace } := by
  rcases bindVariable_cases t v g m with ⟨environment, set, bound⟩ | ⟨e, _, refused⟩
  · cases bound.symm.trans h
    exact ⟨environment, set, rfl, rfl⟩
  · cases refused.symm.trans h

theorem Scoped.bindVariable_error {t : Token} {v : Value} {f : Failure} {s s' : Guard × Machine}
    (h : Scoped.bindVariable t v s = (.error f, s')) : s' = s := by
  rcases bindVariable_cases t v s.1 s.2 with ⟨environment, _, bound⟩ | ⟨e, _, refused⟩
  · cases bound.symm.trans h
  · exact (Prod.mk.inj (refused.symm.trans h)).2.symm

theorem Run.inScope_snd (frame : Bool) (act : Scoped α) (m : Machine) :
    (Run.inScope frame act m).2 =
      (Run.close (act (⟨[], frame⟩, m)).2.1 (act (⟨[], frame⟩, m)).2.2).2 := by
  rcases called : act (⟨[], frame⟩, m) with ⟨outcome, g, middle⟩
  rcases closed : Run.close g middle with ⟨fault, last⟩
  simp only [Run.inScope, called, closed]
  cases fault <;> rfl

theorem Run.unbindAll_of_undoes {bound : List Token} {m : Machine} {before : Environment}
    (undone : Undoes bound m.environment before) :
    ∃ trace, Run.unbindAll bound m = (.ok (), { m with environment := before, trace }) := by
  induction bound generalizing m with
  | nil =>
    cases undone
    exact ⟨m.trace, rfl⟩
  | cons t ts ih =>
    cases undone with
    | @removal _ _ _ next _ removed rest =>
      have step : Run.unbindVariable t m = (.ok (), { m with
          environment := next
          trace := .unbind t.lexeme (next.bindingDepth t.lexeme) :: m.trace }) := by
        simp [Run.unbindVariable, removed]
      obtain ⟨trace, closed⟩ := ih (m := { m with
        environment := next
        trace := .unbind t.lexeme (next.bindingDepth t.lexeme) :: m.trace }) rest
      exact ⟨trace, by rw [Run.unbindAll, Stateful.bind_ok step, closed]⟩

/-- Closing a scope that is no call brings the environment back and nothing else but the trace. -/
theorem Run.inScope_of_undoable {act : Scoped α} (inner : act.Undoable) {m middle : Machine}
    {g : Guard} {outcome : Except Failure α}
    (called : act (⟨[], false⟩, m) = (outcome, g, middle)) :
    ∃ trace, Run.inScope false act m =
      (outcome, { middle with environment := m.environment, trace }) := by
  obtain ⟨⟨bound, rfl, undone⟩, _⟩ := inner _ m outcome g middle called
  obtain ⟨trace, closed⟩ := Run.unbindAll_of_undoes undone
  have close : Run.close ⟨bound ++ [], false⟩ middle =
      (.ok (), { middle with environment := m.environment, trace }) := by
    rw [List.append_nil, Run.close, Stateful.bind_ok closed]
    rfl
  exact ⟨trace, by simp only [Run.inScope, called, close]⟩

theorem Run.inCall_of_undoable {act : Scoped α} (inner : act.Undoable) {m middle : Machine}
    {f : Frame} {calls : CallStack} {g : Guard} {outcome : Except Failure α}
    (pushed : m.calls.push f = .ok calls)
    (called : act (⟨[], true⟩, { m with calls }) = (outcome, g, middle)) :
    ∃ trace, Run.inCall f act m =
      (outcome, { middle with environment := m.environment, calls := m.calls, trace }) := by
  obtain ⟨⟨bound, rfl, undone⟩, same, _⟩ := inner _ _ outcome g middle called
  obtain ⟨trace, closed⟩ := Run.unbindAll_of_undoes undone
  have left : middle.calls.pop = .ok m.calls := by rw [same, CallStack.pop_push pushed]
  have close : Run.close ⟨bound ++ [], true⟩ middle =
      (.ok (), { middle with environment := m.environment, calls := m.calls, trace }) := by
    rw [List.append_nil, Run.close, Stateful.bind_ok closed]
    simp [Run.leaveCall, left]
  have entered : Run.enterCall f m = (.ok (), { m with calls }) := by simp [Run.enterCall, pushed]
  refine ⟨trace, ?_⟩
  rw [Run.inCall, Stateful.bind_ok entered]
  simp only [Run.inScope, called, close]

theorem Run.inCall_of_refused {act : Scoped α} {m : Machine} {f : Frame} {e : Error}
    (refused : m.calls.push f = .error e) : Run.inCall f act m = (.error (.error e), m) := by
  have entered : Run.enterCall f m = (.error (.error e), m) := by simp [Run.enterCall, refused]
  rw [Run.inCall, Stateful.bind_error entered]

theorem Run.Restores.inScope {act : Scoped α} (inner : act.Undoable) :
    Run.Restores (Run.inScope false act) := by
  intro m outcome after h
  rcases called : act (⟨[], false⟩, m) with ⟨result, g, middle⟩
  obtain ⟨_, calls, faultless⟩ := inner _ m result g middle called
  obtain ⟨trace, closed⟩ := Run.inScope_of_undoable inner called
  obtain ⟨rfl, rfl⟩ := Prod.mk.inj (closed.symm.trans h)
  exact ⟨rfl, calls, faultless⟩

theorem Run.Restores.inCall {f : Frame} {act : Scoped α} (inner : act.Undoable) :
    Run.Restores (Run.inCall f act) := by
  intro m outcome after h
  cases pushed : m.calls.push f with
  | error e =>
    obtain ⟨rfl, rfl⟩ := Prod.mk.inj ((Run.inCall_of_refused pushed).symm.trans h)
    exact ⟨rfl, rfl, faultless_error e⟩
  | ok calls =>
    rcases called : act (⟨[], true⟩, { m with calls }) with ⟨result, g, middle⟩
    obtain ⟨_, _, faultless⟩ := inner _ _ result g middle called
    obtain ⟨trace, closed⟩ := Run.inCall_of_undoable inner pushed called
    obtain ⟨rfl, rfl⟩ := Prod.mk.inj (closed.symm.trans h)
    exact ⟨rfl, rfl, faultless⟩

namespace Expr

variable {callee : Expr → Run Value}

theorem restores_evalArgs {es : List Expr} (each : ∀ e ∈ es, (evalWith callee e).Restores) :
    (evalArgs callee es).Restores := by
  induction es with
  | nil => exact .done _
  | cons e es ih =>
    obtain ⟨first, rest⟩ := List.forall_mem_cons.mp each
    exact .bind first fun _ => .bind (ih rest) fun _ => .done _

theorem undoable_evalBindings {bs : List (Token × Expr)}
    (each : ∀ b ∈ bs, (evalWith callee b.2).Restores) : (evalBindings callee bs).Undoable := by
  induction bs with
  | nil => exact .done _
  | cons b bs ih =>
    obtain ⟨first, rest⟩ := List.forall_mem_cons.mp each
    exact .bind (.lift first) fun v => .bind (.bindVariable b.1 v) fun _ => ih rest

theorem restores_callWith (calls : ∀ e, (callee e).Restores) (t : Token) (given : Nat)
    {args : Run (List Value)} (arguments : args.Restores) :
    (callWith callee t given args).Restores := by
  unfold callWith
  split
  next b _ => exact .bind arguments fun vs => .builtin b vs t.offset
  next =>
    refine .bind .environment fun env => ?_
    split
    next d _ =>
      exact .bind arguments fun vs => .inCall (.bind (.bindAll _) fun _ => .lift (calls d.body))
    next => exact .error _

theorem restores_evalWith (calls : ∀ e, (callee e).Restores) (e : Expr) :
    (evalWith callee e).Restores := by
  induction e using Expr.induction with
  | literal v => exact .done v
  | unary op t e operand => exact .bind operand fun v => .ofExcept _
  | binary op t l r left right => exact .bind left fun v => .bind right fun w => .ofExcept _
  | cond c y n i j condition yes no =>
    refine .bind condition fun v => ?_
    split
    · exact yes
    · exact no
    · exact .error _
  | letIn bs e bindings body =>
    exact .inScope (.bind (undoable_evalBindings bindings) fun _ => .lift body)
  | var t => exact .bind .environment fun env => .ofExcept _
  | function t ps e _ => exact .error _
  | call t es args => exact .withSpan (restores_callWith calls t es.length (restores_evalArgs args))

theorem restores_evalWithin (n : Nat) (e : Expr) : (e.evalWithin n).Restores := by
  induction n generalizing e with
  | zero => exact restores_evalWith (fun _ => .exhausted) e
  | succ n ih => exact restores_evalWith ih e

end Expr

/-- However an evaluation ends and however deep its calls are followed, the bindings, the functions,
the renamer and the calls are those from before. A fault is never caught, so that none at the end
means that none came up on the way. -/
theorem evaluation_restores (n : Nat) (e : Expr) (m : Machine) :
    (e.evalWithin n m).2.environment = m.environment ∧ (e.evalWithin n m).2.calls = m.calls ∧
      ∀ f, (e.evalWithin n m).1 ≠ .error (.fault f) :=
  Expr.restores_evalWithin n e m _ _ rfl

end LetLang
