import Mathlib.Data.List.Basic
import LetLang.Proofs.Cutoff
import LetLang.Proofs.Refinement

/-!
# Bounded evaluation ends

Every call that is entered leaves room for one call less, so under a limit evaluation need not be
followed deeper than the room that is left. It is then the only solution of its own recursion
equation.
-/

namespace LetLang

variable {α β : Type}

namespace CallStack

variable {calls deeper : CallStack} {f : Frame} {limit : Nat}

theorem push_bounded (bounded : calls.limit = some limit) (pushed : calls.push f = .ok deeper) :
    deeper.limit = some limit ∧ deeper.depth = calls.depth + 1 ∧ calls.depth < limit := by
  unfold push at pushed
  rw [bounded] at pushed
  dsimp only at pushed
  split at pushed
  next => cases pushed
  next free =>
    cases pushed
    exact ⟨rfl, rfl, Nat.lt_of_not_le free⟩

theorem room_bounded (bounded : calls.limit = some limit) : calls.room = limit - calls.depth := by
  rw [room, bounded]

theorem room_push (bounded : calls.limit = some limit) (pushed : calls.push f = .ok deeper) :
    deeper.limit = some limit ∧ deeper.room + 1 = calls.room := by
  obtain ⟨bounded', depth, free⟩ := push_bounded bounded pushed
  rw [room_bounded bounded, room_bounded bounded']
  exact ⟨bounded', by omega⟩

end CallStack

def Run.AgreeAt (calls : CallStack) (act other : Run α) : Prop :=
  ∀ m, m.calls = calls → act m = other m

def Scoped.AgreeAt (calls : CallStack) (act other : Scoped α) : Prop :=
  ∀ g m, m.calls = calls → act (g, m) = other (g, m)

variable {calls : CallStack}

namespace Scoped.AgreeAt

theorem refl (act : Scoped α) : Scoped.AgreeAt calls act act := fun _ _ _ => rfl

theorem bind {act other : Scoped α} {next nextOther : α → Scoped β} (undoable : act.Undoable)
    (first : Scoped.AgreeAt calls act other)
    (rest : ∀ a, Scoped.AgreeAt calls (next a) (nextOther a)) :
    Scoped.AgreeAt calls (act >>= next) (other >>= nextOther) := by
  intro g m active
  rcases called : act (g, m) with ⟨result, g', middle⟩
  have same : other (g, m) = (result, g', middle) := (first g m active).symm.trans called
  obtain ⟨_, kept, _⟩ := undoable g m result g' middle called
  cases result with
  | ok a =>
    rw [Stateful.bind_ok called, Stateful.bind_ok same]
    exact rest a g' middle (kept.trans active)
  | error f => rw [Stateful.bind_error called, Stateful.bind_error same]

theorem lift {act other : Run α} (inner : Run.AgreeAt calls act other) :
    Scoped.AgreeAt calls (Scoped.lift act) (Scoped.lift other) := by
  intro g m active
  simp only [Scoped.lift, inner m active]

end Scoped.AgreeAt

namespace Run.AgreeAt

theorem refl (act : Run α) : Run.AgreeAt calls act act := fun _ _ => rfl

theorem bind {act other : Run α} {next nextOther : α → Run β} (restores : act.Restores)
    (first : Run.AgreeAt calls act other) (rest : ∀ a, Run.AgreeAt calls (next a) (nextOther a)) :
    Run.AgreeAt calls (act >>= next) (other >>= nextOther) := by
  intro m active
  rcases called : act m with ⟨result, middle⟩
  have same : other m = (result, middle) := (first m active).symm.trans called
  obtain ⟨_, kept, _⟩ := restores m result middle called
  cases result with
  | ok a =>
    rw [Stateful.bind_ok called, Stateful.bind_ok same]
    exact rest a middle (kept.trans active)
  | error f => rw [Stateful.bind_error called, Stateful.bind_error same]

theorem withSpan {first last : Event} {act other : Run α} (inner : Run.AgreeAt calls act other) :
    Run.AgreeAt calls (Run.withSpan first last act) (Run.withSpan first last other) := by
  intro m active
  have opened : Run.emit first m = (.ok (), { m with trace := first :: m.trace }) := rfl
  rw [Run.withSpan, Run.withSpan, Stateful.bind_ok opened, Stateful.bind_ok opened]
  simp only [Stateful.guarded, inner { m with trace := first :: m.trace } active]

theorem inScope {frame : Bool} {act other : Scoped α} (inner : Scoped.AgreeAt calls act other) :
    Run.AgreeAt calls (Run.inScope frame act) (Run.inScope frame other) := by
  intro m active
  simp only [Run.inScope, inner ⟨[], frame⟩ m active]

theorem inCall {f : Frame} {act other : Scoped α}
    (inner : ∀ deeper, calls.push f = .ok deeper → Scoped.AgreeAt deeper act other) :
    Run.AgreeAt calls (Run.inCall f act) (Run.inCall f other) := by
  rintro m rfl
  cases pushed : m.calls.push f with
  | error e => rw [Run.inCall_of_refused pushed, Run.inCall_of_refused pushed]
  | ok deeper =>
    have entered : Run.enterCall f m = (.ok (), { m with calls := deeper }) := by
      simp only [Run.enterCall, pushed]
    rw [Run.inCall, Run.inCall, Stateful.bind_ok entered, Stateful.bind_ok entered]
    exact AgreeAt.inScope (inner deeper pushed) _ rfl

end Run.AgreeAt

def CallStack.CalleesAgree (calls : CallStack) (callee other : Expr → Run Value) : Prop :=
  ∀ f deeper, calls.push f = .ok deeper → ∀ e, Run.AgreeAt deeper (callee e) (other e)

namespace Expr

variable {callee other : Expr → Run Value}

theorem agree_evalArgs {es : List Expr} (restores : ∀ e, (evalWith callee e).Restores)
    (each : ∀ e ∈ es, Run.AgreeAt calls (evalWith callee e) (evalWith other e)) :
    Run.AgreeAt calls (evalArgs callee es) (evalArgs other es) := by
  induction es with
  | nil => exact .refl _
  | cons e es ih =>
    obtain ⟨first, rest⟩ := List.forall_mem_cons.mp each
    exact .bind (restores e) first fun _ =>
      .bind (restores_evalArgs fun e _ => restores e) (ih rest) fun _ => .refl _

theorem agree_evalBindings {bs : List (Token × Expr)} (restores : ∀ e, (evalWith callee e).Restores)
    (each : ∀ b ∈ bs, Run.AgreeAt calls (evalWith callee b.2) (evalWith other b.2)) :
    Scoped.AgreeAt calls (evalBindings callee bs) (evalBindings other bs) := by
  induction bs with
  | nil => exact .refl _
  | cons b bs ih =>
    obtain ⟨first, rest⟩ := List.forall_mem_cons.mp each
    exact .bind (.lift (restores b.2)) (.lift first) fun v =>
      .bind (.bindVariable b.1 v) (.refl _) fun _ => ih rest

theorem agree_callWith (same : calls.CalleesAgree callee other) (t : Token) (given : Nat)
    {args otherArgs : Run (List Value)} (restores : args.Restores)
    (arguments : Run.AgreeAt calls args otherArgs) :
    Run.AgreeAt calls (callWith callee t given args) (callWith other t given otherArgs) := by
  unfold callWith
  split
  next b _ => exact .bind restores arguments fun _ => .refl _
  next =>
    refine .bind .environment (.refl _) fun env => ?_
    split
    next d _ =>
      exact .bind restores arguments fun vs => .inCall fun deeper pushed =>
        .bind (.bindAll _) (.refl _) fun _ => .lift (same _ deeper pushed d.body)
    next => exact .refl _

/-- Only through its calls does an evaluation depend on the way to call. -/
theorem agree_evalWith (restores : ∀ e, (callee e).Restores)
    (same : calls.CalleesAgree callee other) (e : Expr) :
    Run.AgreeAt calls (evalWith callee e) (evalWith other e) := by
  have here : ∀ e, (evalWith callee e).Restores := restores_evalWith restores
  induction e using Expr.induction with
  | literal v => exact .refl _
  | unary op t e operand => exact .bind (here e) operand fun _ => .refl _
  | binary op t l r left right => exact .bind (here l) left fun _ => .bind (here r) right fun _ => .refl _
  | cond c y n i j condition yes no =>
    refine .bind (here c) condition fun v => ?_
    split
    · exact yes
    · exact no
    · exact .refl _
  | letIn bs e bindings body =>
    exact .inScope (.bind (undoable_evalBindings fun b _ => here b.2)
      (agree_evalBindings here bindings) fun _ => .lift body)
  | var t => exact .refl _
  | function t ps e _ => exact .refl _
  | call t es args =>
    exact .withSpan (agree_callWith same t es.length (restores_evalArgs fun e _ => here e)
      (agree_evalArgs here args))

theorem agree_evalWithin {limit n more : Nat} (bounded : calls.limit = some limit)
    (enough : calls.room ≤ n) (deeper : n ≤ more) (e : Expr) :
    Run.AgreeAt calls (e.evalWithin more) (e.evalWithin n) := by
  induction more generalizing n calls e with
  | zero =>
    obtain rfl : n = 0 := by omega
    exact .refl _
  | succ more ih =>
    cases n with
    | zero =>
      refine agree_evalWith (restores_evalWithin more) (fun f inner pushed => ?_) e
      have less := (CallStack.room_push bounded pushed).2
      omega
    | succ n =>
      refine agree_evalWith (restores_evalWithin more) (fun f inner pushed body => ?_) e
      obtain ⟨bounded', less⟩ := CallStack.room_push bounded pushed
      exact ih bounded' (by omega) (by omega) body

end Expr

namespace Run

theorem restores_eval (e : Expr) : (Run.eval e).Restores := by
  intro m outcome after h
  exact Expr.restores_evalWithin m.calls.room e m outcome after h

theorem eval_eq_evalWithin {m : Machine} {limit n : Nat} (bounded : m.calls.limit = some limit)
    (enough : m.calls.room ≤ n) (e : Expr) : Run.eval e m = e.evalWithin n m :=
  (Expr.agree_evalWithin bounded (Nat.le_refl _) enough e m rfl).symm

theorem eval_eq_evalWith {m : Machine} {limit : Nat} (bounded : m.calls.limit = some limit)
    (e : Expr) : Run.eval e m = e.evalWith Run.eval m := by
  rw [eval_eq_evalWithin bounded (Nat.le_succ _)]
  refine Expr.agree_evalWith (Expr.restores_evalWithin _) (fun f deeper pushed body => ?_) e m rfl
  obtain ⟨bounded', less⟩ := CallStack.room_push bounded pushed
  rintro inner rfl
  exact (eval_eq_evalWithin bounded' (by omega) body).symm

/-- By induction on the room, as every call that is entered leaves less of it. -/
theorem eval_unique {other : Expr → Run Value} {limit : Nat}
    (solves : ∀ e m, m.calls.limit = some limit → other e m = e.evalWith other m) {m : Machine}
    (bounded : m.calls.limit = some limit) (e : Expr) : other e m = Run.eval e m := by
  induction room : m.calls.room using Nat.strongRecOn generalizing m e with
  | _ room ih =>
    rw [solves e m bounded, eval_eq_evalWith bounded]
    refine (Expr.agree_evalWith restores_eval (fun f deeper pushed body => ?_) e m rfl).symm
    obtain ⟨bounded', less⟩ := CallStack.room_push bounded pushed
    rintro inner rfl
    exact (ih inner.calls.room (by omega) bounded' body rfl).symm

/-- Beside itself, an evaluation under a limit ends with an error if it ends with no value. -/
theorem eval_ends {m : Machine} {limit : Nat} (bounded : m.calls.limit = some limit) (e : Expr)
    (f : Failure) (failed : (Run.eval e m).1 = .error f) : ∃ err, f = .error err := by
  have room : limit - m.calls.depth ≤ m.calls.room :=
    Nat.le_of_eq (CallStack.room_bounded bounded).symm
  have cut : Passing.Cut limit
      ((Scoping.dynamic m.environment.functions).evalWithin (some limit) m.calls.room m.calls.depth e
        m.environment.value?)
      ((Scoping.dynamic m.environment.functions).evalWithin (some limit) m.calls.room m.calls.depth e
        m.environment.value?) :=
    Scoping.cut_evalWithin (fun _ same => Nat.le_of_eq (Option.some.inj same)) room room e _
  have passed := Expr.implements_evalWithin m.calls.room e m ⟨rfl, bounded, rfl, rfl⟩
  have ended := cut.cut m.effects
  rw [passed] at ended
  have outcome : (e.evalWithin m.calls.room m).1 = .error f := failed
  rw [outcome] at ended
  cases ended with
  | same _ own =>
    obtain ⟨err, same, _⟩ := own f rfl
    exact ⟨err, same⟩
  | early offset _ _ => exact ⟨_, rfl⟩

end Run

/-- Under a limit an evaluation ends with a value or an error. It is the evaluation that its own
equation describes: `evalWith` goes down the expression, and a function body, in a call that leaves
less room, is evaluated by the same evaluator. No other evaluator solves the equation. -/
theorem bounded_evaluation_ends {m : Machine} {limit : Nat} (bounded : m.calls.limit = some limit)
    (e : Expr) :
    ((∃ v, (Run.eval e m).1 = .ok v) ∨ ∃ err, (Run.eval e m).1 = .error (.error err)) ∧
      Run.eval e m = e.evalWith Run.eval m ∧
      (∀ f deeper, m.calls.push f = .ok deeper → deeper.room < m.calls.room) ∧
      ∀ other : Expr → Run Value,
        (∀ e m, m.calls.limit = some limit → other e m = e.evalWith other m) →
          other e m = Run.eval e m := by
  refine ⟨?_, Run.eval_eq_evalWith bounded e, ?_, fun other solves => Run.eval_unique solves bounded e⟩
  · have ends := Run.eval_ends bounded e
    cases outcome : (Run.eval e m).1 with
    | ok v => exact .inl ⟨v, rfl⟩
    | error f =>
      obtain ⟨err, rfl⟩ := ends f outcome
      exact .inr ⟨err, rfl⟩
  · intro f deeper pushed
    have less := (CallStack.room_push bounded pushed).2
    omega

/-- Two functions that call each other for ever. -/
theorem bounded_evaluation_ends_mutual :
    let f : Declaration := ⟨⟨.identifier, "f", none, 9, 0⟩, [⟨.identifier, "x", none, 11, 1⟩],
      .call ⟨.identifier, "g", none, 17, 2⟩ [.var ⟨.identifier, "x", none, 19, 3⟩]⟩
    let g : Declaration := ⟨⟨.identifier, "g", none, 31, 4⟩, [⟨.identifier, "x", none, 33, 5⟩],
      .call ⟨.identifier, "f", none, 39, 6⟩ [.var ⟨.identifier, "x", none, 41, 7⟩]⟩
    let e : Expr := .call ⟨.identifier, "f", none, 44, 8⟩ [.literal (.boolean true)]
    let settings : Settings := { Settings.testRun with maxCallDepth := some 3 }
    let start : Machine := .ofSettings settings (.ofSymbols ⟨.initial, 9⟩) []
    let m := (Run.registerAll [f, g] start).2
    m.calls.limit = some 3 ∧ (∃ err, (Run.eval e m).1 = .error (.error err)) ∧
      Run.eval e m = e.evalWith Run.eval m := by
  intro f g e settings start m
  have bounded : m.calls.limit = some 3 := by decide +kernel
  obtain ⟨ends, same, _⟩ := bounded_evaluation_ends bounded e
  have limited : (Run.eval e m).1 = .error (.error (.recursionLimitExceeded 3 17)) := by
    decide +kernel
  refine ⟨bounded, ?_, same⟩
  rcases ends with ⟨v, ended⟩ | failed
  · cases limited.symm.trans ended
  · exact failed

end LetLang
