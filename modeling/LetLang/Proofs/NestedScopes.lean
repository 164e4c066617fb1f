import LetLang.Proofs.Restoration

/-!
# Scopes inside of scopes

A scope that is the last thing in another one can be left out: what it binds is noted in front of
the notes of the outer scope, and taken back first. So a `let` can be split between any two of its
bindings.
-/

namespace LetLang

variable {α β : Type}

/-- `act` does the same whatever the notes of its scope are, and puts its own in front of them. -/
def Scoped.Adds (act : Scoped α) : Prop :=
  ∀ m, ∃ outcome bound after, ∀ g : Guard,
    act (g, m) = (outcome, { g with bound := bound ++ g.bound }, after)

namespace Scoped.Adds

theorem done (a : α) : Scoped.Adds (Stateful.done a) := fun m => ⟨.ok a, [], m, fun _ => rfl⟩

theorem lift (act : Run α) : Scoped.Adds (Scoped.lift act) := by
  intro m
  rcases called : act m with ⟨outcome, after⟩
  refine ⟨outcome, [], after, fun g => ?_⟩
  simp only [Scoped.lift, called]
  rfl

theorem bindVariable (t : Token) (v : Value) : Scoped.Adds (Scoped.bindVariable t v) := by
  intro m
  rcases called : Run.bindVariable t v m with ⟨outcome, after⟩
  cases outcome with
  | ok =>
    refine ⟨.ok (), [t], after, fun g => ?_⟩
    simp only [Scoped.bindVariable, called]
    rfl
  | error f =>
    refine ⟨.error f, [], after, fun g => ?_⟩
    simp only [Scoped.bindVariable, called]
    rfl

theorem bind {act : Scoped α} {next : α → Scoped β} (first : act.Adds)
    (rest : ∀ a, (next a).Adds) : Scoped.Adds (act >>= next) := by
  intro m
  obtain ⟨outcome, bound, middle, called⟩ := first m
  cases outcome with
  | ok a =>
    obtain ⟨outcome, bound', after, followed⟩ := rest a middle
    refine ⟨outcome, bound' ++ bound, after, fun g => ?_⟩
    rw [Stateful.bind_ok (called g), followed, List.append_assoc]
  | error f => exact ⟨.error f, bound, middle, fun g => Stateful.bind_error (called g)⟩

end Scoped.Adds

namespace Run

theorem unbindAll_append (ts us : List Token) :
    unbindAll (ts ++ us) = unbindAll ts >>= fun _ => unbindAll us := by
  induction ts with
  | nil => rfl
  | cons t ts ih => rw [List.cons_append, unbindAll, unbindAll, ih, Stateful.bind_assoc]

theorem close_of_unbindAll {bound : List Token} {m middle : Machine}
    (unbound : unbindAll bound m = (.ok (), middle)) (g : Guard) :
    close { g with bound := bound ++ g.bound } m = close g middle := by
  rw [close, unbindAll_append, Stateful.bind_assoc, Stateful.bind_ok unbound]
  rfl

/-- Closing a scope and then the scope around it takes back what the outer one alone would, had all
been bound there. -/
theorem inScope_lift_inScope {act : Scoped α} {next : α → Scoped β} (adds : ∀ a, (next a).Adds)
    (undoable : ∀ a, (next a).Undoable) (frame : Bool) :
    inScope frame (act >>= fun a => Scoped.lift (inScope false (next a))) =
      inScope frame (act >>= next) := by
  funext m
  rcases called : act (⟨[], frame⟩, m) with ⟨result, g, middle⟩
  cases result with
  | error f => simp only [inScope, Stateful.bind_error called]
  | ok a =>
    obtain ⟨outcome, bound, last, same⟩ := adds a middle
    have alone : next a (⟨[], false⟩, middle) = (outcome, ⟨bound, false⟩, last) := by
      rw [same, List.append_nil]
    obtain ⟨⟨noted, notes, undone⟩, _⟩ := undoable a _ middle outcome _ last alone
    obtain rfl : bound = noted := by simpa using congrArg Guard.bound notes
    -- no removal fails, so the outer scope goes on where the inner one has ended
    obtain ⟨trace, unbound⟩ := unbindAll_of_undoes undone
    have closed : close ⟨bound, false⟩ last =
        (.ok (), { last with environment := middle.environment, trace }) := by
      rw [close, Stateful.bind_ok unbound]
      rfl
    have inner : Scoped.lift (inScope false (next a)) (g, middle) =
        (outcome, g, { last with environment := middle.environment, trace }) := by
      simp only [Scoped.lift, inScope, alone, closed]
    simp only [inScope, Stateful.bind_ok called, inner, same, close_of_unbindAll unbound]

end Run

namespace Expr

variable {callee : Expr → Run Value}

theorem adds_evalBindings (callee : Expr → Run Value) (bs : List (Token × Expr)) :
    (evalBindings callee bs).Adds := by
  induction bs with
  | nil => exact .done _
  | cons b bs ih => exact .bind (.lift _) fun v => .bind (.bindVariable b.1 v) fun _ => ih

theorem evalBindings_append (bs cs : List (Token × Expr)) :
    evalBindings callee (bs ++ cs) = evalBindings callee bs >>= fun _ => evalBindings callee cs := by
  induction bs with
  | nil => rfl
  | cons b bs ih =>
    obtain ⟨t, e⟩ := b
    simp only [List.cons_append, evalBindings, ih, Stateful.bind_assoc]

theorem evalWith_letIn_append (calls : ∀ e, (callee e).Restores) (bs cs : List (Token × Expr))
    (e : Expr) : evalWith callee (letIn (bs ++ cs) e) = evalWith callee (letIn bs (letIn cs e)) := by
  have here : ∀ e, (evalWith callee e).Restores := restores_evalWith calls
  simp only [evalWith, evalBindings_append, Stateful.bind_assoc]
  refine (Run.inScope_lift_inScope (fun _ => ?_) (fun _ => ?_) false).symm
  · exact .bind (adds_evalBindings callee cs) fun _ => .lift _
  · exact .bind (undoable_evalBindings fun b _ => here b.2) fun _ => .lift (here e)

end Expr

/-- A `let` can be split anywhere: the two forms are the same computation. From every machine they end
with the same value or error, and with the same machine: its environment, its calls, what was printed
and drawn, and all events in their order. -/
theorem let_splits_anywhere (bs cs : List (Token × Expr)) (e : Expr) :
    (∀ n, (Expr.letIn (bs ++ cs) e).evalWithin n = (Expr.letIn bs (.letIn cs e)).evalWithin n) ∧
      Run.eval (.letIn (bs ++ cs) e) = Run.eval (.letIn bs (.letIn cs e)) := by
  have splits : ∀ n,
      (Expr.letIn (bs ++ cs) e).evalWithin n = (Expr.letIn bs (.letIn cs e)).evalWithin n := by
    intro n
    cases n with
    | zero => exact Expr.evalWith_letIn_append (fun _ => .exhausted) bs cs e
    | succ n => exact Expr.evalWith_letIn_append (Expr.restores_evalWithin n) bs cs e
  refine ⟨splits, funext fun m => ?_⟩
  rw [Run.eval, Run.eval, splits]

end LetLang
