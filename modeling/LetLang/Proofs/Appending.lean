import LetLang.Expr.Induction
import LetLang.Proofs.Passing

/-!
# Printing appends

What an evaluation gives and draws does not depend on what was printed before, and it only adds
lines to the console.
-/

namespace LetLang

variable {α β σ : Type}

def Console.printAll (c : Console) (lines : List String) : Console :=
  { c with lines := lines ++ c.lines }

namespace Console

theorem printAll_printAll (c : Console) (first second : List String) :
    (c.printAll first).printAll second = c.printAll (second ++ first) := by
  simp [printAll]

end Console

/-- `print` adds the text of its argument, and no other function adds a line. -/
theorem Builtin.apply_appends (b : Builtin) (args : List Value) (offset : UInt32) (g : Generator) :
    ∃ result g' lines, ∀ c, b.apply args offset g c = (result, g', c.printAll lines) := by
  unfold apply
  split
  next => exact ⟨.ok (.number g.uniform.1), g.uniform.2, [], fun _ => rfl⟩
  next v => exact ⟨.ok v, g, [v.text], fun _ => rfl⟩
  next => exact ⟨b.compute args offset, g, [], fun _ => rfl⟩

/-- From a generator on, `act` gives one outcome and prints the same lines on every console. -/
def Passing.Appends (act : Passing α) : Prop :=
  ∀ g, ∃ outcome g' lines, ∀ c, act ⟨g, c⟩ = (outcome, ⟨g', c.printAll lines⟩)

namespace Passing.Appends

theorem done (a : α) : Passing.Appends (Stateful.done a) :=
  fun g => ⟨.ok a, g, [], fun _ => rfl⟩

theorem fail (f : Failure) : Passing.Appends (α := α) (Stateful.fail f) :=
  fun g => ⟨.error f, g, [], fun _ => rfl⟩

theorem ofExcept (r : Except Error α) : Passing.Appends (Stateful.ofExcept r) := by
  cases r with
  | ok a => exact done a
  | error e => exact fail (.error e)

theorem bind {act : Passing α} {next : α → Passing β} (first : act.Appends)
    (rest : ∀ a, (next a).Appends) : Passing.Appends (act >>= next) := by
  intro g
  obtain ⟨outcome, g₁, lines, shown⟩ := first g
  cases outcome with
  | error f => exact ⟨.error f, g₁, lines, fun c => Stateful.bind_error (shown c)⟩
  | ok a =>
    obtain ⟨outcome, g₂, more, shown'⟩ := rest a g₁
    refine ⟨outcome, g₂, more ++ lines, fun c => ?_⟩
    rw [Stateful.bind_ok (shown c), shown', Console.printAll_printAll]

theorem builtin (b : Builtin) (args : List Value) (offset : UInt32) :
    (Passing.builtin b args offset).Appends := by
  intro g
  obtain ⟨result, g', lines, applied⟩ := b.apply_appends args offset g
  refine ⟨result.mapError .error, g', lines, fun c => ?_⟩
  simp only [Passing.builtin, applied]

theorem suffix {act : Passing α} (appends : act.Appends) (s : Effects) :
    s.console.lines <:+ (act s).2.console.lines := by
  obtain ⟨outcome, g', lines, shown⟩ := appends s.generator
  rw [show act s = _ from shown s.console]
  exact List.suffix_append lines s.console.lines

end Passing.Appends

namespace Scoping

variable {s : Scoping σ} {limit : Option Nat} {callee : Nat → Expr → σ → Passing Value}
  {depth : Nat}

theorem appends_evalArgs {es : List Expr} {scope : σ}
    (each : ∀ e ∈ es, ∀ scope, (s.evalWith limit callee depth e scope).Appends) :
    (s.evalArgs limit callee depth es scope).Appends := by
  induction es with
  | nil => exact .done _
  | cons e es ih =>
    obtain ⟨first, rest⟩ := List.forall_mem_cons.mp each
    exact .bind (first scope) fun _ => .bind (ih rest) fun _ => .done _

theorem appends_evalBindings {bs : List (Token × Expr)} {scope : σ}
    (each : ∀ b ∈ bs, ∀ scope, (s.evalWith limit callee depth b.2 scope).Appends) :
    (s.evalBindings limit callee depth bs scope).Appends := by
  induction bs generalizing scope with
  | nil => exact .done _
  | cons b bs ih =>
    obtain ⟨first, rest⟩ := List.forall_mem_cons.mp each
    exact .bind (first scope) fun _ => .bind (.ofExcept _) fun _ => ih rest

theorem appends_callWith (calls : ∀ depth e scope, (callee depth e scope).Appends) (t : Token)
    (given : Nat) {args : Passing (List Value)} (arguments : args.Appends) (scope : σ) :
    (s.callWith limit callee depth t given args scope).Appends := by
  unfold callWith
  split
  next b _ => exact .bind arguments fun vs => .builtin b vs t.offset
  next =>
    split
    next d _ =>
      exact .bind arguments fun vs => .bind (.ofExcept _) fun _ => .bind (.ofExcept _) fun inner =>
        calls (depth + 1) d.body inner
    next => exact .fail _

theorem appends_evalWith (calls : ∀ depth e scope, (callee depth e scope).Appends) (e : Expr)
    (scope : σ) : (s.evalWith limit callee depth e scope).Appends := by
  induction e using Expr.induction generalizing scope with
  | literal v => exact .done v
  | unary op t e operand => exact .bind (operand scope) fun _ => .ofExcept _
  | binary op t l r left right =>
    exact .bind (left scope) fun _ => .bind (right scope) fun _ => .ofExcept _
  | cond c y n i j condition yes no =>
    refine .bind (condition scope) fun v => ?_
    split
    · exact yes scope
    · exact no scope
    · exact .fail _
  | letIn bs e bindings body =>
    exact .bind (appends_evalBindings bindings) fun inner => body inner
  | var t => exact .ofExcept _
  | function t ps e _ => exact .fail _
  | call t es args => exact appends_callWith calls t es.length (appends_evalArgs args) scope

theorem appends_evalWithin (n depth : Nat) (e : Expr) (scope : σ) :
    (s.evalWithin limit n depth e scope).Appends := by
  induction n generalizing depth e scope with
  | zero => exact appends_evalWith (fun _ _ _ => .fail _) e scope
  | succ n ih => exact appends_evalWith ih e scope

end Scoping

end LetLang
