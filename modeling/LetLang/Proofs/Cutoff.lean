import LetLang.Proofs.Appending

/-!
# What a depth limit cuts off

Two evaluations go along side by side, one under a depth limit and one that may go deeper. They part
where the limit refuses a call.
-/

namespace LetLang

variable {α β σ : Type}

def Error.IsLimit (e : Error) : Prop := ∃ limit, e.cause = .recursionLimitExceeded limit

/-- What fails here fails for a reason of its own. -/
def Unlimited (r : Except Error α) : Prop := ∀ e, r = .error e → ¬ e.IsLimit

theorem unlimited_ok (a : α) : Unlimited (.ok a) := fun _ h => nomatch h

theorem Unlimited.map {r : Except Error α} (h : Unlimited r) (f : α → β) : Unlimited (r.map f) := by
  cases r with
  | ok a => exact unlimited_ok _
  | error e =>
    rintro _ ⟨⟩
    exact h e rfl

theorem Unlimited.bind {r : Except Error α} {next : α → Except Error β} (first : Unlimited r)
    (rest : ∀ a, Unlimited (next a)) : Unlimited (r >>= next) := by
  cases r with
  | ok a => exact rest a
  | error e =>
    rintro _ ⟨⟩
    exact first e rfl

theorem UnaryOp.apply_unlimited (op : UnaryOp) (v : Value) (offset : UInt32) :
    Unlimited (op.apply v offset) := by
  rintro e h ⟨limit, cause⟩
  cases op <;> cases v <;> cases h <;> cases cause

theorem BinaryOp.apply_unlimited (op : BinaryOp) (l r : Value) (offset : UInt32) :
    Unlimited (op.apply l r offset) := by
  have numbers : Unlimited (op.numbers l r offset) := by
    rintro e h ⟨limit, cause⟩
    cases l <;> cases r <;> cases h <;> cases cause
  have booleans : Unlimited (op.booleans l r offset) := by
    rintro e h ⟨limit, cause⟩
    cases l <;> cases r <;> cases h <;> cases cause
  cases op with
  | add | sub | mul | div | mod | pow | lt | le | gt | ge => exact numbers.map _
  | and | or => exact booleans.map _
  | eq | ne | concat => exact unlimited_ok _

theorem Builtin.compute_unlimited (b : Builtin) (args : List Value) (offset : UInt32) :
    Unlimited (b.compute args offset) := by
  have number : ∀ v, Unlimited (b.number v offset) := by
    rintro v e h ⟨limit, cause⟩
    cases v <;> cases h <;> cases cause
  unfold compute
  split
  next x => exact (number x).map _
  next x => exact (number x).map _
  next x => exact (number x).map _
  next x => exact (number x).map _
  next base x => exact (number x).bind fun _ => (number base).bind fun _ => unlimited_ok _
  next =>
    rintro e ⟨⟩ ⟨limit, cause⟩
    cases cause

theorem Builtin.apply_unlimited (b : Builtin) (args : List Value) (offset : UInt32) (g : Generator)
    (c : Console) : Unlimited (b.apply args offset g c).1 := by
  unfold apply
  split
  next => exact unlimited_ok _
  next => exact unlimited_ok _
  next => exact compute_unlimited b args offset

theorem Functions.callError_unlimited (fs : Functions) (name : String) (given : Nat)
    (offset : UInt32) : ¬ (fs.callError name given offset).IsLimit := by
  rintro ⟨limit, cause⟩
  unfold callError at cause
  split at cause <;> cases cause

namespace Valuation

variable {functions : Functions}

theorem read_unlimited (values : Valuation) (t : Token) : Unlimited (read functions values t) := by
  rintro e h ⟨limit, cause⟩
  unfold read at h
  split at h
  next => cases h; cases cause
  next =>
    split at h
    next => cases h
    next => cases h; cases cause

theorem bind_unlimited (values : Valuation) (t : Token) (v : Value) :
    Unlimited (bind functions values t v) := by
  rintro e h ⟨limit, cause⟩
  unfold bind at h
  split at h <;> cases h
  cases cause

theorem bindAll_unlimited (values : Valuation) (bindings : List (Token × Value)) :
    Unlimited (bindAll functions values bindings) := by
  induction bindings generalizing values with
  | nil => exact unlimited_ok _
  | cons b bindings ih => exact (bind_unlimited values b.1 b.2).bind ih

end Valuation

/-- How an evaluation under a limit ends beside one that may go deeper: in the same way, with a
value or an error of its own, or earlier, where the limit is reached. -/
inductive CutAt (limit : Nat) : Except Failure α × Effects → Except Failure α × Effects → Prop where
  | same {outcome : Except Failure α} (s : Effects)
      (own : ∀ f, outcome = .error f → ∃ e, f = .error e ∧ ¬ e.IsLimit) :
      CutAt limit (outcome, s) (outcome, s)
  | early {s after : Effects} (offset : UInt32) (outcome : Except Failure α)
      (printed : s.console.lines <:+ after.console.lines) :
      CutAt limit (.error (.error (.recursionLimitExceeded limit offset)), s) (outcome, after)

structure Passing.Cut (limit : Nat) (act deeper : Passing α) : Prop where
  appends : deeper.Appends
  cut : ∀ s, CutAt limit (act s) (deeper s)

namespace Passing.Cut

variable {limit : Nat}

theorem done (a : α) : Passing.Cut limit (Stateful.done a) (Stateful.done a) :=
  ⟨.done a, fun s => .same s fun _ h => nomatch h⟩

theorem error {e : Error} (other : ¬ e.IsLimit) :
    Passing.Cut (α := α) limit (Stateful.error e) (Stateful.error e) := by
  refine ⟨.fail _, fun s => .same s ?_⟩
  rintro f ⟨⟩
  exact ⟨e, rfl, other⟩

theorem ofExcept {r : Except Error α} (own : Unlimited r) :
    Passing.Cut limit (Stateful.ofExcept r) (Stateful.ofExcept r) := by
  cases r with
  | ok a => exact done a
  | error e => exact error (own e rfl)

theorem bind {act deeper : Passing α} {next nextDeeper : α → Passing β}
    (first : act.Cut limit deeper) (rest : ∀ a, (next a).Cut limit (nextDeeper a)) :
    Passing.Cut limit (act >>= next) (deeper >>= nextDeeper) := by
  have appends := Passing.Appends.bind first.appends fun a => (rest a).appends
  refine ⟨appends, fun s => ?_⟩
  generalize ended : act s = result
  generalize endedDeeper : deeper s = resultDeeper
  have cut := first.cut s
  rw [ended, endedDeeper] at cut
  cases cut with
  | @same outcome middle own =>
    cases outcome with
    | ok a =>
      rw [Stateful.bind_ok ended, Stateful.bind_ok endedDeeper]
      exact (rest a).cut middle
    | error f =>
      rw [Stateful.bind_error ended, Stateful.bind_error endedDeeper]
      refine .same middle ?_
      rintro f' ⟨⟩
      exact own f rfl
  | @early middle after offset outcome printed =>
    rw [Stateful.bind_error ended]
    cases outcome with
    | ok a =>
      rw [Stateful.bind_ok endedDeeper]
      exact .early offset _ (printed.trans ((rest a).appends.suffix after))
    | error f =>
      rw [Stateful.bind_error endedDeeper]
      exact .early offset _ printed

theorem builtin (b : Builtin) (args : List Value) (offset : UInt32) :
    Passing.Cut limit (Passing.builtin b args offset) (Passing.builtin b args offset) := by
  refine ⟨.builtin b args offset, fun s => .same _ fun f h => ?_⟩
  have own := b.apply_unlimited args offset s.generator s.console
  cases result : (b.apply args offset s.generator s.console).1 with
  | ok v =>
    rw [result] at h
    cases h
  | error e =>
    rw [result] at h
    cases h
    exact ⟨e, rfl, own e result⟩

theorem checkDepth {larger : Option Nat} (above : ∀ n, larger = some n → limit ≤ n) {depth : Nat}
    {offset : UInt32} {next nextDeeper : Unit → Passing α} (appends : (nextDeeper ()).Appends)
    (rest : depth < limit → (next ()).Cut limit (nextDeeper ())) :
    Passing.Cut limit
      (Stateful.ofExcept (Scoping.checkDepth (some limit) depth offset) >>= next)
      (Stateful.ofExcept (Scoping.checkDepth larger depth offset) >>= nextDeeper) := by
  by_cases full : limit ≤ depth
  · have refused : Scoping.checkDepth (some limit) depth offset =
        .error (.recursionLimitExceeded limit offset) := if_pos full
    have after := Passing.Appends.bind (.ofExcept (Scoping.checkDepth larger depth offset))
      fun _ => appends
    rw [refused]
    exact ⟨after, fun s => .early offset _ (after.suffix s)⟩
  · have entered : Scoping.checkDepth (some limit) depth offset = .ok () := if_neg full
    have enteredDeeper : Scoping.checkDepth larger depth offset = .ok () := by
      cases larger with
      | none => rfl
      | some n =>
        have room := above n rfl
        exact if_neg (by omega)
    rw [entered, enteredDeeper]
    exact rest (by omega)

end Passing.Cut

namespace Scoping

variable {functions : Functions} {limit depth : Nat} {larger : Option Nat}
  {callee deeper : Nat → Expr → Valuation → Passing Value}

theorem cut_evalArgs {es : List Expr} {values : Valuation}
    (each : ∀ e ∈ es, ∀ values, Passing.Cut limit
      ((dynamic functions).evalWith (some limit) callee depth e values)
      ((dynamic functions).evalWith larger deeper depth e values)) :
    Passing.Cut limit ((dynamic functions).evalArgs (some limit) callee depth es values)
      ((dynamic functions).evalArgs larger deeper depth es values) := by
  induction es with
  | nil => exact .done _
  | cons e es ih =>
    obtain ⟨first, rest⟩ := List.forall_mem_cons.mp each
    exact .bind (first values) fun _ => .bind (ih rest) fun _ => .done _

theorem cut_evalBindings {bs : List (Token × Expr)} {values : Valuation}
    (each : ∀ b ∈ bs, ∀ values, Passing.Cut limit
      ((dynamic functions).evalWith (some limit) callee depth b.2 values)
      ((dynamic functions).evalWith larger deeper depth b.2 values)) :
    Passing.Cut limit ((dynamic functions).evalBindings (some limit) callee depth bs values)
      ((dynamic functions).evalBindings larger deeper depth bs values) := by
  induction bs generalizing values with
  | nil => exact .done _
  | cons b bs ih =>
    obtain ⟨first, rest⟩ := List.forall_mem_cons.mp each
    exact .bind (first values) fun v =>
      .bind (.ofExcept (Valuation.bind_unlimited values b.1 v)) fun _ => ih rest

variable (above : ∀ n, larger = some n → limit ≤ n)
  (appends : ∀ e values, (deeper (depth + 1) e values).Appends)
  (calls : depth < limit → ∀ e values,
    Passing.Cut limit (callee (depth + 1) e values) (deeper (depth + 1) e values))

include above appends calls

theorem cut_callWith (t : Token) (given : Nat) {args argsDeeper : Passing (List Value)}
    (arguments : args.Cut limit argsDeeper) (values : Valuation) :
    Passing.Cut limit
      ((dynamic functions).callWith (some limit) callee depth t given args values)
      ((dynamic functions).callWith larger deeper depth t given argsDeeper values) := by
  unfold callWith
  split
  next b _ => exact .bind arguments fun vs => .builtin b vs t.offset
  next =>
    split
    next d _ =>
      refine .bind arguments fun vs => .checkDepth above ?_ fun room => ?_
      · exact .bind (.ofExcept _) fun inner => appends d.body inner
      · exact .bind (.ofExcept (Valuation.bindAll_unlimited values _)) fun inner =>
          calls room d.body inner
    next => exact .error (functions.callError_unlimited _ _ _)

theorem cut_evalWith (e : Expr) (values : Valuation) :
    Passing.Cut limit ((dynamic functions).evalWith (some limit) callee depth e values)
      ((dynamic functions).evalWith larger deeper depth e values) := by
  induction e using Expr.induction generalizing values with
  | literal v => exact .done v
  | unary op t e operand =>
    exact .bind (operand values) fun v => .ofExcept (op.apply_unlimited v t.offset)
  | binary op t l r left right =>
    exact .bind (left values) fun v => .bind (right values) fun w =>
      .ofExcept (op.apply_unlimited v w t.offset)
  | cond c y n i j condition yes no =>
    refine .bind (condition values) fun v => ?_
    split
    · exact yes values
    · exact no values
    · refine .error ?_
      rintro ⟨limit, cause⟩
      cases cause
  | letIn bs e bindings body => exact .bind (cut_evalBindings bindings) fun inner => body inner
  | var t => exact .ofExcept (Valuation.read_unlimited values t)
  | function t ps e _ =>
    refine .error ?_
    rintro ⟨limit, cause⟩
    cases cause
  | call t es args =>
    exact cut_callWith above appends calls t es.length (cut_evalArgs args) values

omit appends calls

theorem cut_evalWithin {n more : Nat} (enough : limit - depth ≤ n) (enoughMore : limit - depth ≤ more)
    (e : Expr) (values : Valuation) :
    Passing.Cut limit ((dynamic functions).evalWithin (some limit) n depth e values)
      ((dynamic functions).evalWithin larger more depth e values) := by
  induction more generalizing n depth e values with
  | zero =>
    have room : ¬ depth < limit := by omega
    cases n with
    | zero => exact cut_evalWith above (fun _ _ => .fail _) (fun free => absurd free room) e values
    | succ n => exact cut_evalWith above (fun _ _ => .fail _) (fun free => absurd free room) e values
  | succ more ih =>
    have appends : ∀ e values,
        ((dynamic functions).evalWithin larger more (depth + 1) e values).Appends :=
      appends_evalWithin more (depth + 1)
    cases n with
    | zero =>
      have room : ¬ depth < limit := by omega
      exact cut_evalWith above appends (fun free => absurd free room) e values
    | succ n =>
      exact cut_evalWith above appends
        (fun free e values => ih (by omega) (by omega) e values) e values

end Scoping

end LetLang
