import LetLang.Proofs.Termination

/-!
# The depth limit

An evaluation never has more calls active than the limit allows, and only one that reaches the limit
can tell it from a larger one.
-/

namespace LetLang

namespace Machine

def limitedTo (m : Machine) (limit : Option Nat) : Machine := { m with calls := .ofLimit limit }

def note (m : Machine) (event : Event) : Machine := { m with trace := event :: m.trace }

end Machine

namespace Expr

structure Enters (t : Token) (es : List Expr) (m : Machine) (d : Declaration) (vs : List Value)
    (inside : Machine) : Prop where
  free : Builtin.lookup t.lexeme es.length = none
  declared : m.environment.declaration? t.lexeme es.length = some d
  entered : ∃ middle calls, evalArgs Run.eval es (m.note (.beginCall t.lexeme es.length)) =
    (.ok vs, middle) ∧ middle.calls.push ⟨d.name.lexeme, d.arity, t.offset⟩ = .ok calls ∧
      inside = { middle with calls }

/-- The evaluation of an expression on a machine starts, by itself, that of a part or of a function
body on another machine. -/
inductive Starts : Expr → Machine → Expr → Machine → Prop where
  | operand (op : UnaryOp) (t : Token) (e : Expr) (m : Machine) : Starts (.unary op t e) m e m
  | left (op : BinaryOp) (t : Token) (l r : Expr) (m : Machine) : Starts (.binary op t l r) m l m
  | right {op : BinaryOp} {t : Token} {l r : Expr} {m middle : Machine} {v : Value}
      (first : Run.eval l m = (.ok v, middle)) : Starts (.binary op t l r) m r middle
  | condition (c y n : Expr) (i j : UInt32) (m : Machine) : Starts (.cond c y n i j) m c m
  | branch {c y n : Expr} {i j : UInt32} {m middle : Machine} {b : Bool}
      (first : Run.eval c m = (.ok (.boolean b), middle)) :
      Starts (.cond c y n i j) m (if b then y else n) middle
  | value {before after : List (Token × Expr)} {t : Token} {e body : Expr} {m middle : Machine}
      {g : Guard} (first : evalBindings Run.eval before (⟨[], false⟩, m) = (.ok (), g, middle)) :
      Starts (.letIn (before ++ (t, e) :: after) body) m e middle
  | body {bs : List (Token × Expr)} {e : Expr} {m middle : Machine} {g : Guard}
      (first : evalBindings Run.eval bs (⟨[], false⟩, m) = (.ok (), g, middle)) :
      Starts (.letIn bs e) m e middle
  | argument {t : Token} {before after : List Expr} {e : Expr} {m middle : Machine}
      {vs : List Value} (first : evalArgs Run.eval before
        (m.note (.beginCall t.lexeme (before ++ e :: after).length)) = (.ok vs, middle)) :
      Starts (.call t (before ++ e :: after)) m e middle
  | callee {t : Token} {es : List Expr} {d : Declaration} {vs : List Value}
      {m inside middle : Machine} {g : Guard} (entered : Enters t es m d vs inside)
      (bound : Scoped.bindAll (d.params.zip vs) (⟨[], true⟩, inside) = (.ok (), g, middle)) :
      Starts (.call t es) m d.body middle

inductive Passes : Expr → Machine → Machine → Prop where
  | here (e : Expr) (m : Machine) : Passes e m m
  | inside {t : Token} {es : List Expr} {d : Declaration} {vs : List Value} {m inside : Machine}
      (entered : Enters t es m d vs inside) : Passes (.call t es) m inside
  | part {e e' : Expr} {m m' after : Machine} (starts : Starts e m e' m')
      (rest : Passes e' m' after) : Passes e m after

end Expr

structure CallStack.Within (limit : Nat) (calls : CallStack) : Prop where
  bounded : calls.limit = some limit
  depth : calls.depth ≤ limit

theorem CallStack.Within.push {limit : Nat} {calls deeper : CallStack} {f : Frame}
    (within : calls.Within limit) (pushed : calls.push f = .ok deeper) : deeper.Within limit := by
  obtain ⟨bounded, depth, free⟩ := push_bounded within.bounded pushed
  exact ⟨bounded, by omega⟩

namespace Expr

theorem restores_evalArgs_eval (es : List Expr) : (evalArgs Run.eval es).Restores :=
  restores_evalArgs fun e _ => restores_evalWith Run.restores_eval e

theorem undoable_evalBindings_eval (bs : List (Token × Expr)) :
    (evalBindings Run.eval bs).Undoable :=
  undoable_evalBindings fun b _ => restores_evalWith Run.restores_eval b.2

variable {limit : Nat} {e e' : Expr} {m m' : Machine}

theorem Enters.calls {t : Token} {es : List Expr} {d : Declaration} {vs : List Value}
    (entered : Enters t es m d vs m') : ∃ f, m.calls.push f = .ok m'.calls := by
  obtain ⟨middle, calls, evaluated, pushed, rfl⟩ := entered.entered
  obtain ⟨_, kept, _⟩ := restores_evalArgs_eval es _ _ _ evaluated
  rw [kept] at pushed
  exact ⟨_, pushed⟩

theorem Starts.calls (starts : Starts e m e' m') :
    m'.calls = m.calls ∨ ∃ f, m.calls.push f = .ok m'.calls := by
  cases starts with
  | operand | left | condition => exact .inl rfl
  | right first | branch first => exact .inl (Run.restores_eval _ _ _ _ first).2.1
  | value first | body first => exact .inl (undoable_evalBindings_eval _ _ _ _ _ _ first).2.1
  | argument first => exact .inl (restores_evalArgs_eval _ _ _ _ first).2.1
  | callee entered bound =>
    obtain ⟨_, kept, _⟩ := Scoped.Undoable.bindAll _ _ _ _ _ _ bound
    rw [kept]
    exact .inr entered.calls

theorem Starts.within (starts : Starts e m e' m') (within : m.calls.Within limit) :
    m'.calls.Within limit := by
  rcases starts.calls with same | ⟨f, pushed⟩
  · rwa [same]
  · exact within.push pushed

theorem Starts.room_le (starts : Starts e m e' m') (within : m.calls.Within limit) :
    m'.calls.room ≤ m.calls.room := by
  rcases starts.calls with same | ⟨f, pushed⟩
  · exact Nat.le_of_eq (by rw [same])
  · have less := (CallStack.room_push within.bounded pushed).2
    omega

theorem Passes.within (passes : Passes e m m') (within : m.calls.Within limit) :
    m'.calls.Within limit := by
  induction passes with
  | here => exact within
  | inside entered =>
    obtain ⟨f, pushed⟩ := entered.calls
    exact within.push pushed
  | part starts _ ih => exact ih (starts.within within)

end Expr

/-! ### Where the limit is reached -/

theorem Run.withSpan_fst {α : Type} (first last : Event) (act : Run α) (m : Machine) :
    (Run.withSpan first last act m).1 = (act (m.note first)).1 := by
  have opened : Run.emit first m = (.ok (), m.note first) := rfl
  rw [Run.withSpan, Stateful.bind_ok opened]
  rfl

theorem Run.inScope_fst {α : Type} {act : Scoped α} (undoable : act.Undoable) (m : Machine) :
    (Run.inScope false act m).1 = (act (⟨[], false⟩, m)).1 := by
  obtain ⟨_, closed⟩ := Run.inScope_of_undoable undoable (m := m) rfl
  rw [closed]

theorem Run.inCall_fst {α : Type} {act : Scoped α} (undoable : act.Undoable) {m : Machine}
    {f : Frame} {calls : CallStack} (pushed : m.calls.push f = .ok calls) :
    (Run.inCall f act m).1 = (act (⟨[], true⟩, { m with calls })).1 := by
  obtain ⟨_, closed⟩ := Run.inCall_of_undoable undoable pushed rfl
  rw [closed]

theorem Unlimited.ofExcept {α σ : Type} {r : Except Error α} (own : Unlimited r) {s : σ}
    {err : Error} (failed : (Stateful.ofExcept r s).1 = .error (.error err)) : ¬ err.IsLimit := by
  cases r with
  | ok a => cases failed
  | error e =>
    cases failed
    exact own _ rfl

theorem Environment.get_unlimited (env : Environment) (t : Token) : Unlimited (env.get t) :=
  Valuation.read_unlimited env.value? t

theorem Run.builtin_unlimited {b : Builtin} {args : List Value} {offset : UInt32} {m : Machine}
    {err : Error} (failed : (Run.builtin b args offset m).1 = .error (.error err)) :
    ¬ err.IsLimit := by
  have own := b.apply_unlimited args offset m.generator m.console
  dsimp only [Run.builtin] at failed
  cases result : (b.apply args offset m.generator m.console).1 with
  | ok v =>
    rw [result] at failed
    cases failed
  | error e =>
    rw [result] at failed
    cases failed
    exact own _ result

theorem Scoped.bindVariable_unlimited {t : Token} {v : Value} {g : Guard} {m : Machine}
    {err : Error} (failed : (Scoped.bindVariable t v (g, m)).1 = .error (.error err)) :
    ¬ err.IsLimit := by
  rintro ⟨limit, cause⟩
  unfold Scoped.bindVariable Run.bindVariable Environment.set at failed
  by_cases declared : m.environment.isFunction t.lexeme = true
  · simp only [declared, if_true] at failed
    cases failed
    cases cause
  · simp only [declared] at failed
    cases failed

theorem Scoped.bindAll_unlimited {bindings : List (Token × Value)} {g : Guard} {m : Machine}
    {err : Error} (failed : (Scoped.bindAll bindings (g, m)).1 = .error (.error err)) :
    ¬ err.IsLimit := by
  induction bindings generalizing g m with
  | nil => cases failed
  | cons b bindings ih =>
    rcases Stateful.bind_fst_eq_error failed with here | ⟨_, ⟨g', middle⟩, _, there⟩
    · exact bindVariable_unlimited here
    · exact ih there

namespace Expr

variable {callee : Expr → Run Value} {err : Error}

theorem evalArgs_error {es : List Expr} {m : Machine}
    (failed : (evalArgs callee es m).1 = .error (.error err)) :
    ∃ before e after vs middle, es = before ++ e :: after ∧
      evalArgs callee before m = (.ok vs, middle) ∧
        (evalWith callee e middle).1 = .error (.error err) := by
  induction es generalizing m with
  | nil => cases failed
  | cons e es ih =>
    rcases Stateful.bind_fst_eq_error failed with here | ⟨v, middle, first, there⟩
    · exact ⟨[], e, es, [], m, rfl, rfl, here⟩
    · rcases Stateful.bind_fst_eq_error there with others | ⟨_, _, _, never⟩
      · obtain ⟨before, e', after, vs, last, rfl, done, failed⟩ := ih others
        refine ⟨e :: before, e', after, v :: vs, last, rfl, ?_, failed⟩
        rw [evalArgs, Stateful.bind_ok first, Stateful.bind_ok done]
        rfl
      · cases never

theorem evalBindings_error {bs : List (Token × Expr)} {g : Guard} {m : Machine}
    (failed : (evalBindings callee bs (g, m)).1 = .error (.error err)) (limit : err.IsLimit) :
    ∃ before t e after g' middle, bs = before ++ (t, e) :: after ∧
      evalBindings callee before (g, m) = (.ok (), g', middle) ∧
        (evalWith callee e middle).1 = .error (.error err) := by
  induction bs generalizing g m with
  | nil => cases failed
  | cons b bs ih =>
    obtain ⟨t, e⟩ := b
    rcases Stateful.bind_fst_eq_error failed with here | ⟨v, ⟨g₁, middle⟩, first, there⟩
    · exact ⟨[], t, e, bs, g, m, rfl, rfl, here⟩
    · rcases Stateful.bind_fst_eq_error there with refused | ⟨_, ⟨g₂, next⟩, bound, others⟩
      · exact absurd limit (Scoped.bindVariable_unlimited refused)
      · obtain ⟨before, t', e', after, g', last, rfl, done, failed⟩ := ih others
        refine ⟨(t, e) :: before, t', e', after, g', last, rfl, ?_, failed⟩
        rw [evalBindings, Stateful.bind_ok first, Stateful.bind_ok bound, done]

/-- Where the limit ends an evaluation, as many calls are active as it allows. -/
def Reaches (limit room : Nat) (e : Expr) : Prop :=
  ∀ m err, m.calls.Within limit → m.calls.room ≤ room →
    (evalWith Run.eval e m).1 = .error (.error err) → err.IsLimit →
      ∃ after, e.Passes m after ∧ after.calls.depth = limit

variable {limit room : Nat} {m : Machine}

theorem Starts.reaches {e e' : Expr} {m' : Machine} (starts : Starts e m e' m')
    (reaches : Reaches limit room e') (within : m.calls.Within limit) (free : m.calls.room ≤ room)
    (failed : (evalWith Run.eval e' m').1 = .error (.error err)) (cause : err.IsLimit) :
    ∃ after, e.Passes m after ∧ after.calls.depth = limit := by
  have free' := Nat.le_trans (starts.room_le within) free
  obtain ⟨after, passes, full⟩ := reaches m' err (starts.within within) free' failed cause
  exact ⟨after, .part starts passes, full⟩

theorem reaches_binary {op : BinaryOp} {t : Token} {l r : Expr} (left : Reaches limit room l)
    (right : Reaches limit room r) : Reaches limit room (.binary op t l r) := by
  intro m err within free failed cause
  rcases Stateful.bind_fst_eq_error failed with here | ⟨v, middle, first, rest⟩
  · exact (Starts.left op t l r m).reaches left within free here cause
  rw [← Run.eval_eq_evalWith within.bounded] at first
  rcases Stateful.bind_fst_eq_error rest with here | ⟨w, last, _, there⟩
  · exact (Starts.right first).reaches right within free here cause
  · exact absurd cause (Unlimited.ofExcept (op.apply_unlimited v w t.offset) there)

theorem reaches_cond {c y n : Expr} {i j : UInt32} (condition : Reaches limit room c)
    (yes : Reaches limit room y) (no : Reaches limit room n) :
    Reaches limit room (.cond c y n i j) := by
  intro m err within free failed cause
  rcases Stateful.bind_fst_eq_error failed with here | ⟨v, middle, first, rest⟩
  · exact (Starts.condition c y n i j m).reaches condition within free here cause
  rw [← Run.eval_eq_evalWith within.bounded] at first
  match v with
  | .boolean true => exact (Starts.branch first).reaches yes within free rest cause
  | .boolean false => exact (Starts.branch first).reaches no within free rest cause
  | .number _ | .string _ =>
    cases rest
    obtain ⟨limit, cause⟩ := cause
    cases cause

theorem reaches_let {bs : List (Token × Expr)} {e : Expr}
    (bindings : ∀ b ∈ bs, Reaches limit room b.2) (body : Reaches limit room e) :
    Reaches limit room (.letIn bs e) := by
  intro m err within free failed cause
  have undoable : Scoped.Undoable (do
      evalBindings Run.eval bs
      Scoped.lift (evalWith Run.eval e)) :=
    .bind (undoable_evalBindings_eval bs) fun _ => .lift (restores_evalWith Run.restores_eval e)
  rw [evalWith, Run.inScope_fst undoable] at failed
  rcases Stateful.bind_fst_eq_error failed with here | ⟨_, ⟨g', middle⟩, first, there⟩
  · obtain ⟨before, t, e', others, g', middle, rfl, first, failed⟩ := evalBindings_error here cause
    have member : (t, e') ∈ before ++ (t, e') :: others :=
      List.mem_append_right _ List.mem_cons_self
    exact (Starts.value first).reaches (bindings _ member) within free failed cause
  · exact (Starts.body first).reaches body within free there cause

theorem reaches_args {t : Token} {es : List Expr} (args : ∀ e ∈ es, Reaches limit room e)
    (within : m.calls.Within limit) (free : m.calls.room ≤ room)
    (failed : (evalArgs Run.eval es (m.note (.beginCall t.lexeme es.length))).1 =
      .error (.error err)) (cause : err.IsLimit) :
    ∃ after, Passes (.call t es) m after ∧ after.calls.depth = limit := by
  obtain ⟨before, e, others, vs, middle, rfl, first, failed⟩ := evalArgs_error failed
  have member : e ∈ before ++ e :: others := List.mem_append_right _ List.mem_cons_self
  exact (Starts.argument first).reaches (args e member) within free failed cause

theorem reaches_callee {t : Token} {es : List Expr} {d : Declaration} {vs : List Value}
    {middle : Machine} (bodies : ∀ less < room, ∀ e, Reaches limit less e)
    (free : Builtin.lookup t.lexeme es.length = none)
    (declared : m.environment.declaration? t.lexeme es.length = some d)
    (evaluated : evalArgs Run.eval es (m.note (.beginCall t.lexeme es.length)) = (.ok vs, middle))
    (within : m.calls.Within limit) (enough : m.calls.room ≤ room)
    (failed : (Run.inCall ⟨d.name.lexeme, d.arity, t.offset⟩ (do
      Scoped.bindAll (d.params.zip vs)
      Scoped.lift (Run.eval d.body)) middle).1 = .error (.error err)) (cause : err.IsLimit) :
    ∃ after, Passes (.call t es) m after ∧ after.calls.depth = limit := by
  have kept : middle.calls = m.calls := (restores_evalArgs_eval _ _ _ _ evaluated).2.1
  cases pushed : middle.calls.push ⟨d.name.lexeme, d.arity, t.offset⟩ with
  | error e =>
    -- There is no frame left for the call itself, so the limit was reached in front of it.
    obtain ⟨n, bounded, full, _⟩ := CallStack.push_eq_error_iff.mp pushed
    rw [kept] at bounded full
    obtain rfl := Option.some.inj (within.bounded.symm.trans bounded)
    exact ⟨m, .here _ m, Nat.le_antisymm within.depth full⟩
  | ok calls =>
    have entered : Enters t es m d vs { middle with calls } :=
      ⟨free, declared, middle, calls, evaluated, pushed, rfl⟩
    have undoable : Scoped.Undoable (do
        Scoped.bindAll (d.params.zip vs)
        Scoped.lift (Run.eval d.body)) :=
      .bind (.bindAll _) fun _ => .lift (Run.restores_eval d.body)
    rw [Run.inCall_fst undoable pushed] at failed
    rcases Stateful.bind_fst_eq_error failed with refused | ⟨_, ⟨g', bound⟩, opened, inner⟩
    · exact absurd cause (Scoped.bindAll_unlimited refused)
    have starts : Starts (.call t es) m d.body bound := .callee entered opened
    have less : bound.calls.room < room := by
      obtain ⟨_, same, _⟩ := Scoped.Undoable.bindAll _ _ _ _ _ _ opened
      rw [kept] at pushed
      have less := (CallStack.room_push within.bounded pushed).2
      rw [same]
      dsimp only
      omega
    have inside := starts.within within
    have failed : (Run.eval d.body bound).1 = .error (.error err) := inner
    rw [Run.eval_eq_evalWith inside.bounded] at failed
    obtain ⟨after, passes, full⟩ := bodies _ less d.body bound err inside (Nat.le_refl _) failed cause
    exact ⟨after, .part starts passes, full⟩

theorem reaches_call {t : Token} {es : List Expr} (args : ∀ e ∈ es, Reaches limit room e)
    (bodies : ∀ less < room, ∀ e, Reaches limit less e) : Reaches limit room (.call t es) := by
  intro m err within enough failed cause
  rw [evalWith, Run.withSpan_fst] at failed
  unfold callWith at failed
  cases free : Builtin.lookup t.lexeme es.length with
  | some b =>
    rw [free] at failed
    rcases Stateful.bind_fst_eq_error failed with here | ⟨vs, middle, _, there⟩
    · exact reaches_args args within enough here cause
    · exact absurd cause (Run.builtin_unlimited there)
  | none =>
    have known : Run.environment (m.note (.beginCall t.lexeme es.length)) =
      (.ok m.environment, m.note (.beginCall t.lexeme es.length)) := rfl
    rw [free] at failed
    dsimp only at failed
    rw [Stateful.bind_ok known] at failed
    cases declared : m.environment.declaration? t.lexeme es.length with
    | some d =>
      rw [declared] at failed
      rcases Stateful.bind_fst_eq_error failed with here | ⟨vs, middle, evaluated, there⟩
      · exact reaches_args args within enough here cause
      · exact reaches_callee bodies free declared evaluated within enough there cause
    | none =>
      rw [declared] at failed
      cases failed
      exact absurd cause (Functions.callError_unlimited _ _ _ _)

/-- By induction on the room for calls, and inside of it on the expression. -/
theorem reaches (room : Nat) (e : Expr) : Reaches limit room e := by
  induction room using Nat.strongRecOn generalizing e with
  | _ room bodies =>
    induction e using Expr.induction with
    | literal v =>
      intro m err within free failed cause
      cases failed
    | unary op t e operand =>
      intro m err within free failed cause
      rcases Stateful.bind_fst_eq_error failed with here | ⟨v, middle, _, there⟩
      · exact (Starts.operand op t e m).reaches operand within free here cause
      · exact absurd cause (Unlimited.ofExcept (op.apply_unlimited v t.offset) there)
    | binary op t l r left right => exact reaches_binary left right
    | cond c y n i j condition yes no => exact reaches_cond condition yes no
    | letIn bs e bindings body => exact reaches_let bindings body
    | var t =>
      intro m err within free failed cause
      have known : Run.environment m = (.ok m.environment, m) := rfl
      rw [evalWith, Stateful.bind_ok known] at failed
      exact absurd cause (Unlimited.ofExcept (m.environment.get_unlimited t) failed)
    | function t ps e _ =>
      intro m err within free failed cause
      cases failed
      obtain ⟨limit, cause⟩ := cause
      cases cause
    | call t es args => exact reaches_call args fun less fewer e => bodies less fewer e

end Expr

/-! ### Two limits -/

def SameEnd (first second : Except Failure Value × Machine) : Prop :=
  first.1 = second.1 ∧ first.2.effects = second.2.effects

namespace CutAt

variable {limit : Nat} {first second : Except Failure Value × Machine}
  (cut : CutAt limit (first.1, first.2.effects) (second.1, second.2.effects))

include cut

theorem same_end
    (other : ∀ offset, first.1 ≠ .error (.error (.recursionLimitExceeded limit offset))) :
    SameEnd second first := by
  generalize ended : (first.1, first.2.effects) = here at cut
  generalize endedDeeper : (second.1, second.2.effects) = there at cut
  cases cut with
  | same s own =>
    obtain ⟨outcome, effects⟩ := Prod.mk.inj ended
    obtain ⟨outcome', effects'⟩ := Prod.mk.inj endedDeeper
    exact ⟨outcome'.trans outcome.symm, effects'.trans effects.symm⟩
  | early offset outcome printed => exact absurd (Prod.mk.inj ended).1 (other offset)

theorem earlier {larger : Nat} {offset : UInt32}
    (limited : second.1 = .error (.error (.recursionLimitExceeded larger offset))) :
    (∃ offset, first.1 = .error (.error (.recursionLimitExceeded limit offset))) ∧
      first.2.console.lines.reverse <+: second.2.console.lines.reverse := by
  generalize ended : (first.1, first.2.effects) = here at cut
  generalize endedDeeper : (second.1, second.2.effects) = there at cut
  cases cut with
  | same s own =>
    obtain ⟨err, same, other⟩ := own _ ((Prod.mk.inj endedDeeper).1.symm.trans limited)
    cases same
    exact absurd ⟨larger, rfl⟩ other
  | early offset outcome printed =>
    obtain ⟨outcome, effects⟩ := Prod.mk.inj ended
    obtain ⟨_, effects'⟩ := Prod.mk.inj endedDeeper
    rw [← effects, ← effects'] at printed
    exact ⟨⟨offset, outcome⟩, List.reverse_prefix.mpr printed⟩

end CutAt

namespace Run

variable {limit : Nat} (e : Expr) (m : Machine)

theorem cutAt_evalWithin (larger : Option Nat) (above : ∀ n, larger = some n → limit ≤ n) (n : Nat)
    (enough : limit ≤ n) :
    CutAt limit
      ((Run.eval e (m.limitedTo (some limit))).1, (Run.eval e (m.limitedTo (some limit))).2.effects)
      ((e.evalWithin n (m.limitedTo larger)).1, (e.evalWithin n (m.limitedTo larger)).2.effects) := by
  have cut : Passing.Cut limit
      ((Scoping.dynamic m.environment.functions).evalWithin (some limit) limit 0 e
        m.environment.value?)
      ((Scoping.dynamic m.environment.functions).evalWithin larger n 0 e m.environment.value?) :=
    Scoping.cut_evalWithin above (Nat.le_refl limit) enough e _
  have passed : _ = ((Run.eval e (m.limitedTo (some limit))).1, _) :=
    Expr.implements_evalWithin limit e (m.limitedTo (some limit)) ⟨rfl, rfl, rfl, rfl⟩
  have passedDeeper := Expr.implements_evalWithin n e (m.limitedTo larger) ⟨rfl, rfl, rfl, rfl⟩
  exact passed ▸ passedDeeper ▸ cut.cut m.effects

end Run

/-- The depth limit is exact: no more calls are active than it allows, and as many where it is the
limit that ends an evaluation. What ends in another way does so under every larger limit and under
none, as soon as calls are followed that deep. What the limit ends, every smaller limit ends, after
fewer lines. -/
theorem call_limit_exact (e : Expr) (m : Machine) (limit : Nat) :
    (∀ after, e.Passes (m.limitedTo (some limit)) after → after.calls.depth ≤ limit) ∧
      ((∀ offset, (Run.eval e (m.limitedTo (some limit))).1 ≠
          .error (.error (.recursionLimitExceeded limit offset))) →
        (∀ larger, limit ≤ larger →
          SameEnd (Run.eval e (m.limitedTo (some larger))) (Run.eval e (m.limitedTo (some limit)))) ∧
        ∀ n, limit ≤ n →
          SameEnd (e.evalWithin n (m.limitedTo none)) (Run.eval e (m.limitedTo (some limit)))) ∧
      ∀ offset, (Run.eval e (m.limitedTo (some limit))).1 =
          .error (.error (.recursionLimitExceeded limit offset)) →
        (∃ after, e.Passes (m.limitedTo (some limit)) after ∧ after.calls.depth = limit) ∧
        ∀ smaller < limit,
          (∃ offset, (Run.eval e (m.limitedTo (some smaller))).1 =
            .error (.error (.recursionLimitExceeded smaller offset))) ∧
          (Run.eval e (m.limitedTo (some smaller))).2.console.lines.reverse <+:
            (Run.eval e (m.limitedTo (some limit))).2.console.lines.reverse := by
  have rest : (m.limitedTo (some limit)).calls.Within limit := ⟨rfl, Nat.zero_le limit⟩
  refine ⟨fun after passes => (passes.within rest).depth, fun other => ⟨?_, ?_⟩, ?_⟩
  · intro larger above
    exact (Run.cutAt_evalWithin e m (some larger) (fun n same => Option.some.inj same ▸ above) larger
      above).same_end other
  · intro n enough
    exact (Run.cutAt_evalWithin e m none (fun _ none => nomatch none) n enough).same_end other
  · intro offset limited
    constructor
    · refine Expr.reaches _ e _ (.recursionLimitExceeded limit offset) rest (Nat.le_refl _) ?_
        ⟨limit, rfl⟩
      rwa [← Run.eval_eq_evalWith rest.bounded]
    · intro smaller below
      have above : smaller ≤ limit := Nat.le_of_lt below
      exact (Run.cutAt_evalWithin e m (some limit) (fun n same => Option.some.inj same ▸ above) limit
        above).earlier limited

/-- A function that prints and calls itself for ever, under the limits 2 and 1, and a call that no
limit hinders. -/
theorem call_limit_exact_loop :
    let loop : Declaration := ⟨⟨.identifier, "loop", none, 9, 0⟩, [⟨.identifier, "x", none, 14, 1⟩],
      .call ⟨.identifier, "loop", none, 20, 2⟩
        [.call ⟨.identifier, "print", none, 25, 3⟩ [.var ⟨.identifier, "x", none, 31, 4⟩]]⟩
    let e : Expr := .call ⟨.identifier, "loop", none, 36, 5⟩ [.literal (.string "a")]
    let simple : Expr := .call ⟨.identifier, "print", none, 36, 5⟩ [.literal (.string "a")]
    let start : Machine := .ofSettings .testRun (.ofSymbols ⟨.initial, 6⟩) []
    let m := (Run.registerAll [loop] start).2
    (Run.eval e (m.limitedTo (some 2))).1 = .error (.error (.recursionLimitExceeded 2 20)) ∧
      (∃ after, e.Passes (m.limitedTo (some 2)) after ∧ after.calls.depth = 2) ∧
      (∃ offset, (Run.eval e (m.limitedTo (some 1))).1 =
        .error (.error (.recursionLimitExceeded 1 offset))) ∧
      (Run.eval simple (m.limitedTo (some 0))).1 = .ok (.string "a") ∧
      SameEnd (simple.evalWithin 7 (m.limitedTo none)) (Run.eval simple (m.limitedTo (some 0))) := by
  intro loop e simple start m
  have limited : (Run.eval e (m.limitedTo (some 2))).1 =
      .error (.error (.recursionLimitExceeded 2 20)) := by decide +kernel
  have printed : (Run.eval simple (m.limitedTo (some 0))).1 = .ok (.string "a") := by decide +kernel
  obtain ⟨_, _, cut⟩ := call_limit_exact e m 2
  obtain ⟨_, free, _⟩ := call_limit_exact simple m 0
  obtain ⟨reached, smaller⟩ := cut 20 limited
  obtain ⟨_, deeper⟩ := free fun offset same => nomatch printed.symm.trans same
  exact ⟨limited, reached, (smaller 1 (by decide)).1, printed, deeper 7 (by decide)⟩

end LetLang
