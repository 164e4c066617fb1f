import LetLang.Proofs.Termination
import LetLang.Scope
import Mathlib

/-!
# Guards

A guard can be closed at any point of its life: at its end, by an error or by an abort. Wherever
that is, the environment and the calls are again those on which the guard was opened.
-/

namespace LetLang

variable {α : Type}

/-- The guard `g` was opened on `m` and is still open on the last machine, after it has made so many
bindings itself. -/
inductive Guard.Open : Machine → Nat → Guard → Machine → Prop where
  | opened (m : Machine) : Open m 0 ⟨[], false⟩ m
  | bound {m now after : Machine} {made : Nat} {g g' : Guard} {t : Token} {v : Value}
      (before : Open m made g now)
      (bound : Scoped.bindVariable t v (g, now) = (.ok (), g', after)) : Open m (made + 1) g' after
  | refused {m now after : Machine} {made : Nat} {g g' : Guard} {t : Token} {v : Value} {f : Failure}
      (before : Open m made g now)
      (refused : Scoped.bindVariable t v (g, now) = (.error f, g', after)) : Open m made g' after
  | evaluated {m now : Machine} {made : Nat} {g : Guard} (before : Open m made g now) (e : Expr) :
      Open m made g (Run.eval e now).2
  | closed {m now last : Machine} {made own : Nat} {g inner : Guard} (before : Open m made g now)
      (other : Open now own inner last) : Open m made g (Run.close inner last).2

theorem Undoes.eq_of_nil {now before : Environment} (undone : Undoes [] now before) :
    now = before := by
  cases undone
  rfl

theorem Run.close_of_undoes {g : Guard} {m : Machine} {before : Environment} (frame : g.frame = false)
    (undone : Undoes g.bound m.environment before) :
    ∃ trace, Run.close g m = (.ok (), { m with environment := before, trace }) := by
  obtain ⟨trace, closed⟩ := Run.unbindAll_of_undoes undone
  refine ⟨trace, ?_⟩
  rw [Run.close, Stateful.bind_ok closed, frame]
  rfl

structure Guard.Noted (m : Machine) (made : Nat) (g : Guard) (now : Machine) : Prop where
  frame : g.frame = false
  count : g.bound.length = made
  undone : Undoes g.bound now.environment m.environment
  calls : now.calls = m.calls

theorem Guard.Noted.close {m now : Machine} {made : Nat} {g : Guard} (noted : g.Noted m made now) :
    ∃ trace, Run.close g now =
      (.ok (), { now with environment := m.environment, calls := m.calls, trace }) := by
  obtain ⟨trace, closed⟩ := Run.close_of_undoes noted.frame noted.undone
  exact ⟨trace, by rw [closed, ← noted.calls]⟩

theorem Guard.Open.noted {m now : Machine} {made : Nat} {g : Guard} (live : Open m made g now) :
    g.Noted m made now := by
  induction live with
  | opened m => exact ⟨rfl, rfl, .nothing _, rfl⟩
  | bound _ bound ih =>
    obtain ⟨environment, set, rfl, rfl⟩ := Scoped.bindVariable_ok bound
    exact ⟨ih.frame, congrArg Nat.succ ih.count, .removal (Environment.remove_set set) ih.undone,
      ih.calls⟩
  | refused _ refused ih =>
    obtain ⟨rfl, rfl⟩ := Prod.mk.inj (Scoped.bindVariable_error refused)
    exact ih
  | @evaluated m now _ g _ e ih =>
    obtain ⟨environment, calls, _⟩ := Run.restores_eval e now _ _ rfl
    exact ⟨ih.frame, ih.count, environment ▸ ih.undone, calls.trans ih.calls⟩
  | closed _ _ ih other =>
    obtain ⟨trace, closed⟩ := other.close
    rw [closed]
    exact ⟨ih.frame, ih.count, ih.undone, ih.calls⟩

/-- The computations that are put together from what can be done through an open guard. A failure
stands for an error that is passed on and for an abort alike; it may be caught anywhere. -/
inductive Scoped.Composed : {α : Type} → Scoped α → Prop where
  | done {α : Type} (a : α) : Composed (Stateful.done a)
  | fail {α : Type} (f : Failure) : Composed (Stateful.fail f : Scoped α)
  | boundCount : Composed Scoped.boundCount
  | bindVariable (t : Token) (v : Value) : Composed (Scoped.bindVariable t v)
  | eval (e : Expr) : Composed (Scoped.lift (Run.eval e))
  | inScope {α : Type} {act : Scoped α} (inner : Composed act) :
      Composed (Scoped.lift (Run.inScope false act))
  | attempt {α : Type} {act : Scoped α} (inner : Composed act) : Composed act.attempt
  | bind {α β : Type} {act : Scoped α} {next : α → Scoped β} (first : Composed act)
      (rest : ∀ a, Composed (next a)) : Composed (act >>= next)

theorem Scoped.Composed.bindAll (bindings : List (Token × Value)) :
    (Scoped.bindAll bindings).Composed := by
  induction bindings with
  | nil => exact .done ()
  | cons binding rest ih => exact .bind (.bindVariable _ _) fun _ => ih

theorem Guard.Open.composed {act : Scoped α} (composed : act.Composed) {m now : Machine} {made : Nat}
    {g : Guard} (live : Open m made g now) :
    ∃ own, Open m own (act (g, now)).2.1 (act (g, now)).2.2 := by
  induction composed generalizing m now made g with
  | done | fail | boundCount => exact ⟨made, live⟩
  | bindVariable t v =>
    rcases called : Scoped.bindVariable t v (g, now) with ⟨result, g', after⟩
    cases result with
    | ok => exact ⟨made + 1, live.bound called⟩
    | error f => exact ⟨made, live.refused called⟩
  | eval e => exact ⟨made, live.evaluated e⟩
  | @inScope _ act _ ih =>
    obtain ⟨_, other⟩ := ih (.opened now)
    have after : (Scoped.lift (Run.inScope false act) (g, now)).2.2 = _ :=
      Run.inScope_snd false act now
    rw [after]
    exact ⟨made, live.closed other⟩
  | attempt _ ih => exact ih live
  | @bind _ _ act next _ _ first rest =>
    obtain ⟨middle, live⟩ := first live
    rcases called : act (g, now) with ⟨result, g₁, now₁⟩
    rw [called] at live
    cases result with
    | ok a =>
      rw [Stateful.bind_ok called]
      exact rest a live
    | error f =>
      rw [Stateful.bind_error called]
      exact ⟨middle, live⟩

theorem Guard.Open.inScope {m now : Machine} {made : Nat} {g : Guard} (live : Open m made g now)
    {act : Scoped α} (inner : act.Composed) : Open m made g (Run.inScope false act now).2 := by
  obtain ⟨own, other⟩ := Guard.Open.composed inner (.opened now)
  rw [Run.inScope_snd]
  exact live.closed other

theorem Guard.Open.withBindings {m now : Machine} {made : Nat} {g : Guard} (live : Open m made g now)
    (bindings : List (Token × Value)) {body : Scoped α} (inner : body.Composed) :
    Open m made g (Run.withBindings bindings body now).2 :=
  live.inScope (.bind (.bindAll bindings) fun _ => inner)

/-! ### Actions -/

def Answer.isMade : Answer → Bool
  | bound (.ok _) => true
  | _ => false

theorem Guard.Open.answer {m now : Machine} {made : Nat} {g : Guard} (live : Open m made g now)
    (bound : Nat) (r : Request) : Open m made g (r.answer bound now).2 := by
  cases r with
  | eval e => exact live.evaluated e
  | evalWithBindings bindings body =>
    have composed : Scoped.Composed (do
        let count ← Scoped.boundCount
        let outcome ← (Scoped.lift (Run.eval body)).attempt
        Stateful.done (count, outcome)) :=
      .bind .boundCount fun count => .bind (.attempt (.eval body)) fun outcome => .done _
    have after := live.withBindings bindings composed
    unfold Request.answer
    dsimp only
    split
    next called =>
      rw [called] at after
      exact after
    next called =>
      rw [called] at after
      exact after
  | get | bindingDepth | isUnbound | mode | boundCount | malformed => exact live

theorem Request.isMade_answer (bound : Nat) (r : Request) (m : Machine) :
    (r.answer bound m).1.isMade = false := by
  cases r with
  | evalWithBindings bindings body =>
    unfold Request.answer
    dsimp only
    split <;> rfl
  | eval | get | bindingDepth | isUnbound | mode | boundCount | malformed => rfl

theorem ScopeOutcome.closing_snd (outcome : ScopeOutcome) (g : Guard) (m : Machine) :
    (ScopeOutcome.closing (outcome, g, m)).2 = (Run.close g m).2 := by
  rcases closed : Run.close g m with ⟨fault, last⟩
  unfold ScopeOutcome.closing
  dsimp only
  split
  next again =>
    rw [closed] at again
    exact (Prod.mk.inj again).2.symm
  next again =>
    rw [closed] at again
    exact (Prod.mk.inj again).2.symm

namespace Action

mutual

theorem open_perform {m now after : Machine} {made : Nat} {g g' : Guard}
    {result : Except String Answer} (live : Guard.Open m made g now) (a : Action)
    (performed : a.perform (g, now) = (result, g', after)) :
    ∃ own, Guard.Open m own g' after ∧
      ∀ answer, result = .ok answer → own = made + if answer.isMade then 1 else 0 := by
  cases a with
  | bind t v =>
    rcases called : Scoped.bindVariable t v (g, now) with ⟨bound, g₁, now₁⟩
    simp only [perform, called] at performed
    cases performed
    cases bound with
    | ok =>
      refine ⟨made + 1, live.bound called, ?_⟩
      rintro answer ⟨⟩
      rfl
    | error f =>
      refine ⟨made, live.refused called, ?_⟩
      rintro answer ⟨⟩
      rfl
  | request r =>
    have asked := live.answer g.bound.length r
    rcases called : r.answer g.bound.length now with ⟨answer, now₁⟩
    simp only [perform, called] at performed asked
    cases performed
    refine ⟨made, asked, ?_⟩
    rintro answer ⟨⟩
    have other := r.isMade_answer g.bound.length now
    rw [called] at other
    simp [other]
  | scope actions =>
    -- The inner guard removes what it has bound, so the outer one goes on from where it was.
    rcases called : performAll actions (⟨[], false⟩, now) with ⟨outcome, inner, last⟩
    obtain ⟨own, other, _⟩ := open_performAll (.opened now) actions called
    simp only [perform, called] at performed
    cases performed
    refine ⟨made, ?_, ?_⟩
    · rw [ScopeOutcome.closing_snd]
      exact live.closed other
    · rintro answer ⟨⟩
      cases (ScopeOutcome.closing (outcome, inner, last)).1 <;> rfl
  | abort message =>
    simp only [perform] at performed
    cases performed
    exact ⟨made, live, nofun⟩
termination_by structural a

theorem open_performAll {m now after : Machine} {made : Nat} {g g' : Guard}
    {outcome : ScopeOutcome} (live : Guard.Open m made g now) (actions : List Action)
    (performed : performAll actions (g, now) = (outcome, g', after)) :
    ∃ own, Guard.Open m own g' after ∧
      ∀ answers, outcome = .ok answers → own = made + answers.countP Answer.isMade := by
  cases actions with
  | nil =>
    cases performed
    refine ⟨made, live, ?_⟩
    rintro answers ⟨⟩
    rfl
  | cons a rest =>
    rcases first : a.perform (g, now) with ⟨result, g₁, now₁⟩
    obtain ⟨own, live, count⟩ := open_perform live a first
    simp only [performAll, first] at performed
    cases result with
    | error message =>
      cases performed
      exact ⟨own, live, nofun⟩
    | ok answer =>
      rcases others : performAll rest (g₁, now₁) with ⟨behind, g₂, now₂⟩
      simp only [others] at performed
      cases performed
      obtain ⟨last, live, count'⟩ := open_performAll live rest others
      refine ⟨last, live, fun answers ended => ?_⟩
      cases behind with
      | error message => cases ended
      | ok answers' =>
        cases ended
        have here := count answer rfl
        have there := count' answers' rfl
        rw [List.countP_cons]
        omega
termination_by structural actions

end

end Action

theorem Scoped.bindAll_snd (bindings : List (Token × Value)) (g : Guard) (m : Machine) :
    ∃ environment trace,
      (Scoped.bindAll bindings (g, m)).2.2 = { m with environment, trace } := by
  induction bindings generalizing g m with
  | nil => exact ⟨m.environment, m.trace, rfl⟩
  | cons binding rest ih =>
    obtain ⟨t, v⟩ := binding
    rcases called : Scoped.bindVariable t v (g, m) with ⟨result, g₁, middle⟩
    cases result with
    | ok =>
      obtain ⟨_, _, rfl, rfl⟩ := Scoped.bindVariable_ok called
      obtain ⟨environment, trace, same⟩ := ih _ _
      exact ⟨environment, trace, by rw [Scoped.bindAll, Stateful.bind_ok called, same]⟩
    | error f =>
      obtain ⟨rfl, rfl⟩ := Prod.mk.inj (Scoped.bindVariable_error called)
      refine ⟨middle.environment, middle.trace, ?_⟩
      rw [Scoped.bindAll, Stateful.bind_error called]

theorem Run.withBindings_of_refused {bindings : List (Token × Value)} {m : Machine} {f : Failure}
    {s : Guard × Machine} (refused : Scoped.bindAll bindings (⟨[], false⟩, m) = (.error f, s)) :
    ∃ trace, ∀ (α : Type) (body : Scoped α),
      Run.withBindings bindings body m = (.error f, { m with trace }) := by
  obtain ⟨g, middle⟩ := s
  obtain ⟨own, live⟩ := Guard.Open.composed (.bindAll bindings) (.opened m)
  obtain ⟨environment, trace, same⟩ := Scoped.bindAll_snd bindings ⟨[], false⟩ m
  rw [refused] at live same
  dsimp only at live same
  subst same
  obtain ⟨trace', closed⟩ := live.noted.close
  refine ⟨trace', fun α body => ?_⟩
  have ended : (do Scoped.bindAll bindings; body : Scoped α) (⟨[], false⟩, m) =
    (.error f, g, { m with environment, trace }) := Stateful.bind_error refused
  simp only [Run.withBindings, Run.inScope, ended, closed]

/-- At every point of its life a guard counts the bindings that it has made, a refused one changes
nothing, and closing the guard brings back the environment and the calls on which it was opened.
Lists of actions, with scopes in them and with aborts, only lead to such points, and so does a body
that is composed from what guards do, in a scope of its own or with bindings. If one of these
bindings is refused, the body is not run. -/
theorem guards_restore (m : Machine) :
    (∀ made g now, Guard.Open m made g now →
      Scoped.boundCount (g, now) = (.ok made, g, now) ∧
      (∀ t v f s, Scoped.bindVariable t v (g, now) = (.error f, s) → s = (g, now)) ∧
      ∃ trace, Run.close g now =
        (.ok (), { now with environment := m.environment, calls := m.calls, trace })) ∧
    (∀ actions, ∃ outcome made g now trace,
      Action.performAll actions (⟨[], false⟩, m) = (outcome, g, now) ∧ Guard.Open m made g now ∧
      (∀ answers, outcome = .ok answers → made = answers.countP Answer.isMade) ∧
      m.performScope actions =
        (outcome, { now with environment := m.environment, calls := m.calls, trace })) ∧
    (∀ (α : Type) (body : Scoped α), body.Composed →
      ((Run.inScope false body m).2.environment = m.environment ∧
        (Run.inScope false body m).2.calls = m.calls) ∧
      ∀ bindings, (Run.withBindings bindings body m).2.environment = m.environment ∧
        (Run.withBindings bindings body m).2.calls = m.calls) ∧
    ∀ bindings f s, Scoped.bindAll bindings (⟨[], false⟩, m) = (.error f, s) →
      ∃ trace, ∀ (α : Type) (body : Scoped α),
        Run.withBindings bindings body m = (.error f, { m with trace }) := by
  refine ⟨fun made g now live => ?_, fun actions => ?_, fun α body composed => ?_,
    fun bindings f s => Run.withBindings_of_refused⟩
  · refine ⟨?_, fun t v f s => Scoped.bindVariable_error, live.noted.close⟩
    rw [Scoped.boundCount, live.noted.count]
  · rcases performed : Action.performAll actions (⟨[], false⟩, m) with ⟨outcome, g, now⟩
    obtain ⟨made, live, count⟩ := Action.open_performAll (.opened m) actions performed
    obtain ⟨trace, closed⟩ := live.noted.close
    refine ⟨outcome, made, g, now, trace, rfl, live, fun answers ended => ?_, ?_⟩
    · rw [count answers ended, Nat.zero_add]
    · simp only [Machine.performScope, performed, ScopeOutcome.closing, closed]
  · have own := ((Guard.Open.opened m).inScope composed).noted
    refine ⟨⟨own.undone.eq_of_nil, own.calls⟩, fun bindings => ?_⟩
    have noted := ((Guard.Open.opened m).withBindings bindings composed).noted
    exact ⟨noted.undone.eq_of_nil, noted.calls⟩

/-- In a scope that hides `x`, a binding is refused, an inner scope that hides `x` again is aborted, and
of the bindings for a body the second one is refused. -/
theorem guards_restore_nested :
    let x : Token := ⟨.identifier, "x", none, 0, 0⟩
    let f : Token := ⟨.identifier, "f", none, 2, 1⟩
    let env := { Environment.initial with
      bindings := Variables.empty.push "x" (.string "outer")
      functions := .ofDeclarations [⟨f, [], .var x⟩] }
    let m : Machine := .ofSettings .testRun env []
    let refused : Failure := .error (.functionNameAsVariable "f" 2)
    let actions : List Action := [.bind x (.string "a"), .bind f (.string "b"),
      .scope [.bind x (.string "c"), .abort "stop"],
      .request (.evalWithBindings [(x, .string "d"), (f, .string "e")] (.call f [])),
      .request .boundCount, .request (.get x)]
    (m.performScope actions).1 = .ok [.bound (.ok ()), .bound (.error refused), .aborted "stop",
      .evaluatedWithBindings (.error refused) none, .count 1, .value (.ok (.string "a"))] ∧
      (m.performScope actions).2.environment = env := by
  intro x f env m refused actions
  refine ⟨by cbv, ?_⟩
  obtain ⟨outcome, made, g, now, trace, _, _, _, performed⟩ := (guards_restore m).2.1 actions
  rw [performed]
  rfl

end LetLang
