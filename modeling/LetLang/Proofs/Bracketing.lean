import LetLang.Proofs.Restoration

/-!
# Events in brackets

Read as brackets, the events of an evaluation are well nested: what was opened last is closed first,
and at the end nothing is open, however the evaluation ends.
-/

namespace LetLang

variable {α β : Type}

inductive Bracket where
  | call
  | binding (name : String)
deriving DecidableEq

namespace Event

/-- The open brackets behind an event, the innermost first. Only the innermost one can be closed. -/
def read (opened : List Bracket) : Event → Option (List Bracket)
  | beginCall _ _ => some (.call :: opened)
  | endCall =>
    match opened with
    | .call :: rest => some rest
    | _ => none
  | bind name _ => some (.binding name :: opened)
  | unbind name _ =>
    match opened with
    | .binding other :: rest => if other = name then some rest else none
    | _ => none
  | _ => none

def readAll (opened : List Bracket) (word : List Event) : Option (List Bracket) :=
  word.foldlM read opened

/-- The word leads from the open brackets `opened` to those of `after`. A removal tells how many
bindings of its name are left: the open ones, and those that were active before. -/
inductive Nested (active : String → Nat) : List Bracket → List Event → List Bracket → Prop where
  | nil (opened : List Bracket) : Nested active opened [] opened
  | beginCall {opened after : List Bracket} {word : List Event} (function : String) (arity : Nat)
      (rest : Nested active (.call :: opened) word after) :
      Nested active opened (.beginCall function arity :: word) after
  | endCall {opened after : List Bracket} {word : List Event} (rest : Nested active opened word after) :
      Nested active (.call :: opened) (.endCall :: word) after
  | bind {opened after : List Bracket} {word : List Event} (name : String) (v : Value)
      (rest : Nested active (.binding name :: opened) word after) :
      Nested active opened (.bind name v :: word) after
  | unbind {opened after : List Bracket} {word : List Event} (name : String)
      (rest : Nested active opened word after) :
      Nested active (.binding name :: opened)
        (.unbind name (opened.count (.binding name) + active name) :: word) after

namespace Nested

variable {active : String → Nat} {opened middle after : List Bracket} {word : List Event}

theorem append {rest : List Event} (first : Nested active opened word middle)
    (second : Nested active middle rest after) : Nested active opened (word ++ rest) after := by
  induction first with
  | nil => exact second
  | beginCall function arity _ ih => exact .beginCall function arity (ih second)
  | endCall _ ih => exact .endCall (ih second)
  | bind name v _ ih => exact .bind name v (ih second)
  | unbind name _ ih => exact .unbind name (ih second)

theorem readAll (nested : Nested active opened word after) :
    Event.readAll opened word = some after := by
  induction nested with
  | nil => rfl
  | beginCall _ _ _ ih | endCall _ ih | bind _ _ _ ih => exact ih
  | unbind name rest ih =>
    rw [Event.readAll, List.foldlM_cons, read, if_pos rfl]
    exact ih

theorem depth {past rest : List Event} {name : String} {depth : Nat}
    (nested : Nested active opened word after) (split : word = past ++ .unbind name depth :: rest) :
    ∃ left, Event.readAll opened (past ++ [.unbind name depth]) = some left ∧
      depth = left.count (.binding name) + active name := by
  induction nested generalizing past with
  | nil => simp at split
  | beginCall _ _ _ ih | endCall _ ih | bind _ _ _ ih =>
    obtain ⟨_, same⟩ | ⟨past, rfl, same⟩ := List.cons_eq_append_iff.mp split
    · cases same
    · exact ih same
  | @unbind opened _ _ other _ ih =>
    have closed : read (.binding other :: opened)
        (.unbind other (opened.count (.binding other) + active other)) = some opened := if_pos rfl
    obtain ⟨rfl, same⟩ | ⟨past, rfl, same⟩ := List.cons_eq_append_iff.mp split
    · obtain ⟨⟨rfl, rfl⟩, rfl⟩ := same
      refine ⟨opened, ?_, rfl⟩
      rw [Event.readAll, List.nil_append, List.foldlM_cons, closed]
      rfl
    · obtain ⟨left, read, count⟩ := ih same
      refine ⟨left, ?_, count⟩
      rw [Event.readAll, List.cons_append, List.foldlM_cons, closed]
      exact read

end Nested

end Event

namespace Environment

variable {active : String → Nat} {opened : List Bracket} {env after : Environment}

def Tracks (active : String → Nat) (opened : List Bracket) (env : Environment) : Prop :=
  ∀ name, env.bindingDepth name = opened.count (.binding name) + active name

theorem tracks_self (env : Environment) : env.Tracks env.bindingDepth [] := fun name => by
  rw [List.count_nil, Nat.zero_add]

theorem Tracks.call (tracks : env.Tracks active opened) : env.Tracks active (.call :: opened) :=
  fun name => by rw [List.count_cons_of_ne (by simp), tracks name]

theorem Tracks.set (tracks : env.Tracks active opened) {t : Token} {v : Value}
    (set : env.set t v = (.ok (), after)) : after.Tracks active (.binding t.lexeme :: opened) := by
  obtain ⟨_, rfl⟩ := set_eq_ok_iff.mp set
  intro name
  have before := tracks name
  unfold bindingDepth at before ⊢
  rw [Variables.depth_eq_length] at before ⊢
  rw [Variables.values_push]
  by_cases hit : name = t.lexeme
  · subst hit
    rw [if_pos rfl, List.length_cons, List.count_cons_self]
    omega
  · rw [if_neg hit, List.count_cons_of_ne (by simpa using Ne.symm hit)]
    exact before

/-- Binding the tokens, the last of the list first, leads from `before` to `now`. -/
inductive Stacked : List Token → Environment → Environment → Prop where
  | nothing (env : Environment) : Stacked [] env env
  | binding {t : Token} {ts : List Token} {v : Value} {before middle now : Environment}
      (below : Stacked ts before middle) (set : middle.set t v = (.ok (), now)) :
      Stacked (t :: ts) before now

theorem Stacked.trans {ts us : List Token} {before middle now : Environment}
    (upper : Stacked ts middle now) (lower : Stacked us before middle) :
    Stacked (ts ++ us) before now := by
  induction upper with
  | nothing => exact lower
  | binding _ set ih => exact .binding (ih lower) set

end Environment

def Guard.brackets (bound : List Token) : List Bracket := bound.map fun t => .binding t.lexeme

theorem Environment.Tracks.stacked {active : String → Nat} {opened : List Bracket} {ts : List Token}
    {before now : Environment} (tracks : before.Tracks active opened) (stacked : Stacked ts before now) :
    now.Tracks active (Guard.brackets ts ++ opened) := by
  induction stacked with
  | nothing => exact tracks
  | binding _ set ih => exact (ih tracks).set set

open Event (Nested)
open Environment (Stacked)

/-- What `act` adds to the events opens and closes brackets in turn. -/
def Run.Brackets (act : Run α) : Prop :=
  ∀ active opened m outcome after, m.environment.Tracks active opened → act m = (outcome, after) →
    ∃ word, after.events = m.events ++ word ∧ Nested active opened word opened

namespace Run.Brackets

theorem of_trace {act : Run α} (same : ∀ m, (act m).2.trace = m.trace) : act.Brackets := by
  intro active opened m outcome after _ h
  have silent : after.events = m.events := by
    rw [Machine.events, Machine.events, ← same m, h]
  exact ⟨[], by rw [silent, List.append_nil], .nil opened⟩

theorem done (a : α) : Run.Brackets (Stateful.done a) := of_trace fun _ => rfl

theorem fail (f : Failure) : Run.Brackets (α := α) (Stateful.fail f) := of_trace fun _ => rfl

theorem ofExcept (r : Except Error α) : Run.Brackets (Stateful.ofExcept r) := by
  cases r with
  | ok a => exact done a
  | error e => exact fail (.error e)

theorem environment : Run.Brackets Run.environment := of_trace fun _ => rfl

theorem builtin (b : Builtin) (args : List Value) (offset : UInt32) :
    Run.Brackets (Run.builtin b args offset) := of_trace fun _ => rfl

theorem bind {act : Run α} {next : α → Run β} (restores : act.Restores) (first : act.Brackets)
    (rest : ∀ a, (next a).Brackets) : Run.Brackets (act >>= next) := by
  intro active opened m outcome after tracks h
  rcases called : act m with ⟨result, middle⟩
  obtain ⟨environment, _, _⟩ := restores m result middle called
  obtain ⟨word, events, nested⟩ := first active opened m result middle tracks called
  cases result with
  | ok a =>
    rw [Stateful.bind_ok called] at h
    rw [← environment] at tracks
    obtain ⟨word', events', nested'⟩ := rest a active opened middle outcome after tracks h
    exact ⟨word ++ word', by rw [events', events, List.append_assoc], nested.append nested'⟩
  | error f =>
    rw [Stateful.bind_error called] at h
    cases h
    exact ⟨word, events, nested⟩

theorem inSpan {act : Run α} (inner : act.Brackets) (function : String) (arity : Nat) :
    Run.Brackets (Run.withSpan (.beginCall function arity) .endCall act) := by
  intro active opened m outcome after tracks h
  let inside : Machine := { m with trace := .beginCall function arity :: m.trace }
  have begun : Run.emit (.beginCall function arity) m = (.ok (), inside) := rfl
  rcases called : act inside with ⟨result, middle⟩
  obtain ⟨word, events, nested⟩ :=
    inner active (.call :: opened) inside result middle tracks.call called
  rw [Run.withSpan, Stateful.bind_ok begun] at h
  simp only [Stateful.guarded, called, Run.emit] at h
  cases h
  refine ⟨.beginCall function arity :: (word ++ [.endCall]), ?_,
    .beginCall function arity (nested.append (.endCall (.nil opened)))⟩
  simp only [Machine.events, inside, List.reverse_cons] at events ⊢
  rw [events, List.append_assoc, List.append_assoc, List.singleton_append]

end Run.Brackets

/-- `act` notes every binding that it makes, and leaves the brackets of its notes open. -/
def Scoped.Opens (act : Scoped α) : Prop :=
  ∀ active opened g m outcome g' after, m.environment.Tracks active opened →
    act (g, m) = (outcome, g', after) →
      ∃ bound word, g' = { g with bound := bound ++ g.bound } ∧
        Stacked bound m.environment after.environment ∧ after.events = m.events ++ word ∧
        Nested active opened word (Guard.brackets bound ++ opened)

namespace Scoped.Opens

theorem done (a : α) : Scoped.Opens (Stateful.done a) := by
  rintro active opened g m outcome g' after _ ⟨⟩
  exact ⟨[], [], rfl, .nothing _, by rw [List.append_nil], .nil opened⟩

theorem lift {act : Run α} (restores : act.Restores) (inner : act.Brackets) :
    Scoped.Opens (Scoped.lift act) := by
  intro active opened g m outcome g' after tracks h
  rcases called : act m with ⟨result, middle⟩
  obtain ⟨environment, _, _⟩ := restores m result middle called
  obtain ⟨word, events, nested⟩ := inner active opened m result middle tracks called
  simp only [Scoped.lift, called] at h
  cases h
  exact ⟨[], word, rfl, environment ▸ .nothing _, events, nested⟩

theorem bindVariable (t : Token) (v : Value) : Scoped.Opens (Scoped.bindVariable t v) := by
  intro active opened g m outcome g' after _ h
  cases outcome with
  | ok =>
    obtain ⟨environment, set, rfl, rfl⟩ := Scoped.bindVariable_ok h
    refine ⟨[t], [.bind t.lexeme v], rfl, .binding (.nothing _) set, ?_, .bind _ _ (.nil _)⟩
    exact List.reverse_cons
  | error f =>
    obtain ⟨rfl, rfl⟩ := Prod.mk.inj (Scoped.bindVariable_error h)
    exact ⟨[], [], rfl, .nothing _, by rw [List.append_nil], .nil opened⟩

theorem bind {act : Scoped α} {next : α → Scoped β} (first : act.Opens)
    (rest : ∀ a, (next a).Opens) : Scoped.Opens (act >>= next) := by
  intro active opened g m outcome g' after tracks h
  rcases called : act (g, m) with ⟨result, g₁, middle⟩
  obtain ⟨bound, word, rfl, stacked, events, nested⟩ :=
    first active opened g m result g₁ middle tracks called
  cases result with
  | ok a =>
    rw [Stateful.bind_ok called] at h
    obtain ⟨bound', word', rfl, stacked', events', nested'⟩ :=
      rest a active _ _ middle outcome g' after (tracks.stacked stacked) h
    refine ⟨bound' ++ bound, word ++ word', by simp, stacked'.trans stacked, ?_, ?_⟩
    · rw [events', events, List.append_assoc]
    · rw [Guard.brackets, List.map_append, List.append_assoc]
      exact nested.append nested'
  | error f =>
    rw [Stateful.bind_error called] at h
    cases h
    exact ⟨bound, word, rfl, stacked, events, nested⟩

theorem bindAll (bindings : List (Token × Value)) : Scoped.Opens (Scoped.bindAll bindings) := by
  induction bindings with
  | nil => exact done ()
  | cons binding rest ih => exact bind (bindVariable _ _) fun _ => ih

end Scoped.Opens

/-! ### Closing a scope -/

theorem Run.unbindAll_of_stacked {active : String → Nat} {opened : List Bracket} {bound : List Token}
    {m : Machine} {before : Environment} (stacked : Stacked bound before m.environment)
    (tracks : before.Tracks active opened) :
    ∃ trace word, Run.unbindAll bound m = (.ok (), { m with environment := before, trace }) ∧
      trace.reverse = m.events ++ word ∧
        Nested active (Guard.brackets bound ++ opened) word opened := by
  induction bound generalizing m with
  | nil =>
    cases stacked
    exact ⟨m.trace, [], rfl, by rw [List.append_nil]; rfl, .nil opened⟩
  | cons t ts ih =>
    cases stacked with
    | @binding _ _ v _ middle _ below set =>
      let event : Event := .unbind t.lexeme (middle.bindingDepth t.lexeme)
      let next : Machine := { m with environment := middle, trace := event :: m.trace }
      have step : Run.unbindVariable t m = (.ok (), next) := by
        simp only [Run.unbindVariable, Environment.remove_set set]
        rfl
      obtain ⟨trace, word, closed, events, nested⟩ := ih (m := next) below
      have left : middle.bindingDepth t.lexeme = _ := tracks.stacked below t.lexeme
      refine ⟨trace, event :: word, by rw [Run.unbindAll, Stateful.bind_ok step, closed], ?_, ?_⟩
      · rw [events, Machine.events, List.reverse_cons, List.append_assoc]
        rfl
      · simp only [event, left]
        exact .unbind t.lexeme nested

theorem Run.close_of_stacked {active : String → Nat} {opened : List Bracket} {g : Guard}
    {m : Machine} {before : Environment} (stacked : Stacked g.bound before m.environment)
    (tracks : before.Tracks active opened) :
    ∃ word, (Run.close g m).2.events = m.events ++ word ∧
      Nested active (Guard.brackets g.bound ++ opened) word opened := by
  obtain ⟨trace, word, closed, events, nested⟩ := Run.unbindAll_of_stacked stacked tracks
  refine ⟨word, ?_, nested⟩
  rw [Run.close, Stateful.bind_ok closed, ← events]
  cases g.frame with
  | false => rfl
  | true =>
    simp only [if_true, Run.leaveCall]
    cases m.calls.pop <;> rfl

theorem Run.Brackets.inScope {act : Scoped α} (inner : act.Opens) (frame : Bool) :
    Run.Brackets (Run.inScope frame act) := by
  intro active opened m outcome after tracks h
  rcases called : act (⟨[], frame⟩, m) with ⟨result, g, middle⟩
  obtain ⟨bound, word, rfl, stacked, events, nested⟩ :=
    inner active opened _ m result g middle tracks called
  rw [← List.append_nil bound] at stacked nested
  obtain ⟨word', events', nested'⟩ :=
    Run.close_of_stacked (g := ⟨bound ++ [], frame⟩) stacked tracks
  have ended : after = (Run.close ⟨bound ++ [], frame⟩ middle).2 := by
    have last := Run.inScope_snd frame act m
    rwa [h, called] at last
  refine ⟨word ++ word', ?_, nested.append nested'⟩
  rw [ended, events', events, List.append_assoc]

theorem Run.Brackets.inCall {act : Scoped α} (inner : act.Opens) (f : Frame) :
    Run.Brackets (Run.inCall f act) := by
  intro active opened m outcome after tracks h
  cases pushed : m.calls.push f with
  | error e =>
    rw [Run.inCall_of_refused pushed] at h
    cases h
    exact ⟨[], by rw [List.append_nil], .nil opened⟩
  | ok calls =>
    have entered : Run.enterCall f m = (.ok (), { m with calls }) := by
      simp only [Run.enterCall, pushed]
    rw [Run.inCall, Stateful.bind_ok entered] at h
    exact Run.Brackets.inScope inner true active opened { m with calls } outcome after tracks h

namespace Expr

variable {callee : Expr → Run Value}

theorem brackets_evalArgs {es : List Expr} (restores : ∀ e ∈ es, (evalWith callee e).Restores)
    (each : ∀ e ∈ es, (evalWith callee e).Brackets) : (evalArgs callee es).Brackets := by
  induction es with
  | nil => exact .done _
  | cons e es ih =>
    obtain ⟨first, rest⟩ := List.forall_mem_cons.mp each
    obtain ⟨restores, others⟩ := List.forall_mem_cons.mp restores
    exact .bind restores first fun _ => .bind (restores_evalArgs others) (ih others rest) fun _ =>
      .done _

theorem opens_evalBindings {bs : List (Token × Expr)}
    (restores : ∀ b ∈ bs, (evalWith callee b.2).Restores)
    (each : ∀ b ∈ bs, (evalWith callee b.2).Brackets) : (evalBindings callee bs).Opens := by
  induction bs with
  | nil => exact .done _
  | cons b bs ih =>
    obtain ⟨first, rest⟩ := List.forall_mem_cons.mp each
    obtain ⟨restores, others⟩ := List.forall_mem_cons.mp restores
    exact .bind (.lift restores first) fun v => .bind (.bindVariable b.1 v) fun _ => ih others rest

theorem brackets_callWith (restores : ∀ e, (callee e).Restores) (calls : ∀ e, (callee e).Brackets)
    (t : Token) (given : Nat) {args : Run (List Value)} (argsRestore : args.Restores)
    (arguments : args.Brackets) : (callWith callee t given args).Brackets := by
  unfold callWith
  split
  next b _ => exact .bind argsRestore arguments fun vs => .builtin b vs t.offset
  next =>
    refine .bind .environment .environment fun env => ?_
    split
    next d _ =>
      exact .bind argsRestore arguments fun vs =>
        .inCall (.bind (.bindAll _) fun _ => .lift (restores d.body) (calls d.body)) _
    next => exact .fail _

theorem brackets_evalWith (restores : ∀ e, (callee e).Restores) (calls : ∀ e, (callee e).Brackets)
    (e : Expr) : (evalWith callee e).Brackets := by
  have here : ∀ e, (evalWith callee e).Restores := restores_evalWith restores
  induction e using Expr.induction with
  | literal v => exact .done v
  | unary op t e operand => exact .bind (here e) operand fun v => .ofExcept _
  | binary op t l r left right =>
    exact .bind (here l) left fun v => .bind (here r) right fun w => .ofExcept _
  | cond c y n i j condition yes no =>
    refine .bind (here c) condition fun v => ?_
    split
    · exact yes
    · exact no
    · exact .fail _
  | letIn bs e bindings body =>
    have opening := opens_evalBindings (fun b _ => here b.2) bindings
    exact .inScope (.bind opening fun _ => .lift (here e) body) false
  | var t => exact .bind .environment .environment fun env => .ofExcept _
  | function t ps e _ => exact .fail _
  | call t es args =>
    have arguments := brackets_evalArgs (fun e _ => here e) args
    exact .inSpan (brackets_callWith restores calls t es.length
      (restores_evalArgs fun e _ => here e) arguments) t.lexeme es.length

theorem brackets_evalWithin (n : Nat) (e : Expr) : (e.evalWithin n).Brackets := by
  induction n generalizing e with
  | zero => exact brackets_evalWith (fun _ => .exhausted) (fun _ => .fail _) e
  | succ n ih => exact brackets_evalWith (restores_evalWithin n) ih e

end Expr

/-- The events that an evaluation adds are a well-nested word that leaves nothing open. So bindings
are removed in the reverse order of their making, inside of the call that made them, and each
removal tells how many bindings of its name are left: the open ones, and those from before. -/
theorem trace_well_bracketed (n : Nat) (e : Expr) (m : Machine) :
    ∃ word, (e.evalWithin n m).2.events = m.events ++ word ∧ Event.readAll [] word = some [] ∧
      ∀ past name depth rest, word = past ++ .unbind name depth :: rest →
        ∃ opened, Event.readAll [] (past ++ [.unbind name depth]) = some opened ∧
          depth = opened.count (.binding name) + m.environment.bindingDepth name := by
  obtain ⟨word, events, nested⟩ := Expr.brackets_evalWithin n e _ [] m _ _
    m.environment.tracks_self rfl
  exact ⟨word, events, nested.readAll, fun _ _ _ _ => nested.depth⟩

/-- A binding that outlives the call which made it would cross the bracket of the call. -/
example : Event.readAll []
    [.beginCall "f" 1, .bind "x#0" (.boolean true), .endCall, .unbind "x#0" 0] = none := rfl

end LetLang
