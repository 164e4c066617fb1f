import LetLang.Proofs.DepthLimit
import LetLang.Proofs.Erasure

/-!
# Evaluation without print

A program from which its calls of `print` are erased ends as before, draws the same random numbers
and prints nothing. Both evaluations go side by side.
-/

namespace LetLang

variable {α β : Type}

def Generator.draw (g : Generator) : Nat → List Binary64 × Generator
  | 0 => ([], g)
  | count + 1 =>
    ((g.draw count).1 ++ [(g.draw count).2.uniform.1], (g.draw count).2.uniform.2)

def Event.isDraw : Event → Bool
  | beginCall function arity => decide (Builtin.lookup function arity = some .rand)
  | _ => false

namespace Machine

/-- Since `start`, each call of `rand` has drawn one of the numbers, in this order. -/
structure Drew (start : Machine) (numbers : List Binary64) (m : Machine) : Prop where
  calls : m.events.countP Event.isDraw = start.events.countP Event.isDraw + numbers.length
  drawn : start.generator.draw numbers.length = (numbers, m.generator)

namespace Drew

variable {start m after : Machine} {numbers : List Binary64}

theorem of_trace (drew : start.Drew numbers m) (generator : after.generator = m.generator)
    (trace : after.trace = m.trace) : start.Drew numbers after := by
  refine ⟨?_, generator ▸ drew.drawn⟩
  rw [events, trace]
  exact drew.calls

theorem note (drew : start.Drew numbers m) {event : Event} (other : event.isDraw = false) :
    start.Drew numbers (m.note event) := by
  refine ⟨?_, drew.drawn⟩
  rw [← drew.calls]
  simp [events, Machine.note, other]

theorem rand (drew : start.Drew numbers m) {event : Event} (draws : event.isDraw = true)
    {number : Binary64} {g : Generator} (drawn : m.generator.uniform = (number, g)) :
    start.Drew (numbers ++ [number]) { m.note event with generator := g } := by
  constructor
  · have before := drew.calls
    simp only [events, List.countP_reverse] at before ⊢
    rw [Machine.note, List.countP_cons_of_pos draws, before, List.length_append,
      List.length_singleton, Nat.add_assoc]
  · rw [List.length_append, List.length_singleton, Generator.draw, drew.drawn, drawn]

end Drew

/-- `quiet` has the functions without `print` and is otherwise where `m` is. Since `start` both have
drawn the same numbers, and `quiet` has printed nothing. -/
structure Erased (start m quiet : Machine) : Prop where
  environment : quiet.environment = m.environment.erasePrint
  calls : quiet.calls = m.calls
  drew : ∃ numbers, start.Drew numbers m ∧ start.Drew numbers quiet
  console : quiet.console = start.console

namespace Erased

variable {start m quiet : Machine}

theorem generator (erased : start.Erased m quiet) : quiet.generator = m.generator := by
  obtain ⟨_, loud, silent⟩ := erased.drew
  exact (Prod.mk.inj (silent.drawn.symm.trans loud.drawn)).2

theorem note (erased : start.Erased m quiet) {event other : Event} (plain : event.isDraw = false)
    (plain' : other.isDraw = false) : start.Erased (m.note event) (quiet.note other) := by
  obtain ⟨numbers, loud, silent⟩ := erased.drew
  exact ⟨erased.environment, erased.calls, ⟨numbers, loud.note plain, silent.note plain'⟩,
    erased.console⟩

theorem withEnvironment (erased : start.Erased m quiet) (env : Environment) :
    start.Erased { m with environment := env } { quiet with environment := env.erasePrint } := by
  obtain ⟨numbers, loud, silent⟩ := erased.drew
  exact ⟨rfl, erased.calls, ⟨numbers, loud.of_trace rfl rfl, silent.of_trace rfl rfl⟩, erased.console⟩

theorem withCalls (erased : start.Erased m quiet) (calls : CallStack) :
    start.Erased { m with calls } { quiet with calls } := by
  obtain ⟨numbers, loud, silent⟩ := erased.drew
  exact ⟨erased.environment, rfl, ⟨numbers, loud.of_trace rfl rfl, silent.of_trace rfl rfl⟩,
    erased.console⟩

theorem printed (erased : start.Erased m quiet) {event : Event} (plain : event.isDraw = false)
    (console : Console) : start.Erased { m.note event with console } quiet := by
  obtain ⟨numbers, loud, silent⟩ := erased.drew
  exact ⟨erased.environment, erased.calls, ⟨numbers, (loud.note plain).of_trace rfl rfl, silent⟩,
    erased.console⟩

end Erased

end Machine

def Stateful.Follows {σ : Type} (related : σ → σ → Prop) (quiet act : Stateful σ α) : Prop :=
  ∀ s t, related s t → (quiet t).1 = (act s).1 ∧ related (act s).2 (quiet t).2

namespace Stateful.Follows

section

variable {σ : Type} {related : σ → σ → Prop}

theorem done (a : α) : Follows related (Stateful.done a) (Stateful.done a) :=
  fun _ _ here => ⟨rfl, here⟩

theorem fail (f : Failure) : Follows (α := α) related (Stateful.fail f) (Stateful.fail f) :=
  fun _ _ here => ⟨rfl, here⟩

theorem ofExcept (r : Except Error α) :
    Follows related (Stateful.ofExcept r) (Stateful.ofExcept r) := by
  cases r with
  | ok a => exact done a
  | error e => exact fail (.error e)

theorem ended {quiet act : Stateful σ α} (follows : Follows related quiet act) {s t after : σ}
    {result : Except Failure α} (here : related s t) (called : act s = (result, after)) :
    ∃ last, quiet t = (result, last) ∧ related after last := by
  obtain ⟨outcome, there⟩ := follows s t here
  rw [called] at outcome there
  exact ⟨(quiet t).2, Prod.ext outcome rfl, there⟩

theorem bind {quiet act : Stateful σ α} {quietNext next : α → Stateful σ β}
    (first : Follows related quiet act) (rest : ∀ a, Follows related (quietNext a) (next a)) :
    Follows related (quiet >>= quietNext) (act >>= next) := by
  intro s t here
  rcases called : act s with ⟨result, s'⟩
  obtain ⟨t', silent, middle⟩ := first.ended here called
  cases result with
  | ok a =>
    rw [bind_ok called, bind_ok silent]
    exact rest a s' t' middle
  | error f =>
    rw [bind_error called, bind_error silent]
    exact ⟨rfl, middle⟩

theorem guarded {quiet act : Stateful σ α} {finish : Stateful σ Unit}
    (inner : Follows related quiet act) (last : Follows related finish finish) :
    Follows related (Stateful.guarded quiet finish) (Stateful.guarded act finish) := by
  intro s t here
  rcases called : act s with ⟨result, s'⟩
  obtain ⟨t', silent, middle⟩ := inner.ended here called
  rcases closed : finish s' with ⟨final, s''⟩
  obtain ⟨t'', closed', after⟩ := last.ended middle closed
  simp only [Stateful.guarded, called, silent, closed, closed']
  cases final with
  | ok => exact ⟨rfl, after⟩
  | error f => exact ⟨rfl, after⟩

end

variable {start : Machine}

theorem emit {event : Event} (plain : event.isDraw = false) :
    Follows start.Erased (Run.emit event) (Run.emit event) :=
  fun _ _ erased => ⟨rfl, erased.note plain plain⟩

theorem environment {quietNext next : Environment → Run α}
    (rest : ∀ env, Follows start.Erased (quietNext env.erasePrint) (next env)) :
    Follows start.Erased (Run.environment >>= quietNext) (Run.environment >>= next) := by
  intro m quiet erased
  have known : (Run.environment >>= quietNext) quiet = quietNext m.environment.erasePrint quiet := by
    rw [← erased.environment]
    rfl
  rw [known]
  exact rest m.environment m quiet erased

theorem builtin {b : Builtin} (noDraw : b ≠ .rand) (noPrint : b ≠ .print) (args : List Value)
    (offset : UInt32) :
    Follows start.Erased (Run.builtin b args offset) (Run.builtin b args offset) := by
  have computed : ∀ m, Run.builtin b args offset m =
      ((b.compute args offset).mapError .error, m) := by
    intro m
    unfold Run.builtin Builtin.apply
    split
    · exact absurd rfl noDraw
    · exact absurd rfl noPrint
    · rfl
  intro m quiet erased
  rw [computed, computed]
  exact ⟨rfl, erased⟩

theorem enterCall (f : Frame) : Follows start.Erased (Run.enterCall f) (Run.enterCall f) := by
  intro m quiet erased
  unfold Run.enterCall
  rw [erased.calls]
  cases m.calls.push f with
  | ok calls => exact ⟨rfl, erased.withCalls calls⟩
  | error e => exact ⟨rfl, erased⟩

theorem leaveCall : Follows start.Erased Run.leaveCall Run.leaveCall := by
  intro m quiet erased
  unfold Run.leaveCall
  rw [erased.calls]
  cases m.calls.pop with
  | ok calls => exact ⟨rfl, erased.withCalls calls⟩
  | error f => exact ⟨rfl, erased⟩

theorem bindVariable (t : Token) (v : Value) :
    Follows start.Erased (Run.bindVariable t v) (Run.bindVariable t v) := by
  intro m quiet erased
  unfold Run.bindVariable
  rw [erased.environment, m.environment.set_erasePrint]
  rcases m.environment.set t v with ⟨outcome, env⟩
  cases outcome with
  | ok _ => exact ⟨rfl, (erased.withEnvironment env).note rfl rfl⟩
  | error e => exact ⟨rfl, erased.withEnvironment env⟩

theorem unbindVariable (t : Token) :
    Follows start.Erased (Run.unbindVariable t) (Run.unbindVariable t) := by
  intro m quiet erased
  unfold Run.unbindVariable
  rw [erased.environment, m.environment.remove_erasePrint]
  rcases m.environment.remove t with ⟨outcome, env⟩
  cases outcome with
  | ok _ => exact ⟨rfl, (erased.withEnvironment env).note rfl rfl⟩
  | error f => exact ⟨rfl, erased.withEnvironment env⟩

theorem unbindAll (bound : List Token) :
    Follows start.Erased (Run.unbindAll bound) (Run.unbindAll bound) := by
  induction bound with
  | nil => exact done ()
  | cons t bound ih => exact bind (unbindVariable t) fun _ => ih

theorem close (g : Guard) : Follows start.Erased (Run.close g) (Run.close g) := by
  refine bind (unbindAll g.bound) fun _ => ?_
  cases g.frame with
  | true => exact leaveCall
  | false => exact done ()

theorem withSpan {first last : Event} (plain : first.isDraw = false) (plain' : last.isDraw = false)
    {quiet act : Run α} (inner : Follows start.Erased quiet act) :
    Follows start.Erased (Run.withSpan first last quiet) (Run.withSpan first last act) :=
  bind (emit plain) fun _ => guarded inner (emit plain')

end Stateful.Follows

def Machine.ErasedUnder (start : Machine) (s quiet : Guard × Machine) : Prop :=
  quiet.1 = s.1 ∧ start.Erased s.2 quiet.2

namespace Scoped

variable {start : Machine}

theorem follows_lift {quiet act : Run α} (inner : Stateful.Follows start.Erased quiet act) :
    Stateful.Follows start.ErasedUnder (Scoped.lift quiet) (Scoped.lift act) := by
  rintro ⟨g, m⟩ ⟨_, silent⟩ ⟨rfl, erased⟩
  obtain ⟨outcome, after⟩ := inner m silent erased
  exact ⟨outcome, rfl, after⟩

theorem follows_bindVariable (t : Token) (v : Value) :
    Stateful.Follows start.ErasedUnder (Scoped.bindVariable t v) (Scoped.bindVariable t v) := by
  rintro ⟨g, m⟩ ⟨_, silent⟩ ⟨rfl, erased⟩
  rcases called : Run.bindVariable t v m with ⟨result, m'⟩
  obtain ⟨silent', quieter, after⟩ :=
    (Stateful.Follows.bindVariable t v).ended erased called
  simp only [Scoped.bindVariable, called, quieter]
  cases result with
  | ok => exact ⟨rfl, rfl, after⟩
  | error f => exact ⟨rfl, rfl, after⟩

theorem follows_bindAll (bindings : List (Token × Value)) :
    Stateful.Follows start.ErasedUnder (Scoped.bindAll bindings) (Scoped.bindAll bindings) := by
  induction bindings with
  | nil => exact .done ()
  | cons binding bindings ih => exact .bind (follows_bindVariable _ _) fun _ => ih

end Scoped

namespace Stateful.Follows

variable {start : Machine}

theorem inScope {quiet act : Scoped α} (inner : Follows start.ErasedUnder quiet act) (frame : Bool) :
    Follows start.Erased (Run.inScope frame quiet) (Run.inScope frame act) := by
  intro m silent erased
  have opened : start.ErasedUnder (⟨[], frame⟩, m) (⟨[], frame⟩, silent) := ⟨rfl, erased⟩
  rcases called : act (⟨[], frame⟩, m) with ⟨result, _, m'⟩
  obtain ⟨⟨g, silent'⟩, quieter, rfl, middle⟩ := inner.ended opened called
  dsimp only at middle called
  rcases closed : Run.close g m' with ⟨final, m''⟩
  obtain ⟨silent'', closed', after⟩ := (close g).ended middle closed
  simp only [Run.inScope, called, quieter, closed, closed']
  cases final with
  | ok => exact ⟨rfl, after⟩
  | error f => exact ⟨rfl, after⟩

theorem inCall {quiet act : Scoped α} (inner : Follows start.ErasedUnder quiet act) (f : Frame) :
    Follows start.Erased (Run.inCall f quiet) (Run.inCall f act) :=
  bind (enterCall f) fun _ => inScope inner true

end Stateful.Follows

/-! ### Evaluation -/

namespace Expr

open Stateful (Follows)

variable {start : Machine} {callee quietCallee : Expr → Run Value}

theorem follows_evalArgs {es : List Expr} (each : ∀ e ∈ es,
      Follows start.Erased (evalWith quietCallee e.erasePrint) (evalWith callee e)) :
    Follows start.Erased (evalArgs quietCallee (erasePrintInArgs es)) (evalArgs callee es) := by
  induction es with
  | nil => exact .done _
  | cons e es ih =>
    obtain ⟨first, rest⟩ := List.forall_mem_cons.mp each
    exact .bind first fun _ => .bind (ih rest) fun _ => .done _

theorem follows_evalBindings {bs : List (Token × Expr)} (each : ∀ b ∈ bs,
      Follows start.Erased (evalWith quietCallee b.2.erasePrint) (evalWith callee b.2)) :
    Follows start.ErasedUnder (evalBindings quietCallee (erasePrintInBindings bs))
      (evalBindings callee bs) := by
  induction bs with
  | nil => exact .done _
  | cons b bs ih =>
    obtain ⟨first, rest⟩ := List.forall_mem_cons.mp each
    exact .bind (Scoped.follows_lift first) fun v =>
      .bind (Scoped.follows_bindVariable b.1 v) fun _ => ih rest

theorem follows_print {t : Token} (printed : t.lexeme = Builtin.print.name) {quiet : Run Value}
    {e : Expr} (inner : Follows start.Erased quiet (evalWith callee e)) :
    Follows start.Erased quiet (evalWith callee (.call t [e])) := by
  intro m silent erased
  have found : Builtin.lookup t.lexeme 1 = some .print := by
    rw [printed]
    rfl
  have plain : (Event.beginCall t.lexeme 1).isDraw = false := by simp [Event.isDraw, found]
  obtain ⟨outcome, after⟩ := inner (m.note (.beginCall t.lexeme 1)) silent
    (erased.printed plain m.console)
  rcases called : evalWith callee e (m.note (.beginCall t.lexeme 1)) with ⟨result, m'⟩
  rw [called] at outcome after
  have opened : Run.emit (.beginCall t.lexeme 1) m = (.ok (), m.note (.beginCall t.lexeme 1)) := rfl
  have whole : evalWith callee (.call t [e]) m = (result, { m'.note .endCall with
      console := match result with
        | .ok v => m'.console.print v.text
        | .error _ => m'.console }) := by
    unfold evalWith Run.withSpan callWith
    rw [List.length_singleton, found, Stateful.bind_ok opened]
    cases result with
    | ok v =>
      have args : evalArgs callee [e] (m.note (.beginCall t.lexeme 1)) = (.ok [v], m') := by
        rw [evalArgs, Stateful.bind_ok called]
        rfl
      simp only [Stateful.guarded, Stateful.bind_ok args]
      rfl
    | error f =>
      have args : evalArgs callee [e] (m.note (.beginCall t.lexeme 1)) = (.error f, m') := by
        rw [evalArgs, Stateful.bind_error called]
      simp only [Stateful.guarded, Stateful.bind_error args]
      rfl
  rw [whole]
  exact ⟨outcome, after.printed rfl _⟩

theorem evalWith_rand {t : Token} (found : Builtin.lookup t.lexeme 0 = some .rand) (m : Machine)
    {number : Binary64} {g : Generator} (drawn : m.generator.uniform = (number, g)) :
    evalWith callee (.call t []) m = (.ok (.number number),
      Machine.note { m.note (.beginCall t.lexeme 0) with generator := g } .endCall) := by
  have opened : Run.emit (.beginCall t.lexeme 0) m = (.ok (), m.note (.beginCall t.lexeme 0)) := rfl
  have applied : Run.builtin .rand [] t.offset (m.note (.beginCall t.lexeme 0)) =
      (.ok (.number number), { m.note (.beginCall t.lexeme 0) with generator := g }) := by
    have same : (m.note (.beginCall t.lexeme 0)).generator.uniform = (number, g) := drawn
    simp only [Run.builtin, Builtin.apply, same]
    rfl
  unfold evalWith Run.withSpan callWith
  rw [List.length_nil, found, Stateful.bind_ok opened]
  have none : evalArgs callee [] (m.note (.beginCall t.lexeme 0)) =
    (.ok [], m.note (.beginCall t.lexeme 0)) := rfl
  simp only [Stateful.guarded, Stateful.bind_ok none, applied]
  rfl

theorem follows_rand {t : Token} (found : Builtin.lookup t.lexeme 0 = some .rand) :
    Follows start.Erased (evalWith quietCallee (.call t [])) (evalWith callee (.call t [])) := by
  intro m silent erased
  have draws : (Event.beginCall t.lexeme 0).isDraw = true := by simp [Event.isDraw, found]
  rcases drawn : m.generator.uniform with ⟨number, g⟩
  have drawn' : silent.generator.uniform = (number, g) := by rw [erased.generator, drawn]
  rw [evalWith_rand found m drawn, evalWith_rand found silent drawn']
  obtain ⟨numbers, loud, quiet⟩ := erased.drew
  refine ⟨rfl, erased.environment, erased.calls, ⟨numbers ++ [number], ?_, ?_⟩, erased.console⟩
  · exact (loud.rand draws drawn).note rfl
  · exact (quiet.rand draws drawn').note rfl

variable (calls : ∀ e, Follows start.Erased (quietCallee e.erasePrint) (callee e))

include calls

theorem follows_callWith (t : Token) {given : Nat}
    (noPrint : Builtin.lookup t.lexeme given ≠ some .print)
    (noDraw : Builtin.lookup t.lexeme given ≠ some .rand) {quietArgs args : Run (List Value)}
    (arguments : Follows start.Erased quietArgs args) :
    Follows start.Erased (callWith quietCallee t given quietArgs) (callWith callee t given args) := by
  unfold callWith
  cases found : Builtin.lookup t.lexeme given with
  | some b =>
    rw [found] at noPrint noDraw
    exact .bind arguments fun vs =>
      .builtin (fun same => noDraw (congrArg some same)) (fun same => noPrint (congrArg some same)) vs _
  | none =>
    refine .environment fun env => ?_
    rw [env.declaration?_erasePrint]
    cases env.declaration? t.lexeme given with
    | some d =>
      exact .bind arguments fun vs =>
        .inCall (.bind (Scoped.follows_bindAll _) fun _ => Scoped.follows_lift (calls d.body)) _
    | none =>
      have error : env.erasePrint.functions.callError t.lexeme given t.offset = _ :=
        env.functions.related_erasePrint.callError t.lexeme given t.offset
      dsimp only [Option.map]
      rw [error]
      exact .fail _

theorem follows_evalWith (e : Expr) :
    Follows start.Erased (evalWith quietCallee e.erasePrint) (evalWith callee e) := by
  induction e using Expr.induction with
  | literal v => exact .done v
  | unary op t e operand => exact .bind operand fun _ => .ofExcept _
  | binary op t l r left right => exact .bind left fun _ => .bind right fun _ => .ofExcept _
  | cond c y n i j condition yes no =>
    refine .bind condition fun v => ?_
    split
    · exact yes
    · exact no
    · exact .fail _
  | letIn bs e bindings body =>
    exact .inScope (.bind (follows_evalBindings bindings) fun _ => Scoped.follows_lift body) false
  | var t =>
    refine .environment fun env => ?_
    rw [env.get_erasePrint]
    exact .ofExcept _
  | function t ps e _ => exact .fail _
  | call t es args =>
    rw [erasePrint]
    rcases callUnlessPrint_cases t es with ⟨printed, e, rfl⟩ | ⟨noPrint, kept⟩
    · have erased : callUnlessPrint t (erasePrintInArgs [e]) = e.erasePrint := if_pos printed
      rw [erased]
      exact follows_print printed (args e List.mem_cons_self)
    · rw [kept]
      by_cases drawn : Builtin.lookup t.lexeme es.length = some .rand
      · obtain rfl : es = [] := List.eq_nil_of_length_eq_zero (Builtin.lookup_some drawn).2.symm
        exact follows_rand drawn
      · rw [evalWith, evalWith, length_erasePrint]
        exact .withSpan (by simpa [Event.isDraw] using drawn) rfl
          (follows_callWith calls t noPrint drawn (follows_evalArgs args))

omit calls

theorem follows_evalWithin (n : Nat) (e : Expr) :
    Follows start.Erased (e.erasePrint.evalWithin n) (e.evalWithin n) := by
  induction n generalizing e with
  | zero => exact follows_evalWith (fun _ => .fail _) e
  | succ n ih => exact follows_evalWith ih e

end Expr

namespace Stateful.Follows

variable {start : Machine}

theorem register (d : Declaration) :
    Follows start.Erased (Run.register d.erasePrint) (Run.register d) := by
  intro m silent erased
  unfold Run.register
  rw [erased.environment, m.environment.register_erasePrint]
  rcases m.environment.register d with ⟨outcome, environment⟩
  cases outcome with
  | ok stored => exact ⟨rfl, (erased.withEnvironment environment).note rfl rfl⟩
  | error f => exact ⟨rfl, erased.withEnvironment environment⟩

theorem registerAll (ds : List Declaration) :
    Follows start.Erased (Run.registerAll (ds.map Declaration.erasePrint)) (Run.registerAll ds) := by
  induction ds with
  | nil => exact done ()
  | cons d ds ih => exact bind (register d) fun _ => ih

theorem eval (e : Expr) : Follows start.Erased (Run.eval e.erasePrint) (Run.eval e) := by
  intro m silent erased
  rw [Run.eval, Run.eval, erased.calls]
  exact Expr.follows_evalWithin m.calls.room e m silent erased

end Stateful.Follows

/-- `quiet` ends as `loud` does. Since `start` both have drawn the same numbers, and `quiet` has
printed nothing. -/
structure EndsSilently (start : Machine) (quiet loud : Except Failure Value × Machine) : Prop where
  outcome : quiet.1 = loud.1
  drew : ∃ numbers, start.Drew numbers loud.2 ∧ start.Drew numbers quiet.2
  console : quiet.2.console = start.console

theorem EndsSilently.of_follows {start m silent : Machine} {quiet act : Run Value}
    (follows : Stateful.Follows start.Erased quiet act) (erased : start.Erased m silent) :
    EndsSilently start (quiet silent) (act m) := by
  obtain ⟨outcome, after⟩ := follows m silent erased
  exact ⟨outcome, after.drew, after.console⟩

/-- A program without its calls of `print` registers, ends and draws as the program does, and prints
nothing, whatever the limit of calls and the state of the generator, and however deep calls are
followed. -/
theorem erasing_print_keeps_results {decls : List Declaration} {start m : Machine}
    (fresh : start.environment.functions = .empty)
    (registered : Run.registerAll decls start = (.ok (), m)) (body : Expr) :
    ∃ quiet, Run.registerAll (decls.map Declaration.erasePrint) start = (.ok (), quiet) ∧
      EndsSilently start (Run.eval body.erasePrint quiet) (Run.eval body m) ∧
      ∀ n, EndsSilently start (body.erasePrint.evalWithin n quiet) (body.evalWithin n m) := by
  have empty : start.environment = start.environment.erasePrint := by
    have none : start.environment.functions.erasePrint = start.environment.functions := by
      rw [fresh]
      rfl
    rw [Environment.erasePrint, none]
  have nothing : start.Drew [] start := ⟨rfl, rfl⟩
  obtain ⟨quiet, silent, erased⟩ := (Stateful.Follows.registerAll decls).ended
    (⟨empty, rfl, ⟨[], nothing, nothing⟩, rfl⟩ : start.Erased start start) registered
  refine ⟨quiet, silent, .of_follows (.eval body) erased, fun n => ?_⟩
  exact .of_follows (Expr.follows_evalWithin n body) erased

/-- `print` stands in an argument of `print`, in a function and in an argument of that function. -/
theorem erasing_print_keeps_results_nested :
    let f : Declaration := ⟨⟨.identifier, "f", none, 9, 0⟩, [⟨.identifier, "x", none, 11, 1⟩],
      .call ⟨.identifier, "print", none, 17, 2⟩ [.binary .concat ⟨.atSign, "@", none, 32, 3⟩
        (.call ⟨.identifier, "print", none, 23, 4⟩ [.var ⟨.identifier, "x", none, 29, 5⟩])
        (.literal (.string "!"))]⟩
    let body : Expr := .call ⟨.identifier, "f", none, 40, 6⟩
      [.call ⟨.identifier, "print", none, 42, 7⟩ [.literal (.string "a")]]
    let start : Machine := .ofSettings .testRun (.ofSymbols ⟨.initial, 8⟩) []
    let m := (Run.registerAll [f] start).2
    (Run.eval body m).2.console.lines = ["a!", "a", "a"] ∧
      ∃ quiet, Run.registerAll [f.erasePrint] start = (.ok (), quiet) ∧
        (Run.eval body.erasePrint quiet).1 = .ok (.string "a!") ∧
        (Run.eval body.erasePrint quiet).2.console.lines = [] := by
  intro f body start m
  have value : (Run.eval body m).1 = .ok (.string "a!") := by decide +kernel
  obtain ⟨quiet, silent, ends, _⟩ :=
    @erasing_print_keeps_results [f] start m rfl rfl body
  refine ⟨by decide +kernel, quiet, silent, ends.outcome.trans value, ?_⟩
  rw [ends.console]
  rfl

end LetLang
