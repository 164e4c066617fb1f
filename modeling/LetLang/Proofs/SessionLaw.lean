import LetLang.Proofs.FunctionTable
import LetLang.Proofs.OrderIndependence

/-!
# The law of sessions

A run registers the declarations in front of the first one that is refused. If none is, the body is
evaluated as it would be on its own, and what it prints comes after all that was printed before.
-/

namespace LetLang

namespace Environment

variable {env after : Environment} {ds : List Declaration}

theorem prefix_accepted_iff {front : List Declaration} :
    front <+: env.accepted ds ↔ front <+: ds ∧ (env.registerEach front).1 = .ok () := by
  -- a beginning that is not empty registers only if its first declaration does
  induction ds generalizing env front with
  | nil =>
    refine ⟨fun empty => ⟨empty, ?_⟩, And.left⟩
    rw [List.prefix_nil.mp empty, registerEach]
  | cons d ds ih =>
    cases front with
    | nil => exact iff_of_true List.nil_prefix ⟨List.nil_prefix, rfl⟩
    | cons first front =>
      rcases registered : env.register d with ⟨outcome, after⟩
      cases outcome with
      | ok stored =>
        rw [accepted_cons_of_ok registered, List.cons_prefix_cons, List.cons_prefix_cons, ih, and_assoc]
        refine and_congr_right fun same => ?_
        rw [same, registerEach_cons_of_ok registered]
      | error f =>
        rw [accepted_cons_of_error registered]
        refine iff_of_false (by simp) ?_
        rintro ⟨front, done⟩
        obtain ⟨rfl, _⟩ := List.cons_prefix_cons.mp front
        rw [registerEach_cons_of_error registered] at done
        cases done

theorem registerEach_adds (env : Environment) (ds : List Declaration) :
    (env.registerEach ds).2.bindings = env.bindings ∧ ∃ more,
      Functions.Related Declaration.Derives (.ofDeclarations (env.accepted ds)) more ∧
        (env.registerEach ds).2.functions.entries = env.functions.entries ++ more.entries := by
  induction ds generalizing env with
  | nil => exact ⟨rfl, .empty, .empty, (List.append_nil _).symm⟩
  | cons d ds ih =>
    rcases registered : env.register d with ⟨outcome, after⟩
    have kept := bindings_perform_register env d
    rw [perform, registered] at kept
    cases outcome with
    | ok stored =>
      obtain ⟨rfl, stores⟩ := stores_of_register (congrArg Prod.fst registered)
      have functions := stores.functions
      rw [perform, registered] at functions
      obtain ⟨bindings, more, derived, added⟩ := ih after
      rw [registerEach_cons_of_ok registered, accepted_cons_of_ok registered]
      refine ⟨bindings.trans kept, ⟨(d.key, d.renamed env.renamer) :: more.entries⟩,
        .cons ⟨rfl, d.derives_renamed env.renamer⟩ derived, ?_⟩
      rw [added, functions, Functions.insert, List.append_assoc, List.singleton_append]
    | error f =>
      have functions := functions_perform_register_of_error (congrArg Prod.fst registered)
      rw [perform, registered] at functions
      rw [registerEach_cons_of_error registered, accepted_cons_of_error registered]
      exact ⟨kept, .empty, .empty, by rw [functions]; exact (List.append_nil _).symm⟩

theorem registerEach_fails (some : env.accepted ds ≠ ds) :
    ∃ middle d rest f, env.registerEach (env.accepted ds) = (.ok (), middle) ∧
      ds = env.accepted ds ++ d :: rest ∧ middle.register d = (.error f, (env.registerEach ds).2) ∧
      (env.registerEach ds).1 = .error f := by
  induction ds generalizing env with
  | nil => exact absurd rfl some
  | cons d ds ih =>
    rcases registered : env.register d with ⟨outcome, after⟩
    cases outcome with
    | ok stored =>
      rw [accepted_cons_of_ok registered] at some ⊢
      obtain ⟨middle, e, rest, f, front, split, refused, failed⟩ :=
        ih fun all => some (congrArg (d :: ·) all)
      rw [registerEach_cons_of_ok registered, registerEach_cons_of_ok registered]
      exact ⟨middle, e, rest, f, front, congrArg (d :: ·) split, refused, failed⟩
    | error f =>
      rw [accepted_cons_of_error registered, registerEach_cons_of_error registered]
      exact ⟨env, d, ds, f, rfl, rfl, registered, rfl⟩

theorem register_error_cases {d : Declaration} {f : Failure}
    (failed : env.register d = (.error f, after)) :
    (∃ e, f = .error e ∧ after = env) ∨
      ∃ g, f = .fault g ∧ g.isOverflow = true ∧ ¬ env.renamer.HasRoom d.params := by
  rcases env.register_cases d with ⟨e, _, same⟩ | ⟨g, r, _, full, same⟩ | ⟨_, _, _, _, same⟩
  · cases same.symm.trans failed
    exact .inl ⟨e, rfl, rfl⟩
  · cases same.symm.trans failed
    exact .inr ⟨g, rfl, Declaration.isOverflow_of_hygienic (congrArg Prod.fst full),
      Declaration.not_hasRoom_of_hygienic full⟩
  · cases same.symm.trans failed

end Environment

namespace Run

theorem eval_console {m m' : Machine} (environment : m'.environment = m.environment)
    (calls : m'.calls = m.calls) (generator : m'.generator = m.generator) (e : Expr) :
    (eval e m).1 = (eval e m').1 ∧ ∃ lines, (eval e m).2.console = m.console.printAll lines ∧
      (eval e m').2.console = m'.console.printAll lines := by
  have passed := Expr.implements_evalWithin m.calls.room e m ⟨rfl, rfl, rfl, rfl⟩
  have passed' := Expr.implements_evalWithin m.calls.room e m' ⟨by rw [environment], by rw [calls],
    by rw [calls], by rw [environment]⟩
  have appends : ((Scoping.dynamic m.environment.functions).evalWithin m.calls.limit m.calls.room
      m.calls.depth e m.environment.value?).Appends := Scoping.appends_evalWithin _ _ e _
  obtain ⟨result, g, lines, shown⟩ := appends m.generator
  rw [Machine.effects, generator, shown] at passed'
  rw [Machine.effects, shown] at passed
  obtain ⟨ended, effects⟩ := Prod.mk.inj passed
  obtain ⟨ended', effects'⟩ := Prod.mk.inj passed'
  unfold eval
  rw [calls]
  exact ⟨ended.symm.trans ended', lines, (congrArg Effects.console effects).symm,
    (congrArg Effects.console effects').symm⟩

end Run

theorem Reporter.foldl_report_collector (errors more : List Error) :
    more.foldl .report (collector errors) = .collector (errors ++ more) := by
  induction more generalizing errors with
  | nil => rw [List.append_nil, List.foldl_nil]
  | cons e more ih => rw [List.foldl_cons, report, ih, List.append_assoc, List.singleton_append]

namespace Session

/-- The body of a program, evaluated with nothing printed before in the environment that a run of
the program leaves behind. -/
def alone (s : Session) (p : Program) : Except Failure Value × Machine :=
  Run.eval p.body (.ofSettings s.settings (s.run p).2.environment [])

structure RunLaw (s : Session) (p : Program) : Prop where
  registered : (s.run p).2.environment = (s.environment.registerEach p.declarations).2
  longest : ∀ front, front <+: s.accepted p ↔
    front <+: p.declarations ∧ (s.environment.registerEach front).1 = .ok ()
  stored : ∃ more, Functions.Related Declaration.Derives (.ofDeclarations (s.accepted p)) more ∧
    (s.run p).2.environment.functions.entries = s.environment.functions.entries ++ more.entries
  kept : ∀ name arity d, s.environment.declaration? name arity = some d →
    (s.run p).2.environment.declaration? name arity = some d
  /-- All declarations are accepted: the body is evaluated, and what it prints is added. -/
  evaluated : s.accepted p = p.declarations →
    (s.run p).1 = (s.alone p).1 ∧
      (s.run p).2.console = s.console.printAll (s.alone p).2.console.lines ∧
      (s.settings.console.sink = .buffer →
        (s.run p).2.output = s.output ++ Console.text (s.alone p).2.console.lines)
  /-- One is refused: its error ends the run, which prints nothing and does not look at the body. -/
  refused : s.accepted p ≠ p.declarations →
    (∃ middle d rest f, s.environment.registerEach (s.accepted p) = (.ok (), middle) ∧
        p.declarations = s.accepted p ++ d :: rest ∧
        middle.register d = (.error f, (s.run p).2.environment) ∧ (s.run p).1 = .error f ∧
        ((∃ e, f = .error e ∧ (s.run p).2.environment = middle) ∨
          ∃ g, f = .fault g ∧ g.isOverflow = true ∧ ¬ middle.renamer.HasRoom d.params)) ∧
      (s.run p).2.console = s.console ∧ (s.run p).2.output = s.output ∧
      ∀ body, s.run { p with body } = s.run p

section

variable {s : Session} {p : Program}

theorem run_congr {q : Program} (size : q.declarations.length = p.declarations.length)
    (same : Run.program q (s.opened p) = Run.program p (s.opened p)) : s.run q = s.run p := by
  have begun : Run.emit (.beginRun p.declarations.length) s.machine = (.ok (), s.opened p) := rfl
  unfold run Run.inProgramSpan Run.withSpan
  rw [size, Stateful.bind_ok begun, Stateful.bind_ok begun]
  simp only [Stateful.guarded, same]

theorem run_of_all (all : s.accepted p = p.declarations) :
    ∃ middle : Machine, middle.environment = (s.environment.registerEach p.declarations).2 ∧
      middle.calls = (s.opened p).calls ∧ middle.effects = (s.opened p).effects ∧
      (s.run p).1 = (Run.eval p.body middle).1 ∧
      (s.run p).2.environment = middle.environment ∧
      (s.run p).2.console = (Run.eval p.body middle).2.console := by
  obtain ⟨trace, called⟩ := Run.registerAll_eq p.declarations (s.opened p)
  have done : ((s.opened p).environment.registerEach p.declarations).1 = .ok () :=
    Environment.registerEach_ok_iff.mpr all
  rw [done] at called
  let middle : Machine :=
    { s.opened p with environment := (s.environment.registerEach p.declarations).2, trace }
  have ran : Run.program p (s.opened p) = Run.eval p.body middle := Stateful.bind_ok called
  obtain ⟨_, ended⟩ := run_spec ran
  refine ⟨middle, rfl, rfl, rfl, ?_⟩
  rw [ended]
  exact ⟨rfl, (Run.restores_eval p.body middle _ _ rfl).1, rfl⟩

theorem run_of_failed {f : Failure}
    (failed : (s.environment.registerEach p.declarations).1 = .error f) :
    (s.run p).1 = .error f ∧
      (s.run p).2.environment = (s.environment.registerEach p.declarations).2 ∧
      (s.run p).2.console = s.console ∧ ∀ body, s.run { p with body } = s.run p := by
  obtain ⟨trace, called⟩ := Run.registerAll_eq p.declarations (s.opened p)
  have result : ((s.opened p).environment.registerEach p.declarations).1 = .error f := failed
  rw [result] at called
  have ran : ∀ body, Run.program { p with body } (s.opened p) = _ := fun body =>
    Stateful.bind_error called
  obtain ⟨_, ended⟩ := run_spec (ran p.body)
  refine ⟨by rw [ended], by rw [ended]; rfl, by rw [ended]; rfl, fun body => ?_⟩
  exact run_congr rfl ((ran body).trans (ran p.body).symm)

theorem run_registers (s : Session) (p : Program) :
    (s.run p).2.environment = (s.environment.registerEach p.declarations).2 := by
  cases result : (s.environment.registerEach p.declarations).1 with
  | ok _ =>
    obtain ⟨middle, registered, _, _, _, environment, _⟩ :=
      run_of_all (Environment.registerEach_ok_iff.mp result)
    exact environment.trans registered
  | error f => exact (run_of_failed result).2.1

theorem run_eq_alone (all : s.accepted p = p.declarations) :
    (s.run p).1 = (s.alone p).1 ∧
      (s.run p).2.console = s.console.printAll (s.alone p).2.console.lines := by
  obtain ⟨middle, _, calls, effects, outcome, environment, console⟩ := run_of_all all
  have generator : middle.generator = s.settings.generator := congrArg Effects.generator effects
  have silent : middle.console = s.console := congrArg Effects.console effects
  -- the machine of the session and a fresh one differ in what was printed and traced
  let fresh := Machine.ofSettings s.settings (s.run p).2.environment []
  have declared : fresh.environment = middle.environment := environment
  obtain ⟨same, lines, printed, printed'⟩ :=
    Run.eval_console declared calls.symm generator.symm p.body
  have own : (s.alone p).2.console.lines = lines :=
    (congrArg Console.lines printed').trans (List.append_nil lines)
  rw [outcome, console, printed, silent, own]
  exact ⟨same, rfl⟩

theorem runLaw (sink : s.console.sink = s.settings.console.sink) (p : Program) : s.RunLaw p where
  registered := run_registers s p
  longest _ := Environment.prefix_accepted_iff
  stored := by
    rw [run_registers]
    exact (s.environment.registerEach_adds p.declarations).2
  kept name arity d found := by
    obtain ⟨_, more, _, added⟩ := s.environment.registerEach_adds p.declarations
    have found : s.environment.functions.entries.lookup (name, arity) = some d := found
    rw [run_registers, Environment.declaration?, Functions.find?, added, List.lookup_append, found,
      Option.some_or]
  evaluated all := by
    obtain ⟨outcome, console⟩ := run_eq_alone all
    refine ⟨outcome, console, fun captured => ?_⟩
    rw [output, console, Console.output_printAll, if_pos (sink.trans captured)]
    rfl
  refused some := by
    obtain ⟨middle, d, rest, f, front, split, failed, result⟩ := Environment.registerEach_fails some
    obtain ⟨outcome, environment, console, unread⟩ := run_of_failed result
    rw [← environment] at failed
    exact ⟨⟨middle, d, rest, f, front, split, failed, outcome, Environment.register_error_cases failed⟩,
      console, congrArg Console.output console, unread⟩

end

/-! ### Histories -/

/-- The session with a seed: its own, or else one that is drawn. -/
def seeded (s : Session) (drawn : UInt64) : Session :=
  { s with settings := { s.settings with seed := some (s.settings.seed.getD drawn) } }

/-- What is done with a session from outside. A run draws a seed, for settings that have none. -/
inductive Step where
  | run (drawn : UInt64) (p : Program)
  | runParsed (drawn : UInt64) (parsed : Except Error Program)
  | scan (names : Interner) (tokens : Nat)

def perform (s : Session) : Step → List (Except Failure Value) × Session
  -- the settings stay without a seed, so that every run draws its own
  | .run drawn p =>
    let (outcome, after) := (s.seeded drawn).run p
    ([outcome], { after with settings := s.settings })
  | .runParsed drawn parsed =>
    let (outcome, after) := (s.seeded drawn).runParsed parsed
    ([outcome], { after with settings := s.settings })
  | .scan names tokens =>
    ([], { s with environment := s.environment.perform (.scan names tokens) })

def performAll (s : Session) : List Step → List (Except Failure Value) × Session
  | [] => ([], s)
  | step :: steps =>
    let (outcomes, after) := s.perform step
    let (more, last) := after.performAll steps
    (outcomes ++ more, last)

/-- The outcome is a value or an error, other than where a counter of 32 bits is full or calls may
nest without a limit. -/
def Ends (limit : Option Nat) (outcome : Except Failure Value) : Prop :=
  (∃ v, outcome = .ok v) ∨ (∃ e, outcome = .error (.error e)) ∨
    (∃ f, outcome = .error (.fault f) ∧ f.isOverflow = true) ∨
      limit = none ∧ outcome = .error .exhausted

theorem ends_eval (e : Expr) (m : Machine) : Ends m.calls.limit (Run.eval e m).1 := by
  have faultless := (Run.restores_eval e m _ _ rfl).2.2
  cases ended : (Run.eval e m).1 with
  | ok v => exact .inl ⟨v, rfl⟩
  | error f =>
    cases f with
    | error e => exact .inr (.inl ⟨e, rfl⟩)
    | fault f => exact absurd ended (faultless f)
    | exhausted =>
      refine .inr (.inr (.inr ⟨?_, rfl⟩))
      cases bounded : m.calls.limit with
      | none => rfl
      | some limit =>
        obtain ⟨_, error⟩ := Run.eval_ends bounded e .exhausted ended
        cases error

/-- Nothing is bound, and the console is the one that the settings ask for. -/
structure Idle (settings : Settings) (s : Session) : Prop where
  configured : s.settings = settings
  unbound : s.environment.bindings = .empty
  sink : s.console.sink = settings.console.sink

structure Progress (settings : Settings) (s : Session) (outcomes : List (Except Failure Value))
    (after : Session) : Prop where
  idle : after.Idle settings
  reported : after.reporter = (outcomes.flatMap reported).foldl .report s.reporter
  ends : ∀ outcome ∈ outcomes, Ends settings.callLimit outcome

section

variable {settings : Settings} {s : Session}

theorem Idle.start (settings : Settings) (symbols : Symbols) (reporter : Reporter) :
    (Session.start settings symbols reporter).Idle settings := ⟨rfl, rfl, rfl⟩

theorem Idle.seeded (idle : s.Idle settings) (drawn : UInt64) :
    (s.seeded drawn).Idle { settings with seed := some (settings.seed.getD drawn) } := by
  obtain ⟨rfl, unbound, sink⟩ := idle
  exact ⟨rfl, unbound, sink⟩

theorem Idle.run (idle : s.Idle settings) (p : Program) :
    Progress settings s [(s.run p).1] (s.run p).2 := by
  obtain ⟨rfl, unbound, sink⟩ := idle
  have law := runLaw sink p
  rcases called : Run.program p (s.opened p) with ⟨outcome, after⟩
  obtain ⟨trace, ran⟩ := run_spec called
  have bindings := (s.environment.registerEach_adds p.declarations).1
  rw [← law.registered] at bindings
  obtain ⟨same, ends⟩ : (s.run p).2.console.sink = s.console.sink ∧
      Ends s.settings.callLimit (s.run p).1 := by
    by_cases all : s.accepted p = p.declarations
    · obtain ⟨ended, printed, _⟩ := law.evaluated all
      rw [printed, ended]
      exact ⟨rfl, ends_eval p.body _⟩
    · obtain ⟨⟨_, _, _, f, _, _, _, failed, kind⟩, silent, _⟩ := law.refused all
      rw [silent, failed]
      rcases kind with ⟨e, rfl, _⟩ | ⟨g, rfl, overflow, _⟩
      · exact ⟨rfl, .inr (.inl ⟨e, rfl⟩)⟩
      · exact ⟨rfl, .inr (.inr (.inl ⟨g, rfl, overflow⟩))⟩
  refine ⟨⟨by rw [ran], bindings.trans unbound, same.trans sink⟩, ?_, ?_⟩
  · rw [ran, List.flatMap_singleton]
  · exact List.forall_mem_singleton.mpr ends

theorem Idle.runParsed (idle : s.Idle settings) (parsed : Except Error Program) :
    Progress settings s [(s.runParsed parsed).1] (s.runParsed parsed).2 := by
  cases parsed with
  | ok p => exact idle.run p
  | error e =>
    exact ⟨⟨idle.configured, idle.unbound, idle.sink⟩, rfl,
      List.forall_mem_singleton.mpr (.inr (.inl ⟨e, rfl⟩))⟩

theorem Progress.restored {drawn : UInt64} {outcomes : List (Except Failure Value)} {after : Session}
    (idle : s.Idle settings)
    (progress : Progress { settings with seed := some (settings.seed.getD drawn) } (s.seeded drawn)
      outcomes after) : Progress settings s outcomes { after with settings := s.settings } :=
  ⟨⟨idle.configured, progress.idle.unbound, progress.idle.sink⟩, progress.reported, progress.ends⟩

theorem Idle.perform (idle : s.Idle settings) (step : Step) :
    Progress settings s (s.perform step).1 (s.perform step).2 := by
  cases step with
  | run drawn p => exact ((idle.seeded drawn).run p).restored idle
  | runParsed drawn parsed => exact ((idle.seeded drawn).runParsed parsed).restored idle
  | scan names tokens =>
    exact ⟨⟨idle.configured, idle.unbound, idle.sink⟩, rfl, fun _ absent => nomatch absent⟩

theorem Idle.performAll (idle : s.Idle settings) (steps : List Step) :
    Progress settings s (s.performAll steps).1 (s.performAll steps).2 := by
  induction steps generalizing s with
  | nil => exact ⟨idle, rfl, fun _ absent => nomatch absent⟩
  | cons step steps ih =>
    have first := idle.perform step
    have rest := ih first.idle
    refine ⟨rest.idle, ?_, List.forall_mem_append.mpr ⟨first.ends, rest.ends⟩⟩
    rw [performAll, List.flatMap_append, List.foldl_append, ← first.reported]
    exact rest.reported

end

/-- After every history the collected errors are those that were returned, no variable is bound, and
the next call of `run` or `runParsed`, whatever seed it draws, keeps to its law. -/
theorem history_law (settings : Settings) (symbols : Symbols) (steps : List Step) :
    let (outcomes, s) := (start settings symbols (.collector [])).performAll steps
    s.settings = settings ∧ s.reporter = .collector (outcomes.flatMap reported) ∧
      (∀ outcome ∈ outcomes, Ends settings.callLimit outcome) ∧
      s.environment.isUnbound = true ∧
      ∀ drawn, (∀ p, (s.seeded drawn).RunLaw p) ∧
        (∀ p, (s.seeded drawn).runParsed (.ok p) = (s.seeded drawn).run p) ∧
        ∀ e, (s.seeded drawn).runParsed (.error e) =
          (.error (.error e), { s.seeded drawn with reporter := s.reporter.report e }) := by
  have progress := (Idle.start settings symbols (.collector [])).performAll steps
  rcases past : (start settings symbols (.collector [])).performAll steps with ⟨outcomes, s⟩
  rw [past] at progress
  obtain ⟨idle, told, ends⟩ := progress
  have unbound : s.environment.isUnbound = true := by
    rw [Environment.isUnbound, idle.unbound]
    rfl
  refine ⟨idle.configured, ?_, ends, unbound, fun drawn => ⟨fun p => ?_, fun _ => rfl, fun _ => rfl⟩⟩
  · exact told.trans (Reporter.foldl_report_collector [] _)
  · have next := idle.seeded drawn
    exact runLaw (next.sink.trans (congrArg (fun t => t.console.sink) next.configured).symm) p

example :
    let f : Declaration := ⟨⟨.identifier, "f", none, 9, 0⟩, [], .literal (.string "a")⟩
    let body : Expr := .call ⟨.identifier, "print", none, 21, 1⟩
      [.call ⟨.identifier, "f", none, 27, 2⟩ []]
    let past := (start .testRun ⟨.initial, 3⟩ (.collector [])).performAll
      [.run 0 ⟨[f], body⟩, .run 0 ⟨[f], body⟩]
    past.2.output = "a\n" ∧ past.2.reporter = .collector [.functionRedeclaration "f" 0 9] := by
  decide +kernel

end Session

end LetLang
