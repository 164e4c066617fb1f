import LetLang.Proofs.Appending
import LetLang.Proofs.Operations
import LetLang.Proofs.Termination
import LetLang.Proofs.Twins
import LetLang.Session

/-!
# Histories of a session

What a session has run before shows in its table of functions and nowhere else.
-/

namespace LetLang

namespace Environment

variable {env after : Environment} {d stored : Declaration} {f : Failure}

def accepted (env : Environment) : List Declaration → List Declaration
  | [] => []
  | d :: ds =>
    match env.register d with
    | (.ok _, env) => d :: env.accepted ds
    | (.error _, _) => []

def registerEach (env : Environment) : List Declaration → Except Failure Unit × Environment
  | [] => (.ok (), env)
  | d :: ds =>
    match env.register d with
    | (.ok _, env) => env.registerEach ds
    | (.error f, env) => (.error f, env)

theorem accepted_cons_of_ok (registered : env.register d = (.ok stored, after))
    (ds : List Declaration) : env.accepted (d :: ds) = d :: after.accepted ds := by
  rw [accepted, registered]

theorem accepted_cons_of_error (failed : env.register d = (.error f, after))
    (ds : List Declaration) : env.accepted (d :: ds) = [] := by
  rw [accepted, failed]

theorem registerEach_cons_of_ok (registered : env.register d = (.ok stored, after))
    (ds : List Declaration) : env.registerEach (d :: ds) = after.registerEach ds := by
  rw [registerEach, registered]

theorem registerEach_cons_of_error (failed : env.register d = (.error f, after))
    (ds : List Declaration) : env.registerEach (d :: ds) = (.error f, after) := by
  rw [registerEach, failed]

theorem registerEach_ok_iff {ds : List Declaration} :
    (env.registerEach ds).1 = .ok () ↔ env.accepted ds = ds := by
  induction ds generalizing env with
  | nil => exact iff_of_true rfl rfl
  | cons d ds ih =>
    rcases registered : env.register d with ⟨outcome, after⟩
    cases outcome with
    | ok stored =>
      rw [registerEach_cons_of_ok registered, accepted_cons_of_ok registered, ih, List.cons_inj_right]
    | error f =>
      rw [registerEach_cons_of_error registered, accepted_cons_of_error registered]
      exact iff_of_false nofun nofun

end Environment

theorem Run.registerAll_eq (ds : List Declaration) (m : Machine) :
    ∃ trace, Run.registerAll ds m = ((m.environment.registerEach ds).1,
      { m with environment := (m.environment.registerEach ds).2, trace }) := by
  induction ds generalizing m with
  | nil => exact ⟨m.trace, rfl⟩
  | cons d ds ih =>
    rcases registered : m.environment.register d with ⟨outcome, env⟩
    cases outcome with
    | ok stored =>
      have first : Run.register d m =
          (.ok (), { m with environment := env, trace := .registered stored :: m.trace }) := by
        simp only [Run.register, registered]
      obtain ⟨trace, rest⟩ := ih { m with environment := env, trace := .registered stored :: m.trace }
      refine ⟨trace, ?_⟩
      rw [Run.registerAll, Stateful.bind_ok first, rest,
        Environment.registerEach_cons_of_ok registered]
    | error f =>
      have first : Run.register d m = (.error f, { m with environment := env }) := by
        simp only [Run.register, registered]
      refine ⟨m.trace, ?_⟩
      rw [Run.registerAll, Stateful.bind_error first, Environment.registerEach_cons_of_error registered]

def Declaration.Unmarked (d : Declaration) : Prop := ∀ t ∈ d.tokens, Plain t.lexeme

def Declaration.Registered (d stored : Declaration) : Prop :=
  ∃ r : Renamer, r.symbols.Spares d.arity d.params ∧ stored = d.renamed r

/-- Nothing is bound, and the table holds the given declarations. -/
structure Environment.Holds (env : Environment) (decls : List Declaration) : Prop where
  unbound : env.bindings = .empty
  stored : Functions.Related Declaration.Registered (.ofDeclarations decls) env.functions
  unmarked : ∀ d ∈ decls, d.Unmarked
  distinct : (decls.map Declaration.key).Nodup

namespace Environment

variable {env env' after : Environment} {decls others ds : List Declaration} {d : Declaration}

namespace Holds

theorem refusal_eq_none_iff (holds : env.Holds decls) :
    env.refusal d = none ↔
      isBuiltin d.name.lexeme d.arity = false ∧ d.key ∉ decls.map Declaration.key := by
  rw [Environment.refusal_eq_none_iff, Functions.find?_eq_none_iff, holds.stored.keys,
    Functions.keys_ofDeclarations, Declaration.key]

theorem register (holds : env.Holds decls) (unmarked : d.Unmarked)
    (spared : env.renamer.symbols.Spares d.arity d.params) {stored : Declaration}
    (registered : env.register d = (.ok stored, after)) :
    after.Holds (decls ++ [d]) ∧
      after.renamer.symbols.nextSite = env.renamer.symbols.nextSite + .ofNat d.arity := by
  obtain ⟨free, renamer, made, rfl⟩ := register_eq_ok_iff.mp registered
  obtain ⟨_, rfl, rfl⟩ := Declaration.hygienic_eq_ok_iff.mp made
  refine ⟨⟨holds.unbound, ?_, ?_, ?_⟩, Renamer.nextSite_nextAll _ _⟩
  · rw [Functions.ofDeclarations_append]
    exact holds.stored.insert ⟨env.renamer, spared, rfl⟩ _
  · exact List.forall_mem_append.mpr ⟨holds.unmarked, List.forall_mem_singleton.mpr unmarked⟩
  · rw [List.map_append, List.map_singleton]
    exact List.nodup_append_comm.mp
      (List.nodup_cons.mpr ⟨(holds.refusal_eq_none_iff.mp free).2, holds.distinct⟩)

theorem of_tables (holds : env.Holds decls) (bindings : after.bindings = env.bindings)
    (functions : after.functions = env.functions) : after.Holds decls :=
  ⟨bindings.trans holds.unbound, functions ▸ holds.stored, holds.unmarked, holds.distinct⟩

theorem registerEach (holds : env.Holds decls) (unmarked : ∀ d ∈ ds, d.Unmarked)
    (spared : env.renamer.symbols.SparesAll ds) :
    (env.registerEach ds).2.Holds (decls ++ env.accepted ds) := by
  induction ds generalizing env decls with
  | nil =>
    rw [accepted, List.append_nil]
    exact holds
  | cons d ds ih =>
    obtain ⟨here, unmarked⟩ := List.forall_mem_cons.mp unmarked
    rcases registered : env.register d with ⟨outcome, after⟩
    cases outcome with
    | ok stored =>
      obtain ⟨next, site⟩ := holds.register here spared.head registered
      have later := ih next unmarked (spared.tail site)
      rw [List.append_assoc] at later
      rwa [registerEach_cons_of_ok registered, accepted_cons_of_ok registered]
    | error f =>
      rw [registerEach_cons_of_error registered, accepted_cons_of_error registered, List.append_nil]
      have bindings := bindings_perform_register env d
      have functions := functions_perform_register_of_error (congrArg Prod.fst registered)
      rw [perform, registered] at bindings functions
      exact holds.of_tables bindings functions

section

variable (first : env.Holds decls) (second : env'.Holds others) (reordered : decls.Perm others)

include first second reordered

theorem twins : env.functions.Twins env'.functions := by
  refine ⟨fun name marked => ?_, fun name => ?_, fun name => ?_, fun name arity => ?_⟩
  · rw [first.stored.declares, Functions.declares, Functions.keys_ofDeclarations, List.any_map]
    refine List.any_eq_false.mpr fun d member same => marked ?_
    exact beq_iff_eq.mp same ▸ first.unmarked d member _ List.mem_cons_self
  · rw [second.stored.declares, first.stored.declares, Functions.declares_of_perm reordered]
  · rw [second.stored.arities, first.stored.arities, Functions.arities_of_perm reordered]
  · have same := Functions.find?_of_perm reordered first.distinct name arity
    rcases first.stored.find? name arity with ⟨missing, absent⟩ |
      ⟨d, s, found, present, r, spared, rfl⟩
    · rcases second.stored.find? name arity with ⟨_, absent'⟩ | ⟨_, _, found', _⟩
      · exact .inl ⟨absent, absent'⟩
      · cases missing.symm.trans (same.trans found')
    · rcases second.stored.find? name arity with ⟨missing', _⟩ |
        ⟨d', s', found', present', r', spared', rfl⟩
      · cases missing'.symm.trans (same.symm.trans found)
      · obtain rfl := Option.some.inj (found.symm.trans (same.trans found'))
        obtain ⟨member, key⟩ := (Functions.keyed_ofDeclarations decls).mem_of_find? found
        rw [Functions.declarations_ofDeclarations] at member
        obtain ⟨f, twin⟩ := Declaration.twin_renamed (first.unmarked d member) spared spared'
        have arity : (d.renamed r).arity = arity :=
          (Renamer.length_freshTokens r d.params).trans (Prod.mk.inj key).2
        exact .inr ⟨_, _, f, present, present', arity, twin⟩

theorem refusal_eq (d : Declaration) : env.refusal d = env'.refusal d := by
  have same : env.isFunctionWithArity d.name.lexeme d.arity =
      env'.isFunctionWithArity d.name.lexeme d.arity := by
    unfold isFunctionWithArity declaration?
    rcases (first.twins second reordered).find? d.name.lexeme d.arity with
      ⟨absent, absent'⟩ | ⟨_, _, _, present, present', _⟩
    · rw [absent, absent']
    · rw [present, present']
      rfl
  dsimp only [refusal]
  rw [same]

end

theorem registerEach_agree (first : env.Holds decls) (second : env'.Holds others)
    (reordered : decls.Perm others) (unmarked : ∀ d ∈ ds, d.Unmarked)
    (spared : env.renamer.symbols.SparesAll ds) (spared' : env'.renamer.symbols.SparesAll ds)
    (faultless : Faultless (env.registerEach ds).1) (faultless' : Faultless (env'.registerEach ds).1) :
    (env.registerEach ds).1 = (env'.registerEach ds).1 ∧ env.accepted ds = env'.accepted ds := by
  induction ds generalizing env env' decls others with
  | nil => exact ⟨rfl, rfl⟩
  | cons d ds ih =>
    obtain ⟨here, unmarked⟩ := List.forall_mem_cons.mp unmarked
    have same := first.refusal_eq second reordered d
    rcases env.register_cases d with ⟨e, refused, failed⟩ | ⟨f, _, _, _, failed⟩ |
      ⟨stored, _, free, _, registered⟩
    · have failed' := register_of_refused (same.symm.trans refused)
      rw [registerEach_cons_of_error failed, registerEach_cons_of_error failed',
        accepted_cons_of_error failed, accepted_cons_of_error failed']
      exact ⟨rfl, rfl⟩
    · rw [registerEach_cons_of_error failed] at faultless
      exact absurd rfl (faultless f)
    · rcases env'.register_cases d with ⟨e, refused, _⟩ | ⟨f, _, _, _, failed⟩ |
        ⟨stored', _, _, _, registered'⟩
      · cases free.symm.trans (same.trans refused)
      · rw [registerEach_cons_of_error failed] at faultless'
        exact absurd rfl (faultless' f)
      · obtain ⟨next, site⟩ := first.register here spared.head registered
        obtain ⟨next', site'⟩ := second.register here spared'.head registered'
        rw [registerEach_cons_of_ok registered] at faultless ⊢
        rw [registerEach_cons_of_ok registered'] at faultless' ⊢
        rw [accepted_cons_of_ok registered, accepted_cons_of_ok registered']
        obtain ⟨ended, accepted⟩ := ih next next' (reordered.append_right [d]) unmarked
          (spared.tail site) (spared'.tail site') faultless faultless'
        exact ⟨ended, congrArg (d :: ·) accepted⟩

theorem accepted_eq_self_iff (holds : env.Holds decls) (unmarked : ∀ d ∈ ds, d.Unmarked)
    (spared : env.renamer.symbols.SparesAll ds) (faultless : Faultless (env.registerEach ds).1) :
    env.accepted ds = ds ↔ (∀ d ∈ ds, isBuiltin d.name.lexeme d.arity = false) ∧
      ((decls ++ ds).map Declaration.key).Nodup := by
  induction ds generalizing env decls with
  | nil => simpa [accepted] using holds.distinct
  | cons d ds ih =>
    obtain ⟨here, unmarked⟩ := List.forall_mem_cons.mp unmarked
    have regrouped : decls ++ d :: ds = decls ++ [d] ++ ds := by simp
    rw [List.forall_mem_cons, regrouped]
    rcases env.register_cases d with ⟨e, refused, failed⟩ | ⟨f, _, _, _, failed⟩ |
      ⟨stored, _, free, _, registered⟩
    · rw [accepted_cons_of_error failed]
      refine iff_of_false nofun ?_
      rintro ⟨⟨own, _⟩, distinct⟩
      rw [List.map_append, List.map_append] at distinct
      have before := (List.nodup_append.mp distinct).1
      have fresh : d.key ∉ decls.map Declaration.key :=
        (List.nodup_cons.mp (List.nodup_append_comm.mp before)).1
      cases refused.symm.trans (holds.refusal_eq_none_iff.mpr ⟨own, fresh⟩)
    · rw [registerEach_cons_of_error failed] at faultless
      exact absurd rfl (faultless f)
    · obtain ⟨next, site⟩ := holds.register here spared.head registered
      rw [registerEach_cons_of_ok registered] at faultless
      rw [accepted_cons_of_ok registered]
      simp only [List.cons.injEq, true_and, ih next unmarked (spared.tail site) faultless,
        (holds.refusal_eq_none_iff.mp free).1]

end Holds

end Environment

namespace Run

variable {decls others : List Declaration} {m m' : Machine}

theorem eval_appends (e : Expr) (m : Machine) :
    ∃ lines, (eval e m).2.console = m.console.printAll lines := by
  have passed := Expr.implements_evalWithin m.calls.room e m ⟨rfl, rfl, rfl, rfl⟩
  have appends : ((Scoping.dynamic m.environment.functions).evalWithin m.calls.limit m.calls.room
      m.calls.depth e m.environment.value?).Appends := Scoping.appends_evalWithin _ _ e _
  obtain ⟨result, g, lines, shown⟩ := appends m.generator
  have same := passed.symm.trans (shown m.console)
  exact ⟨lines, congrArg Effects.console (Prod.mk.inj same).2⟩

theorem eval_agree (first : m.environment.Holds decls) (second : m'.environment.Holds others)
    (reordered : decls.Perm others) (calls : m'.calls = m.calls)
    (generator : m'.generator = m.generator) {e : Expr} (plain : ∀ t ∈ e.tokens, Plain t.lexeme) :
    (eval e m).1 = (eval e m').1 ∧ ∃ lines, (eval e m).2.console = m.console.printAll lines ∧
      (eval e m').2.console = m'.console.printAll lines := by
  have values : m'.environment.value? = m.environment.value? := by
    funext name
    rw [Environment.value?, Environment.value?, first.unbound, second.unbound]
  have passed := Expr.implements_evalWithin m.calls.room e m ⟨rfl, rfl, rfl, rfl⟩
  have passed' := Expr.implements_evalWithin m'.calls.room e m' ⟨rfl, rfl, rfl, rfl⟩
  rw [calls, values, ← Expr.evalWithin_of_twins (first.twins second reordered) m.calls.room e plain
    fun _ _ => rfl] at passed'
  have appends : ((Scoping.dynamic m.environment.functions).evalWithin m.calls.limit m.calls.room
      m.calls.depth e m.environment.value?).Appends := Scoping.appends_evalWithin _ _ e _
  obtain ⟨result, g, lines, shown⟩ := appends m.generator
  have left := passed.symm.trans (shown m.console)
  rw [Machine.effects, generator] at passed'
  have right := passed'.symm.trans (shown m'.console)
  obtain ⟨ended, effects⟩ := Prod.mk.inj left
  obtain ⟨ended', effects'⟩ := Prod.mk.inj right
  have same : (eval e m).1 = (eval e m').1 := by
    unfold eval
    rw [ended, calls, ended']
  refine ⟨same, lines, congrArg Effects.console effects, ?_⟩
  unfold eval
  rw [calls]
  exact congrArg Effects.console effects'

end Run

structure Program.Unmarked (p : Program) : Prop where
  declarations : ∀ d ∈ p.declarations, d.Unmarked
  body : ∀ t ∈ p.body.tokens, Plain t.lexeme

theorem Run.program_spec {p : Program} {decls : List Declaration} {m after : Machine}
    {outcome : Except Failure Value} (holds : m.environment.Holds decls)
    (unmarked : ∀ d ∈ p.declarations, d.Unmarked)
    (spared : m.environment.renamer.symbols.SparesAll p.declarations)
    (h : Run.program p m = (outcome, after)) :
    after.environment = (m.environment.registerEach p.declarations).2 ∧
      after.environment.Holds (decls ++ m.environment.accepted p.declarations) ∧
      ∃ lines, after.console = m.console.printAll lines := by
  have holds' := holds.registerEach unmarked spared
  obtain ⟨trace, called⟩ := Run.registerAll_eq p.declarations m
  cases result : (m.environment.registerEach p.declarations).1 with
  | ok _ =>
    rw [result] at called
    rw [Run.program, Stateful.bind_ok called] at h
    obtain ⟨lines, printed⟩ := Run.eval_appends p.body _
    rw [h] at printed
    have restored := (Run.restores_eval p.body _ outcome after h).1
    exact ⟨restored, restored ▸ holds', lines, printed⟩
  | error f =>
    rw [result] at called
    rw [Run.program, Stateful.bind_error called] at h
    cases h
    exact ⟨rfl, holds', [], rfl⟩

def reported {α : Type} : Except Failure α → List Error
  | .error (.error e) => [e]
  | _ => []

namespace Session

def symbols (s : Session) : Symbols := s.environment.renamer.symbols

def accepted (s : Session) (p : Program) : List Declaration := s.environment.accepted p.declarations

def opened (s : Session) (p : Program) : Machine :=
  { s.machine with trace := .beginRun p.declarations.length :: s.trace }

theorem run_spec {s : Session} {p : Program} {outcome : Except Failure Value} {after : Machine}
    (h : Run.program p (s.opened p) = (outcome, after)) :
    ∃ trace, s.run p = (outcome, { s with
      environment := after.environment
      console := after.console
      trace
      reporter := (reported outcome).foldl .report s.reporter }) := by
  have begun : Run.emit (.beginRun p.declarations.length) s.machine = (.ok (), s.opened p) := rfl
  unfold run Run.inProgramSpan Run.withSpan
  rw [Stateful.bind_ok begun]
  simp only [Stateful.guarded, h, Run.emit]
  cases outcome with
  | ok v => exact ⟨_, rfl⟩
  | error f =>
    cases f with
    | error e => exact ⟨_, rfl⟩
    | fault f => exact ⟨_, rfl⟩
    | exhausted => exact ⟨_, rfl⟩

/-- A session that has run programs, and been told of errors of the parser, since its start. The
list has the declarations it registered, in order. -/
inductive History (settings : Settings) : List Declaration → Session → Prop
  | start (symbols : Symbols) (reporter : Reporter) :
      History settings [] (.start settings symbols reporter)
  | scan {decls : List Declaration} {s : Session} (past : History settings decls s)
      (symbols : Symbols) :
      History settings decls { s with
        environment := { s.environment with renamer := ⟨s.environment.renamer.issued, symbols⟩ } }
  | run {decls : List Declaration} {s : Session} (past : History settings decls s) (p : Program)
      (unmarked : ∀ d ∈ p.declarations, d.Unmarked) (spared : s.symbols.SparesAll p.declarations) :
      History settings (decls ++ s.accepted p) (s.run p).2
  | upstream {decls : List Declaration} {s : Session} (past : History settings decls s) (e : Error) :
      History settings decls (s.runParsed (.error e)).2

theorem History.spec {settings : Settings} {decls : List Declaration} {s : Session}
    (past : History settings decls s) :
    s.settings = settings ∧ s.environment.Holds decls ∧ s.console.sink = settings.console.sink := by
  induction past with
  | start symbols reporter =>
    exact ⟨rfl, ⟨rfl, .empty, fun _ absent => (nomatch absent), List.nodup_nil⟩, rfl⟩
  | scan _ symbols ih =>
    obtain ⟨same, holds, sink⟩ := ih
    exact ⟨same, holds.of_tables rfl rfl, sink⟩
  | @run decls s _ p unmarked spared ih =>
    obtain ⟨same, holds, sink⟩ := ih
    rcases called : Run.program p (s.opened p) with ⟨outcome, after⟩
    obtain ⟨trace, ended⟩ := run_spec called
    obtain ⟨_, holds', lines, printed⟩ :=
      Run.program_spec (m := s.opened p) holds unmarked spared called
    rw [ended]
    refine ⟨same, holds', ?_⟩
    rw [printed]
    exact sink
  | upstream _ _ ih => exact ih

end Session

end LetLang
