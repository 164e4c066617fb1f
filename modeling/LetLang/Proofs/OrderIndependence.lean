import LetLang.Proofs.History

/-!
# The order of registration

A run depends on which declarations are registered, and not on the order or the runs in which they
came to be.
-/

namespace LetLang

theorem Run.program_agree {m m' : Machine} {decls others : List Declaration} {p q : Program}
    (ended : (m.environment.registerEach p.declarations).1 =
      (m'.environment.registerEach q.declarations).1)
    (first : (m.environment.registerEach p.declarations).2.Holds decls)
    (second : (m'.environment.registerEach q.declarations).2.Holds others)
    (reordered : decls.Perm others) (calls : m'.calls = m.calls)
    (generator : m'.generator = m.generator) (plain : ∀ t ∈ p.body.tokens, Plain t.lexeme)
    (body : q.body = p.body) :
    (Run.program p m).1 = (Run.program q m').1 ∧
      ∃ lines, (Run.program p m).2.console = m.console.printAll lines ∧
        (Run.program q m').2.console = m'.console.printAll lines := by
  obtain ⟨trace, registered⟩ := Run.registerAll_eq p.declarations m
  obtain ⟨trace', registered'⟩ := Run.registerAll_eq q.declarations m'
  rw [← ended] at registered'
  cases result : (m.environment.registerEach p.declarations).1 with
  | ok _ =>
    rw [result] at registered registered'
    rw [Run.program, Run.program, Stateful.bind_ok registered, Stateful.bind_ok registered', body]
    let middle : Machine :=
      { m with environment := (m.environment.registerEach p.declarations).2, trace }
    let middle' : Machine :=
      { m' with environment := (m'.environment.registerEach q.declarations).2, trace := trace' }
    have first : middle.environment.Holds decls := first
    have second : middle'.environment.Holds others := second
    exact Run.eval_agree first second reordered calls generator plain
  | error f =>
    rw [result] at registered registered'
    rw [Run.program, Run.program, Stateful.bind_error registered, Stateful.bind_error registered']
    exact ⟨rfl, [], rfl, rfl⟩

theorem Console.output_printAll (c : Console) (lines : List String) :
    (c.printAll lines).output = c.output ++ if c.sink = .buffer then text lines else "" := by
  unfold output printAll
  by_cases captured : c.sink = .buffer
  · simp [captured, text, String.join_append]
  · simp [captured]

namespace Session

structure SameRun (s : Session) (p : Program) (t : Session) (q : Program) : Prop where
  outcome : (s.run p).1 = (t.run q).1
  lines : ∃ lines, (s.run p).2.console = s.console.printAll lines ∧
    (t.run q).2.console = t.console.printAll lines
  output : ∃ text, (s.run p).2.output = s.output ++ text ∧ (t.run q).2.output = t.output ++ text
  reports : ∃ errors : List Error, (s.run p).2.reporter = errors.foldl .report s.reporter ∧
    (t.run q).2.reporter = errors.foldl .report t.reporter

theorem SameRun.of_programs {s t : Session} {p q : Program} (sink : s.console.sink = t.console.sink)
    (outcome : (Run.program p (s.opened p)).1 = (Run.program q (t.opened q)).1) {lines : List String}
    (printed : (Run.program p (s.opened p)).2.console = s.console.printAll lines)
    (printed' : (Run.program q (t.opened q)).2.console = t.console.printAll lines) :
    SameRun s p t q := by
  rcases called : Run.program p (s.opened p) with ⟨ended, after⟩
  rcases called' : Run.program q (t.opened q) with ⟨ended', after'⟩
  rw [called, called'] at outcome
  rw [called] at printed
  rw [called'] at printed'
  dsimp only at outcome printed printed'
  obtain ⟨trace, ran⟩ := run_spec called
  obtain ⟨trace', ran'⟩ := run_spec called'
  have console : (s.run p).2.console = s.console.printAll lines := by rw [ran, printed]
  have console' : (t.run q).2.console = t.console.printAll lines := by rw [ran', printed']
  have output : ∀ c : Console, c.sink = t.console.sink → (c.printAll lines).output =
      c.output ++ if t.console.sink = .buffer then Console.text lines else "" := fun c same => by
    rw [Console.output_printAll, same]
  exact {
    outcome := by rw [ran, ran', outcome]
    lines := ⟨lines, console, console'⟩
    output := ⟨_, (congrArg Console.output console).trans (output s.console sink),
      (congrArg Console.output console').trans (output t.console rfl)⟩
    reports := ⟨reported ended, by rw [ran], by rw [ran', outcome]⟩ }

theorem faultless_run_iff {s : Session} {p : Program} :
    Faultless (s.run p).1 ↔ Faultless (s.environment.registerEach p.declarations).1 := by
  obtain ⟨trace, called⟩ := Run.registerAll_eq p.declarations (s.opened p)
  have result : ((s.opened p).environment.registerEach p.declarations).1 =
      (s.environment.registerEach p.declarations).1 := rfl
  rw [result] at called
  cases registered : (s.environment.registerEach p.declarations).1 with
  | ok _ =>
    rw [registered] at called
    have evaluated : Run.program p (s.opened p) = _ := Stateful.bind_ok called
    obtain ⟨_, ended⟩ := run_spec evaluated
    rw [ended]
    exact iff_of_true (Run.restores_eval p.body _ _ _ rfl).2.2 (faultless_ok _)
  | error f =>
    rw [registered] at called
    obtain ⟨_, ended⟩ := run_spec (s := s) (p := p) (Stateful.bind_error called)
    rw [ended]
    exact forall_congr' fun g => not_congr
      ⟨fun same => by rw [Except.error.inj same], fun same => by rw [Except.error.inj same]⟩

namespace History

variable {settings : Settings} {decls others : List Declaration} {s t : Session} {p : Program}

theorem sameRun (first : History settings decls s) (second : History settings others t)
    (same : ∀ d, d ∈ decls ↔ d ∈ others) (unmarked : p.Unmarked)
    (spared : s.symbols.SparesAll p.declarations) (spared' : t.symbols.SparesAll p.declarations)
    (returned : Faultless (s.run p).1) (returned' : Faultless (t.run p).1) :
    s.accepted p = t.accepted p ∧ SameRun s p t p := by
  obtain ⟨settings, holds, sink⟩ := first.spec
  obtain ⟨settings', holds', sink'⟩ := second.spec
  have reordered : decls.Perm others :=
    (List.perm_ext_iff_of_nodup holds.distinct.of_map holds'.distinct.of_map).mpr same
  obtain ⟨ended, accepted⟩ := holds.registerEach_agree holds' reordered unmarked.declarations spared
    spared' (faultless_run_iff.mp returned) (faultless_run_iff.mp returned')
  have calls : (t.opened p).calls = (s.opened p).calls := by
    show CallStack.ofLimit t.settings.callLimit = CallStack.ofLimit s.settings.callLimit
    rw [settings, settings']
  have generator : (t.opened p).generator = (s.opened p).generator := by
    show t.settings.generator = s.settings.generator
    rw [settings, settings']
  have whole : (decls ++ s.environment.accepted p.declarations).Perm
      (others ++ t.environment.accepted p.declarations) := by
    rw [accepted]
    exact reordered.append_right _
  have ended : ((s.opened p).environment.registerEach p.declarations).1 =
      ((t.opened p).environment.registerEach p.declarations).1 := ended
  obtain ⟨outcome, lines, printed, printed'⟩ := Run.program_agree ended
    (holds.registerEach unmarked.declarations spared)
    (holds'.registerEach unmarked.declarations spared') whole calls generator unmarked.body rfl
  exact ⟨accepted, .of_programs (sink.trans sink'.symm) outcome printed printed'⟩

theorem sameRun_of_perm (past : History settings decls s) {q : Program} (unmarked : p.Unmarked)
    (spared : s.symbols.SparesAll p.declarations) (body : q.body = p.body)
    (reordered : q.declarations.Perm p.declarations) (all : s.accepted p = p.declarations)
    (returned : Faultless (s.run q).1) :
    s.accepted q = q.declarations ∧ SameRun s p s q := by
  obtain ⟨_, holds, _⟩ := past.spec
  have unmarked' : ∀ d ∈ q.declarations, d.Unmarked := fun d member =>
    unmarked.declarations d (reordered.mem_iff.mp member)
  have spared' : s.symbols.SparesAll q.declarations := spared.perm reordered.symm
  have done := Environment.registerEach_ok_iff.mpr all
  have all' : s.accepted q = q.declarations := by
    have faultless : Faultless (s.environment.registerEach p.declarations).1 := by
      rw [done]
      exact faultless_ok ()
    obtain ⟨free, distinct⟩ :=
      (holds.accepted_eq_self_iff unmarked.declarations spared faultless).mp all
    refine (holds.accepted_eq_self_iff unmarked' spared' (faultless_run_iff.mp returned)).mpr
      ⟨fun d member => ?_, ?_⟩
    · exact free d (reordered.mem_iff.mp member)
    · exact ((reordered.append_left decls).map Declaration.key).nodup_iff.mpr distinct
  have done' := Environment.registerEach_ok_iff.mpr all'
  have whole : (decls ++ s.environment.accepted p.declarations).Perm
      (decls ++ s.environment.accepted q.declarations) := by
    rw [show s.environment.accepted p.declarations = p.declarations from all,
      show s.environment.accepted q.declarations = q.declarations from all']
    exact reordered.symm.append_left decls
  have ended : ((s.opened p).environment.registerEach p.declarations).1 =
      ((s.opened q).environment.registerEach q.declarations).1 := done.trans done'.symm
  obtain ⟨outcome, lines, printed, printed'⟩ := Run.program_agree ended
    (holds.registerEach unmarked.declarations spared)
    (holds.registerEach unmarked' spared') whole rfl rfl unmarked.body body
  exact ⟨all', .of_programs rfl outcome printed printed'⟩

theorem environment_run (past : History settings decls s) {q : Program}
    (unmarked : ∀ d ∈ q.declarations, d.Unmarked) (spared : s.symbols.SparesAll q.declarations)
    (nothing : s.accepted q = []) (returned : Faultless (s.run q).1) :
    (s.run q).2.environment = s.environment := by
  obtain ⟨_, holds, _⟩ := past.spec
  rcases called : Run.program q (s.opened q) with ⟨outcome, after⟩
  obtain ⟨trace, ran⟩ := run_spec called
  obtain ⟨registered, _⟩ := Run.program_spec (m := s.opened q) holds unmarked spared called
  have faultless := faultless_run_iff.mp returned
  rw [ran]
  refine registered.trans ?_
  change (s.environment.registerEach q.declarations).2 = s.environment
  rw [accepted] at nothing
  cases declarations : q.declarations with
  | nil => rfl
  | cons d ds =>
    rw [declarations] at nothing faultless
    rcases s.environment.register_cases d with ⟨e, _, failed⟩ | ⟨f, _, _, _, failed⟩ |
      ⟨stored, _, _, _, done⟩
    · rw [Environment.registerEach_cons_of_error failed]
    · rw [Environment.registerEach_cons_of_error failed] at faultless
      exact absurd rfl (faultless f)
    · rw [Environment.accepted_cons_of_ok done] at nothing
      cases nothing

end History

/-- A run depends on the set of registered declarations only. After two histories that have
registered the same ones, in any order and among any other runs, the same program has the same
outcome, prints the same, registers the same and reports the same. In particular the order of the
declarations of a program does not matter if all of them are accepted, and neither does an earlier
run that registered nothing. All this is about runs that return, with the fresh names that they ask
for. -/
theorem run_order_independent {settings : Settings} {seed : UInt64} {decls others : List Declaration}
    {s t : Session} {p : Program} (first : History { settings with seed := some seed } decls s)
    (second : History { settings with seed := some seed } others t)
    (same : ∀ d, d ∈ decls ↔ d ∈ others) (unmarked : p.Unmarked)
    (spared : s.symbols.SparesAll p.declarations) (spared' : t.symbols.SparesAll p.declarations)
    (returned : Faultless (s.run p).1) (returned' : Faultless (t.run p).1) :
    s.accepted p = t.accepted p ∧ SameRun s p t p ∧
      (∀ q : Program, q.body = p.body → q.declarations.Perm p.declarations →
        s.accepted p = p.declarations → Faultless (s.run q).1 →
          s.accepted q = q.declarations ∧ SameRun s p s q) ∧
      (∀ q : Program, (∀ d ∈ q.declarations, d.Unmarked) → s.symbols.SparesAll q.declarations →
        s.accepted q = [] → Faultless (s.run q).1 → SameRun s p (s.run q).2 p) ∧
      ∀ e, SameRun s p (s.runParsed (.error e)).2 p := by
  obtain ⟨accepted, ends⟩ := first.sameRun second same unmarked spared spared' returned returned'
  refine ⟨accepted, ends, fun q body reordered all back => ?_,
    fun q unmarked' sparedToo nothing back => ?_, fun e => ?_⟩
  · exact first.sameRun_of_perm unmarked spared body reordered all back
  · have next := first.run q unmarked' sparedToo
    rw [nothing, List.append_nil] at next
    have unchanged := first.environment_run unmarked' sparedToo nothing back
    have later : Faultless ((s.run q).2.run p).1 := by
      rw [faultless_run_iff, unchanged]
      exact faultless_run_iff.mp returned
    have still : (s.run q).2.symbols.SparesAll p.declarations := by
      rw [symbols, unchanged]
      exact spared
    exact (first.sameRun next (fun _ => Iff.rfl) unmarked spared still returned later).2
  · have registered := faultless_run_iff.mp returned
    have later : Faultless ((s.runParsed (.error e)).2.run p).1 := faultless_run_iff.mpr registered
    exact (first.sameRun (first.upstream e) (fun _ => Iff.rfl) unmarked spared spared returned
      later).2

/-- Two declarations, made by one program, or one by one with an error of the parser in between. -/
theorem run_order_independent_swapped :
    let f : Declaration := ⟨⟨.identifier, "f", none, 9, 0⟩, [⟨.identifier, "x", none, 11, 1⟩],
      .call ⟨.identifier, "g", none, 17, 2⟩ [.var ⟨.identifier, "x", none, 19, 3⟩]⟩
    let g : Declaration := ⟨⟨.identifier, "g", none, 31, 4⟩, [⟨.identifier, "y", none, 33, 5⟩],
      .binary .concat ⟨.atSign, "@", none, 41, 6⟩ (.var ⟨.identifier, "y", none, 39, 7⟩)
        (.literal (.string "!"))⟩
    let start : Session := .start { Settings.testRun with seed := some 0 } ⟨.initial, 9⟩ (.collector [])
    let s := (start.run ⟨[f, g], .literal (.boolean true)⟩).2
    let middle := (start.run ⟨[g], .literal (.boolean true)⟩).2
    let t := ((middle.runParsed (.error (.undeclaredVariable "z" 0))).2.run
      ⟨[f], .literal (.boolean true)⟩).2
    let p : Program := ⟨[], .call ⟨.identifier, "f", none, 48, 8⟩ [.literal (.string "a")]⟩
    let names := fun s : Session =>
      s.environment.functions.declarations.map fun d => d.params.map Token.lexeme
    names s = [["x#0"], ["y#1"]] ∧ names t = [["y#0"], ["x#1"]] ∧
      (s.run p).1 = .ok (.string "a!") ∧ SameRun s p t p := by
  intro f g start s middle t p names
  have unmarked : ∀ d ∈ [f, g], d.Unmarked := by
    unfold Declaration.Unmarked
    decide
  have onlyF : [f] ⊆ [f, g] := by simp
  have onlyG : [g] ⊆ [f, g] := by simp
  have begun : History { Settings.testRun with seed := some 0 } [] start := .start _ _
  have together := begun.run ⟨[f, g], .literal (.boolean true)⟩ unmarked (by decide)
  have single := begun.run ⟨[g], .literal (.boolean true)⟩ (fun d member => unmarked d (onlyG member))
    (by decide)
  have known : middle.symbols.SparesAll [f] := by decide +kernel
  have apart := (single.upstream (.undeclaredVariable "z" 0)).run ⟨[f], .literal (.boolean true)⟩
    (fun d member => unmarked d (onlyF member)) known
  have both : start.accepted ⟨[f, g], .literal (.boolean true)⟩ = [f, g] := by rfl
  have one : start.accepted ⟨[g], .literal (.boolean true)⟩ = [g] := by rfl
  have other : (middle.runParsed (.error (.undeclaredVariable "z" 0))).2.accepted
      ⟨[f], .literal (.boolean true)⟩ = [f] := by rfl
  rw [both] at together
  rw [one, other] at apart
  have same : ∀ d, d ∈ [] ++ [f, g] ↔ d ∈ [] ++ [g] ++ [f] := fun d => by simp [or_comm]
  have plain : p.Unmarked := ⟨fun _ absent => (nomatch absent), by decide⟩
  have nothing : ∀ symbols : Symbols, symbols.SparesAll p.declarations := fun _ _ absent => nomatch absent
  have returned : ∀ s : Session, Faultless (s.run p).1 := fun s =>
    faultless_run_iff.mpr (faultless_ok ())
  obtain ⟨_, ends, _⟩ := run_order_independent together apart same plain (nothing _) (nothing _)
    (returned s) (returned t)
  exact ⟨by decide +kernel, by decide +kernel, by decide +kernel, ends⟩

/-- Two new sessions, of which the second one begins where the fresh `x` gets the site of `y`. -/
theorem run_depends_on_sites : ¬ ∀ (settings : Settings) (seed : UInt64)
    (decls others : List Declaration) (s t : Session) (p : Program),
      History { settings with seed := some seed } decls s →
      History { settings with seed := some seed } others t → (∀ d, d ∈ decls ↔ d ∈ others) →
        p.Unmarked → Faultless (s.run p).1 → Faultless (t.run p).1 → SameRun s p t p := by
  intro agree
  let f : Declaration := ⟨⟨.identifier, "f", none, 9, 0⟩,
    [⟨.identifier, "x", none, 11, 1⟩, ⟨.identifier, "y", none, 14, 2⟩],
    .var ⟨.identifier, "x", none, 20, 3⟩⟩
  let p : Program := ⟨[f], .call ⟨.identifier, "f", none, 22, 4⟩
    [.literal (.string "a"), .literal (.string "b")]⟩
  let s : Session := .start { Settings.testRun with seed := some 0 } ⟨.initial, 5⟩ (.collector [])
  let t : Session := .start { Settings.testRun with seed := some 0 } ⟨.initial, 2⟩ (.collector [])
  have unmarked : p.Unmarked := ⟨by unfold Declaration.Unmarked; decide, by decide⟩
  have first : (s.run p).1 = .ok (.string "a") := by decide +kernel
  have second : (t.run p).1 = .ok (.string "b") := by decide +kernel
  have returned : Faultless (s.run p).1 := first ▸ faultless_ok _
  have returned' : Faultless (t.run p).1 := second ▸ faultless_ok _
  have same := (agree .testRun 0 [] [] s t p (.start _ _) (.start _ _) (fun _ => .rfl) unmarked
    returned returned').outcome
  rw [first, second] at same
  exact absurd same (by decide)

end Session

end LetLang
