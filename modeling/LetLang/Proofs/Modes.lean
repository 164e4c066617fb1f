import LetLang.Proofs.SessionLaw

/-!
# Modes

Where the depth is set and the seed is the same, no program can tell the modes apart: the lines that
one of them shows on standard output are those that the other one captures.
-/

namespace LetLang

theorem Console.writtenSince_zero (c : Console) :
    c.writtenSince 0 = if c.sink = .stdout then text c.lines else "" := by
  rw [writtenSince, size, Nat.sub_zero, List.take_length]

namespace Session

/-- The sessions may show their lines in different places, and a program cannot see a difference. -/
structure Alike (s t : Session) : Prop where
  environment : s.environment = t.environment
  reporter : s.reporter = t.reporter
  lines : s.console.lines = t.console.lines
  seed : s.settings.seed = t.settings.seed
  step : s.settings.randomStep = t.settings.randomStep
  limit : s.settings.callLimit = t.settings.callLimit

theorem run_keeps (s : Session) (p : Program) : (s.run p).2.settings = s.settings ∧
    (s.run p).2.reporter = (reported (s.run p).1).foldl .report s.reporter := by
  rcases called : Run.program p (s.opened p) with ⟨outcome, after⟩
  obtain ⟨trace, ran⟩ := run_spec called
  rw [ran]
  exact ⟨rfl, rfl⟩

namespace Alike

variable {s t : Session} {p : Program}

theorem accepted (alike : s.Alike t) (p : Program) : s.accepted p = t.accepted p := by
  rw [Session.accepted, alike.environment, Session.accepted]

theorem run_environment (alike : s.Alike t) (p : Program) :
    (s.run p).2.environment = (t.run p).2.environment := by
  rw [run_registers, run_registers, alike.environment]

theorem alone (alike : s.Alike t) (p : Program) : (s.alone p).1 = (t.alone p).1 ∧
    (s.alone p).2.console.lines = (t.alone p).2.console.lines := by
  let m : Machine := .ofSettings s.settings (s.run p).2.environment []
  let m' : Machine := .ofSettings t.settings (t.run p).2.environment []
  have calls : m'.calls = m.calls := congrArg CallStack.ofLimit alike.limit.symm
  have generator : m'.generator = m.generator :=
    congrArg₂ (fun (seed : Option UInt64) step => Generator.mk (seed.getD 0) step) alike.seed.symm
      alike.step.symm
  have same : m'.environment = m.environment := (alike.run_environment p).symm
  obtain ⟨ended, lines, printed, printed'⟩ := Run.eval_console same calls generator p.body
  refine ⟨ended, ?_⟩
  unfold Session.alone
  rw [printed, printed']
  rfl

theorem run_evaluated (alike : s.Alike t) (all : s.accepted p = p.declarations) :
    (s.run p).1 = (t.run p).1 ∧ (s.run p).2.console.lines = (t.run p).2.console.lines := by
  obtain ⟨outcome, console⟩ := run_eq_alone all
  obtain ⟨outcome', console'⟩ := run_eq_alone ((alike.accepted p).symm.trans all)
  obtain ⟨ended, printed⟩ := alike.alone p
  refine ⟨by rw [outcome, outcome', ended], ?_⟩
  rw [console, console', Console.printAll, Console.printAll, printed, alike.lines]

theorem run_refused (alike : s.Alike t) (some : s.accepted p ≠ p.declarations) :
    (s.run p).1 = (t.run p).1 ∧ (s.run p).2.console.lines = (t.run p).2.console.lines := by
  obtain ⟨_, _, _, f, _, _, _, failed⟩ := Environment.registerEach_fails some
  obtain ⟨outcome, _, console, _⟩ := run_of_failed failed
  rw [alike.environment] at failed
  obtain ⟨outcome', _, console', _⟩ := run_of_failed failed
  exact ⟨outcome.trans outcome'.symm, by rw [console, console', alike.lines]⟩

theorem run (alike : s.Alike t) (p : Program) :
    (s.run p).1 = (t.run p).1 ∧ (s.run p).2.Alike (t.run p).2 := by
  obtain ⟨outcome, lines⟩ : (s.run p).1 = (t.run p).1 ∧
      (s.run p).2.console.lines = (t.run p).2.console.lines := by
    by_cases all : s.accepted p = p.declarations
    · exact alike.run_evaluated all
    · exact alike.run_refused all
  obtain ⟨settings, reporter⟩ := run_keeps s p
  obtain ⟨settings', reporter'⟩ := run_keeps t p
  refine ⟨outcome, alike.run_environment p, ?_, lines, ?_, ?_, ?_⟩
  · rw [reporter, reporter', outcome, alike.reporter]
  · rw [settings, settings', alike.seed]
  · rw [settings, settings', alike.step]
  · rw [settings, settings', alike.limit]

theorem runParsed (alike : s.Alike t) (parsed : Except Error Program) :
    (s.runParsed parsed).1 = (t.runParsed parsed).1 ∧
      (s.runParsed parsed).2.Alike (t.runParsed parsed).2 := by
  cases parsed with
  | ok p => exact alike.run p
  | error e =>
    exact ⟨rfl, alike.environment, congrArg (·.report e) alike.reporter, alike.lines, alike.seed,
      alike.step, alike.limit⟩

theorem seeded (alike : s.Alike t) (drawn : UInt64) : (s.seeded drawn).Alike (t.seeded drawn) :=
  ⟨alike.environment, alike.reporter, alike.lines,
    congrArg (fun seed : Option UInt64 => some (seed.getD drawn)) alike.seed, alike.step,
    alike.limit⟩

theorem restored (alike : s.Alike t) {after after' : Session} (ended : after.Alike after') :
    Alike { after with settings := s.settings } { after' with settings := t.settings } :=
  ⟨ended.environment, ended.reporter, ended.lines, alike.seed, alike.step, alike.limit⟩

theorem perform (alike : s.Alike t) (step : Step) :
    (s.perform step).1 = (t.perform step).1 ∧ (s.perform step).2.Alike (t.perform step).2 := by
  cases step with
  | run drawn p =>
    obtain ⟨outcome, ended⟩ := (alike.seeded drawn).run p
    exact ⟨congrArg (fun r => [r]) outcome, alike.restored ended⟩
  | runParsed drawn parsed =>
    obtain ⟨outcome, ended⟩ := (alike.seeded drawn).runParsed parsed
    exact ⟨congrArg (fun r => [r]) outcome, alike.restored ended⟩
  | scan names tokens =>
    exact ⟨rfl, congrArg (fun env => env.perform (.scan names tokens)) alike.environment,
      alike.reporter, alike.lines, alike.seed, alike.step, alike.limit⟩

theorem performAll (alike : s.Alike t) (steps : List Step) :
    (s.performAll steps).1 = (t.performAll steps).1 ∧
      (s.performAll steps).2.Alike (t.performAll steps).2 := by
  induction steps generalizing s t with
  | nil => exact ⟨rfl, alike⟩
  | cons step steps ih =>
    obtain ⟨outcome, next⟩ := alike.perform step
    obtain ⟨more, last⟩ := ih next
    exact ⟨congrArg₂ (· ++ ·) outcome more, last⟩

end Alike

/-- Two sessions with one seed and one limit, of which one shows what it prints and the other one
captures it. After every history they have returned the same, have the same environment and have
reported the same; the text on standard output is the captured one. -/
theorem modes_agree (seed : Option UInt64) (limit : Nat) (randomStep : UInt64 → Binary64 × UInt64)
    (symbols : Symbols) (reporter : Reporter) (steps : List Step) :
    let shown := (start { mode := .interpret, seed, maxCallDepth := some limit, randomStep } symbols
      reporter).performAll steps
    let captured := (start { mode := .testRun, seed, maxCallDepth := some limit, randomStep } symbols
      reporter).performAll steps
    shown.1 = captured.1 ∧
      (∀ outcome ∈ shown.1, (∃ v, outcome = .ok v) ∨ (∃ e, outcome = .error (.error e)) ∨
        ∃ f, outcome = .error (.fault f) ∧ f.isOverflow = true) ∧
      shown.2.environment = captured.2.environment ∧ shown.2.reporter = captured.2.reporter ∧
      shown.2.console.writtenSince 0 = captured.2.output ∧ shown.2.output = "" ∧
      captured.2.console.writtenSince 0 = "" := by
  intro shown captured
  let settings : Settings := { mode := .interpret, seed, maxCallDepth := some limit, randomStep }
  let settings' : Settings := { mode := .testRun, seed, maxCallDepth := some limit, randomStep }
  have alike : (start settings symbols reporter).Alike (start settings' symbols reporter) :=
    ⟨rfl, rfl, rfl, rfl, rfl, rfl⟩
  obtain ⟨outcomes, alike⟩ := alike.performAll steps
  have progress := (Idle.start settings symbols reporter).performAll steps
  have progress' := (Idle.start settings' symbols reporter).performAll steps
  have stdout : shown.2.console.sink = .stdout := progress.idle.sink
  have buffer : captured.2.console.sink = .buffer := progress'.idle.sink
  refine ⟨outcomes, fun outcome member => ?_, alike.environment, alike.reporter, ?_, ?_, ?_⟩
  · rcases progress.ends outcome member with value | error | overflow | ⟨unlimited, _⟩
    · exact .inl value
    · exact .inr (.inl error)
    · exact .inr (.inr overflow)
    · exact nomatch unlimited
  · rw [Console.writtenSince_zero, if_pos stdout, output, Console.output, if_pos buffer,
      alike.lines]
  · rw [output, Console.output, if_neg (by rw [stdout]; decide)]
  · rw [Console.writtenSince_zero, if_neg (by rw [buffer]; decide)]

end Session

end LetLang
