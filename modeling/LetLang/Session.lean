import LetLang.Evaluation
import LetLang.Report

/-!
# Sessions

A session runs programs one after another in one environment. What a program declares can be called
by all later ones, while no variable outlives its run.
-/

namespace LetLang

structure Program where
  declarations : List Declaration
  body : Expr

structure Session where
  settings : Settings
  environment : Environment
  console : Console
  trace : List Event
  reporter : Reporter

def Run.program (p : Program) : Run Value := do
  Run.registerAll p.declarations
  Run.eval p.body

def Run.inProgramSpan (p : Program) (act : Run Value) : Run Value :=
  Run.withSpan (.beginRun p.declarations.length) .endRun fun m =>
    match act m with
    | (.error (.error e), m) =>
      (.error (.error e), { m with trace := .runFailed e.stage :: m.trace })
    | (outcome, m) => (outcome, m)

namespace Session

def start (settings : Settings) (symbols : Symbols) (reporter : Reporter) : Session where
  settings := settings
  environment := .ofSymbols symbols
  console := settings.console
  trace := []
  reporter := reporter

def machine (s : Session) : Machine :=
  { Machine.ofSettings s.settings s.environment s.trace with console := s.console }

def resume (s : Session) (m : Machine) : Session :=
  { s with environment := m.environment, console := m.console, trace := m.trace }

def report (s : Session) (e : Error) : Session := { s with reporter := s.reporter.report e }

/-- Runs a program. Declarations in front of a refused one stay registered. -/
def run (s : Session) (p : Program) : Except Failure Value × Session :=
  match Run.inProgramSpan p (Run.program p) s.machine with
  | (.error (.error e), m) => (.error (.error e), (s.resume m).report e)
  | (outcome, m) => (outcome, s.resume m)

/-- Runs what a parser made. An error of the parser is reported like any other. -/
def runParsed (s : Session) (parsed : Except Error Program) : Except Failure Value × Session :=
  match parsed with
  | .ok p => s.run p
  | .error e => (.error (.error e), s.report e)

def output (s : Session) : String := s.console.output

def events (s : Session) : List Event := s.trace.reverse

end Session

end LetLang
