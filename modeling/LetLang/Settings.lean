import LetLang.Console
import LetLang.Generator

/-!
# Settings

A mode says where `print` writes and how deep calls may nest.
-/

namespace LetLang

inductive Mode where
  /-- Runs a program: `print` writes to standard output and calls nest without a limit. -/
  | interpret
  /-- Runs a test: the output is captured and the call depth is limited. -/
  | testRun
deriving DecidableEq, Inhabited

namespace Mode

def name : Mode → String
  | interpret => "Interpret"
  | testRun => "TestRun"

def all : List Mode := [interpret, testRun]

def writes : Mode → Bool
  | interpret => true
  | testRun => false

def maxCallDepth : Mode → Option Nat
  | interpret => none
  | testRun => some 500

def sink (m : Mode) : Sink := if m.writes then .stdout else .buffer

end Mode

structure Settings where
  mode : Mode := .interpret
  sink : Option Sink := none
  seed : Option UInt64 := none
  maxCallDepth : Option Nat := none
  /-- How the generator draws a number; a seed is its first state. -/
  randomStep : UInt64 → Binary64 × UInt64 := WyRand.step

namespace Settings

def testRun : Settings := { mode := .testRun, seed := some 0 }

def console (s : Settings) : Console := .ofSink (s.sink.getD s.mode.sink)

/-- Without a seed it starts from seed 0. -/
def generator (s : Settings) : Generator := ⟨s.seed.getD 0, s.randomStep⟩

def callLimit (s : Settings) : Option Nat := s.maxCallDepth <|> s.mode.maxCallDepth

end Settings

end LetLang
