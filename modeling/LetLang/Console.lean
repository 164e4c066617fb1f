/-!
# The console

The lines that `print` is given. The sink decides where they can be seen.
-/

namespace LetLang

inductive Sink where
  | stdout | buffer | silent
deriving DecidableEq, Inhabited

/-- The lines printed so far, the latest first. -/
structure Console where
  sink : Sink
  lines : List String
deriving DecidableEq

namespace Console

def ofSink (sink : Sink) : Console := ⟨sink, []⟩

def print (c : Console) (line : String) : Console := { c with lines := line :: c.lines }

def size (c : Console) : Nat := c.lines.length

def text (lines : List String) : String := String.join (lines.reverse.map (· ++ "\n"))

def output (c : Console) : String := if c.sink = .buffer then text c.lines else ""

def writtenSince (c : Console) (size : Nat) : String :=
  if c.sink = .stdout then text (c.lines.take (c.size - size)) else ""

end Console

end LetLang
