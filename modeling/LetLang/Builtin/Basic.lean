/-!
# Built-in functions

A built-in function is reserved under its name and its number of arguments together.
-/

namespace LetLang

inductive Builtin where
  | rand | cos | exp | print | sin | sqrt | log
deriving DecidableEq

namespace Builtin

def all : List Builtin := [rand, cos, exp, print, sin, sqrt, log]

def name : Builtin → String
  | rand => "rand"
  | cos => "cos"
  | exp => "exp"
  | print => "print"
  | sin => "sin"
  | sqrt => "sqrt"
  | log => "log"

def arity : Builtin → Nat
  | rand => 0
  | log => 2
  | _ => 1

def ofName (name : String) : Option Builtin := all.find? (fun b => b.name = name)

def lookup (name : String) (arity : Nat) : Option Builtin :=
  all.find? (fun b => b.name = name ∧ b.arity = arity)

end Builtin

end LetLang
