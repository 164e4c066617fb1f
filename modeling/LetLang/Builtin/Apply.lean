import LetLang.Builtin.Basic
import LetLang.Console
import LetLang.Error
import LetLang.Generator
import LetLang.Value

/-!
# Applying built-in functions

`rand` alone draws from the generator and `print` alone writes to the console; the others compute
on numbers.
-/

namespace LetLang

namespace Builtin

def number (b : Builtin) (v : Value) (offset : UInt32) : Except Error Binary64 :=
  match v with
  | .number n => .ok n
  | v => .error (.typeMismatch b.name "a number" v.typeName offset)

/-- The value of a function that has no effect. The argument of `log` is checked before its
base. -/
def compute (b : Builtin) (args : List Value) (offset : UInt32) : Except Error Value :=
  match b, args with
  | cos, [x] => (b.number x offset).map (.number ·.cos)
  | exp, [x] => (b.number x offset).map (.number ·.exp)
  | sin, [x] => (b.number x offset).map (.number ·.sin)
  | sqrt, [x] => (b.number x offset).map (.number ·.sqrt)
  | log, [base, x] => do
    let x ← b.number x offset
    let base ← b.number base offset
    .ok (.number (.log base x))
  | _, _ => .error (.noMatchingOverload b.name args.length [b.arity] offset)

def apply (b : Builtin) (args : List Value) (offset : UInt32) (g : Generator) (c : Console) :
    Except Error Value × Generator × Console :=
  match b, args with
  | rand, [] => (.ok (.number g.uniform.1), g.uniform.2, c)
  | print, [v] => (.ok v, g, c.print v.text)
  | _, _ => (b.compute args offset, g, c)

end Builtin

end LetLang
