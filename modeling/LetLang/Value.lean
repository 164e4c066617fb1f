import LetLang.Decimal.Positional

/-!
# Values

A value has two texts: `text`, which `print` and concatenation show, and `quoted`, which a literal
has in a program.
-/

namespace LetLang

inductive Value where
  | number (n : Binary64)
  | string (s : String)
  | boolean (b : Bool)
deriving DecidableEq, Inhabited

namespace Value

def typeName : Value → String
  | number _ => "number"
  | string _ => "string"
  | boolean _ => "boolean"

def ofBool (b : Bool) : String := if b then "true" else "false"

def text : Value → String
  | number n => n.text
  | string s => s
  | boolean b => ofBool b

def escape (c : Char) : List Char := if c = '"' ∨ c = '\\' then ['\\', c] else [c]

def quoted : Value → String
  | number n => n.text
  | string s => String.ofList ('"' :: s.toList.flatMap escape ++ ['"'])
  | boolean b => ofBool b

/-- Values of different types are never equal; numbers compare as numbers. -/
def eq : Value → Value → Bool
  | number m, number n => m.eq n
  | string s, string t => s == t
  | boolean a, boolean b => a == b
  | _, _ => false

end Value

end LetLang
