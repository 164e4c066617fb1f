import LetLang.Decimal.Shortest

/-!
# Positional notation

Numbers are written without an exponent.
-/

namespace LetLang

def Decimal.positional (d : Decimal) : List Char :=
  let digits := Nat.toDigits 10 d.digits
  if 0 ≤ d.exponent then digits ++ List.replicate d.exponent.toNat '0'
  else
    let places := (-d.exponent).toNat
    let padded := List.replicate (places + 1 - digits.length) '0' ++ digits
    let whole := padded.length - places
    padded.take whole ++ '.' :: padded.drop whole

namespace Binary64

def unsigned (x : Binary64) : List Char :=
  if x.isInfinite then ['i', 'n', 'f']
  else if x.isZero then ['0']
  else (Decimal.shortest x).positional

/-- The shortest text that reads back. Only `NaN` shows no sign. -/
def text (x : Binary64) : String :=
  if x.isNaN then "NaN"
  else String.ofList (if x.isNegative then '-' :: x.unsigned else x.unsigned)

end Binary64

end LetLang
