/-!
# Binary64 numbers

A number is its 64 bits. The order, the sign and the remainder are read off the bits; sums, products
and the elementary functions are those of `Float`.
-/

namespace LetLang

structure Binary64 where
  bits : UInt64
deriving DecidableEq, Inhabited

namespace Binary64

/-- The bits below the sign. They grow with the absolute value. -/
def magnitude (x : Binary64) : Nat := x.bits.toNat % 0x8000000000000000

def isNegative (x : Binary64) : Bool := 0x8000000000000000 ≤ x.bits.toNat

def infinite : Nat := 0x7ff0000000000000

def isNaN (x : Binary64) : Bool := infinite < x.magnitude

def isSignaling (x : Binary64) : Bool := x.isNaN && decide (x.magnitude < 0x7ff8000000000000)

def isInfinite (x : Binary64) : Bool := x.magnitude = infinite

def isFinite (x : Binary64) : Bool := x.magnitude < infinite

def isZero (x : Binary64) : Bool := x.magnitude = 0

def hidden : Nat := 0x10000000000000

/-- A finite number is `significand * 2 ^ exponent`, up to its sign. -/
def significand (x : Binary64) : Nat :=
  if x.magnitude < hidden then x.magnitude else x.magnitude % hidden + hidden

def exponent (x : Binary64) : Int := max (x.magnitude / hidden) 1 - 1075

def ofMagnitude (negative : Bool) (magnitude : Nat) : Binary64 :=
  ⟨(if negative then magnitude + 0x8000000000000000 else magnitude).toUInt64⟩

def nan : Binary64 := ⟨0x7ff8000000000000⟩

/-- The number `m * 2 ^ e`, exact if `m < 2 ^ 53`, `-1074 ≤ e` and it is in range. -/
def ofScaled (negative : Bool) (m : Nat) (e : Int) : Binary64 :=
  if m = 0 then ofMagnitude negative 0
  else
    let shift := min (52 - m.log2) (e + 1074).toNat
    ofMagnitude negative ((e + 1074 - shift).toNat * hidden + m * Nat.pow 2 shift)

/-- Position on the number line; both zeros are at 0. -/
def key (x : Binary64) : Int := if x.isNegative then -x.magnitude else x.magnitude

/-- Equality of numbers: a NaN differs from itself, and the zeros are equal. -/
def eq (x y : Binary64) : Bool := !x.isNaN && !y.isNaN && x.key == y.key

def lt (x y : Binary64) : Bool := !x.isNaN && !y.isNaN && decide (x.key < y.key)

def le (x y : Binary64) : Bool := !x.isNaN && !y.isNaN && decide (x.key ≤ y.key)

def toFloat (x : Binary64) : Float := .ofBits x.bits

def ofFloat (x : Float) : Binary64 := ⟨x.toBits⟩

def ofInt (n : Int) : Binary64 := ofFloat (.ofInt n)

def neg (x : Binary64) : Binary64 := ofMagnitude (!x.isNegative) x.magnitude

def add (x y : Binary64) : Binary64 := ofFloat (x.toFloat + y.toFloat)

def sub (x y : Binary64) : Binary64 := ofFloat (x.toFloat - y.toFloat)

def mul (x y : Binary64) : Binary64 := ofFloat (x.toFloat * y.toFloat)

def div (x y : Binary64) : Binary64 := ofFloat (x.toFloat / y.toFloat)

/-- Powers. A quiet NaN to the power 0 is 1, and so is 1 to the power of one; a signaling NaN
always gives a NaN. -/
def pow (x y : Binary64) : Binary64 :=
  if x.isSignaling || y.isSignaling then nan else ofFloat (x.toFloat.pow y.toFloat)

/-- The remainder of truncating division. It has the sign of `x` and is exact. -/
def rem (x y : Binary64) : Binary64 :=
  if x.isNaN || y.isNaN || x.isInfinite || y.isZero then nan
  else if y.isInfinite then x
  else
    let e := min x.exponent y.exponent
    let dividend := x.significand * Nat.pow 2 (x.exponent - e).toNat
    let divisor := y.significand * Nat.pow 2 (y.exponent - e).toNat
    ofScaled x.isNegative (dividend % divisor) e

def cos (x : Binary64) : Binary64 := ofFloat x.toFloat.cos

def sin (x : Binary64) : Binary64 := ofFloat x.toFloat.sin

def exp (x : Binary64) : Binary64 := ofFloat x.toFloat.exp

def sqrt (x : Binary64) : Binary64 := ofFloat x.toFloat.sqrt

def log (base x : Binary64) : Binary64 := ofFloat (x.toFloat.log / base.toFloat.log)

end Binary64

end LetLang
