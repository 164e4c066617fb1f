import LetLang.Error
import LetLang.Operator.Basic
import LetLang.Value

/-!
# Applying operators

Both operands are values already, also those of `&` and `|`. An operand of the wrong type is
reported by its type, the left one first.
-/

namespace LetLang

namespace UnaryOp

def apply (op : UnaryOp) (v : Value) (offset : UInt32) : Except Error Value :=
  match op, v with
  | neg, .number n => .ok (.number n.neg)
  | not, .boolean b => .ok (.boolean (!b))
  | neg, v => .error (.invalidOperand op.symbol "a number" v.typeName offset)
  | not, v => .error (.invalidOperand op.symbol "a boolean" v.typeName offset)

end UnaryOp

namespace BinaryOp

def numbers (op : BinaryOp) (l r : Value) (offset : UInt32) : Except Error (Binary64 × Binary64) :=
  match l, r with
  | .number m, .number n => .ok (m, n)
  | .number _, r => .error (.invalidOperand op.symbol "numbers" r.typeName offset)
  | l, _ => .error (.invalidOperand op.symbol "numbers" l.typeName offset)

def booleans (op : BinaryOp) (l r : Value) (offset : UInt32) : Except Error (Bool × Bool) :=
  match l, r with
  | .boolean a, .boolean b => .ok (a, b)
  | .boolean _, r => .error (.invalidOperand op.symbol "booleans" r.typeName offset)
  | l, _ => .error (.invalidOperand op.symbol "booleans" l.typeName offset)

def apply (op : BinaryOp) (l r : Value) (offset : UInt32) : Except Error Value :=
  let arithmetic (f : Binary64 → Binary64 → Binary64) :=
    (op.numbers l r offset).map fun (m, n) => Value.number (f m n)
  let comparison (f : Binary64 → Binary64 → Bool) :=
    (op.numbers l r offset).map fun (m, n) => Value.boolean (f m n)
  let logical (f : Bool → Bool → Bool) :=
    (op.booleans l r offset).map fun (a, b) => Value.boolean (f a b)
  match op with
  | add => arithmetic .add
  | sub => arithmetic .sub
  | mul => arithmetic .mul
  | div => arithmetic .div
  | mod => arithmetic .rem
  | pow => arithmetic .pow
  | lt => comparison Binary64.lt
  | le => comparison Binary64.le
  | gt => comparison fun m n => n.lt m
  | ge => comparison fun m n => n.le m
  | and => logical (· && ·)
  | or => logical (· || ·)
  | eq => .ok (.boolean (l.eq r))
  | ne => .ok (.boolean (!l.eq r))
  | concat => .ok (.string (l.text ++ r.text))

end BinaryOp

end LetLang
