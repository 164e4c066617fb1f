import LetLang.Expr.Induction
import LetLang.Expr.Printer
import LetLang.Proofs.Reading.Numbers

/-!
# The form of a tree

A printed tree tells its form: the tree with plain tokens, where a number that has a sign is the
minus of its absolute value. A tree and its form have the same text.
-/

namespace LetLang

def isLetter (c : Char) : Bool := c.isAlpha || 128 ≤ c.toNat

def isWordStart (c : Char) : Bool := isLetter c || c = '_'

theorem isWordStart_digit {c : Char} (digit : c.isDigit = true) : isWordStart c = false := by
  refine Bool.eq_false_iff.mpr fun start => ?_
  have alpha : c.isAlpha = (decide (65 ≤ c.val ∧ c.val ≤ 90) || (97 ≤ c.val && c.val ≤ 122)) := rfl
  simp only [isWordStart, isLetter, Char.isDigit, alpha, Bool.or_eq_true, Bool.and_eq_true,
    decide_eq_true_eq, ge_iff_le, UInt32.le_iff_toNat_le] at digit start
  change 48 ≤ c.toNat ∧ c.toNat ≤ 57 at digit
  change (((65 ≤ c.toNat ∧ c.toNat ≤ 90) ∨ (97 ≤ c.toNat ∧ c.toNat ≤ 122)) ∨ 128 ≤ c.toNat) ∨
    c = '_' at start
  rcases start with letter | rfl
  · omega
  · exact absurd digit (by decide)

def isWordChar (c : Char) : Bool := isWordStart c || c.isDigit || c = '#'

def reservedWords : List String := ["let", "in", "if", "else", "function", "true", "false"]

/-- A name that a program can have. All characters outside of ASCII count as letters. -/
structure IsName (s : String) : Prop where
  start : s.toList.head?.any isWordStart = true
  chars : s.toList.all isWordChar = true
  free : s ∉ reservedWords

instance (s : String) : Decidable (IsName s) :=
  decidable_of_iff
    (s.toList.head?.any isWordStart = true ∧ s.toList.all isWordChar = true ∧ s ∉ reservedWords)
    ⟨fun ⟨start, chars, free⟩ => ⟨start, chars, free⟩, fun ⟨start, chars, free⟩ => ⟨start, chars, free⟩⟩

theorem IsName.head {s : String} (named : IsName s) :
    ∃ c, s.toList.head? = some c ∧ isWordStart c = true := (Option.any_eq_true _ _).mp named.start

namespace Binary64

def abs (x : Binary64) : Binary64 := ofMagnitude false x.magnitude

theorem toNat_ofMagnitude {m : Nat} (small : m < 0x8000000000000000) :
    (ofMagnitude false m).bits.toNat = m := by
  show m % 2 ^ 64 = m
  omega

theorem magnitude_lt (x : Binary64) : x.magnitude < 0x8000000000000000 :=
  Nat.mod_lt _ (by decide)

theorem toNat_abs (x : Binary64) : x.abs.bits.toNat = x.magnitude :=
  toNat_ofMagnitude x.magnitude_lt

theorem magnitude_abs (x : Binary64) : x.abs.magnitude = x.magnitude := by
  rw [magnitude, toNat_abs, Nat.mod_eq_of_lt x.magnitude_lt]

theorem isNegative_abs (x : Binary64) : x.abs.isNegative = false := by
  rw [isNegative, toNat_abs]
  exact decide_eq_false (Nat.not_le_of_lt x.magnitude_lt)

theorem isFinite_abs {x : Binary64} (finite : x.isFinite = true) : x.abs.isFinite = true := by
  rw [isFinite, magnitude_abs]
  exact finite

theorem eq_of_magnitude {x y : Binary64} (positive : x.isNegative = false)
    (positive' : y.isNegative = false) (same : x.magnitude = y.magnitude) : x = y := by
  have bits : ∀ {z : Binary64}, z.isNegative = false → z.bits.toNat = z.magnitude := fun h =>
    (Nat.mod_eq_of_lt (Nat.lt_of_not_le (of_decide_eq_false h))).symm
  obtain ⟨x⟩ := x
  obtain ⟨y⟩ := y
  exact congrArg mk (UInt64.toNat_inj.mp ((bits positive).trans (same.trans (bits positive').symm)))

theorem toList_text {x : Binary64} (finite : x.isFinite = true) :
    x.text.toList = if x.isNegative then '-' :: x.unsigned else x.unsigned := by
  have notNaN : x.isNaN = false :=
    decide_eq_false (Nat.lt_asymm (of_decide_eq_true finite))
  rw [text, notNaN, if_neg Bool.false_ne_true, String.toList_ofList]

end Binary64

namespace Token

def plain (lexeme : String) : Token := ⟨.identifier, lexeme, none, 0, 0⟩

def bare (t : Token) : Token := plain t.lexeme

end Token

namespace Expr

/-- A literal, where the sign of a number is an operator. -/
def ofValue : Value → Expr
  | .number n =>
    if n.isNegative then .unary .neg (.plain UnaryOp.neg.symbol) (.literal (.number n.abs))
    else .literal (.number n)
  | v => .literal v

mutual

/-- The tree with every number that has a sign replaced by the minus of its absolute value. -/
def norm : Expr → Expr
  | literal v => ofValue v
  | unary op t e => unary op t e.norm
  | binary op t l r => binary op t l.norm r.norm
  | cond c y n i j => cond c.norm y.norm n.norm i j
  | letIn bs e => letIn (normBindings bs) e.norm
  | var t => var t
  | function t ps e => function t ps e.norm
  | call t es => call t (normArgs es)
termination_by structural e => e

def normBindings : List (Token × Expr) → List (Token × Expr)
  | [] => []
  | (t, e) :: bs => (t, e.norm) :: normBindings bs
termination_by structural bs => bs

def normArgs : List Expr → List Expr
  | [] => []
  | e :: es => e.norm :: normArgs es
termination_by structural es => es

end

mutual

/-- The tree without the sites, the offsets and the texts of its operators. Two trees are the same
up to these if they have the same bare tree. -/
def bare : Expr → Expr
  | literal v => literal v
  | unary op _ e => unary op (.plain op.symbol) e.bare
  | binary op _ l r => binary op (.plain op.symbol) l.bare r.bare
  | cond c y n _ _ => cond c.bare y.bare n.bare 0 0
  | letIn bs e => letIn (bareBindings bs) e.bare
  | var t => var t.bare
  | function t ps e => function t.bare (ps.map Token.bare) e.bare
  | call t es => call t.bare (bareArgs es)
termination_by structural e => e

def bareBindings : List (Token × Expr) → List (Token × Expr)
  | [] => []
  | (t, e) :: bs => (t.bare, e.bare) :: bareBindings bs
termination_by structural bs => bs

def bareArgs : List Expr → List Expr
  | [] => []
  | e :: es => e.bare :: bareArgs es
termination_by structural es => es

end

def form (e : Expr) : Expr := e.norm.bare

end Expr

def Value.Readable : Value → Prop
  | .number n => n.isFinite = true
  | _ => True

instance (v : Value) : Decidable v.Readable := by
  cases v <;> unfold Value.Readable <;> infer_instance

namespace Expr

mutual

/-- Every number of the tree is finite, and every identifier is a name. -/
def Readable : Expr → Prop
  | literal v => v.Readable
  | unary _ _ e => e.Readable
  | binary _ _ l r => l.Readable ∧ r.Readable
  | cond c y n _ _ => c.Readable ∧ y.Readable ∧ n.Readable
  | letIn bs e => ReadableBindings bs ∧ e.Readable
  | var t => IsName t.lexeme
  | function t ps e => IsName t.lexeme ∧ (∀ p ∈ ps, IsName p.lexeme) ∧ e.Readable
  | call t es => IsName t.lexeme ∧ ReadableArgs es
termination_by structural e => e

def ReadableBindings : List (Token × Expr) → Prop
  | [] => True
  | (t, e) :: bs => (IsName t.lexeme ∧ e.Readable) ∧ ReadableBindings bs
termination_by structural bs => bs

def ReadableArgs : List Expr → Prop
  | [] => True
  | e :: es => e.Readable ∧ ReadableArgs es
termination_by structural es => es

end

theorem readableBindings_iff {bs : List (Token × Expr)} :
    ReadableBindings bs ↔ ∀ b ∈ bs, IsName b.1.lexeme ∧ b.2.Readable := by
  induction bs with
  | nil => exact ⟨fun _ _ member => (nomatch member), fun _ => trivial⟩
  | cons b bs ih => rw [List.forall_mem_cons, ← ih, ReadableBindings]

theorem readableArgs_iff {es : List Expr} : ReadableArgs es ↔ ∀ e ∈ es, e.Readable := by
  induction es with
  | nil => exact ⟨fun _ _ member => (nomatch member), fun _ => trivial⟩
  | cons e es ih => rw [List.forall_mem_cons, ← ih, ReadableArgs]

theorem form_letIn (bs : List (Token × Expr)) (e : Expr) :
    (letIn bs e).form = letIn (bs.map fun b => (b.1.bare, b.2.form)) e.form := by
  refine congrArg (letIn · e.form) ?_
  induction bs with
  | nil => rfl
  | cons b bs ih => exact congrArg ((b.1.bare, b.2.form) :: ·) ih

theorem form_call (t : Token) (es : List Expr) : (call t es).form = call t.bare (es.map form) := by
  refine congrArg (call t.bare) ?_
  induction es with
  | nil => rfl
  | cons e es ih => exact congrArg (e.form :: ·) ih

theorem printBindings_eq (bs : List (Token × Expr)) :
    printBindings bs = bs.map fun b => b.1.lexeme ++ " = " ++ b.2.print := by
  induction bs with
  | nil => rfl
  | cons b bs ih => rw [printBindings, ih, List.map_cons]

theorem printArgs_eq (es : List Expr) : printArgs es = es.map print := by
  induction es with
  | nil => rfl
  | cons e es ih => rw [printArgs, ih, List.map_cons]

/-! ### The text of a form -/

theorem form_negative {n : Binary64} (negative : n.isNegative = true) :
    (literal (.number n)).form = unary .neg (.plain UnaryOp.neg.symbol) (literal (.number n.abs)) := by
  rw [form, norm, ofValue, if_pos negative]
  rfl

theorem form_positive {n : Binary64} (positive : n.isNegative = false) :
    (literal (.number n)).form = literal (.number n) := by
  rw [form, norm, ofValue, positive]
  rfl

theorem isCompound_form (e : Expr) : e.form.isCompound = e.isCompound := by
  cases e with
  | literal v =>
    cases v with
    | number n =>
      cases sign : n.isNegative with
      | true => rw [form_negative sign]; rfl
      | false => rw [form_positive sign]
    | string | boolean => rfl
  | _ => rfl

theorem isSigned_form (e : Expr) : e.form.isSigned = e.isSigned := by
  cases e with
  | literal v =>
    cases v with
    | number n =>
      cases sign : n.isNegative with
      | true => rw [form_negative sign]; exact sign.symm
      | false => rw [form_positive sign]
    | string | boolean => rfl
  | _ => rfl

theorem print_negative {n : Binary64} (finite : n.isFinite = true) (negative : n.isNegative = true) :
    (literal (.number n)).print = "-" ++ (literal (.number n.abs)).print := by
  have text := Binary64.toList_text finite
  rw [negative, if_pos rfl] at text
  have absolute := Binary64.toList_text (Binary64.isFinite_abs finite)
  rw [n.isNegative_abs, if_neg Bool.false_ne_true, Binary64.unsigned_congr n.magnitude_abs] at absolute
  refine String.toList_inj.mp (text.trans ?_)
  rw [String.toList_append]
  exact congrArg ('-' :: ·) absolute.symm

theorem print_form (e : Expr) (readable : e.Readable) : e.form.print = e.print := by
  induction e using Expr.induction with
  | literal v =>
    cases v with
    | number n =>
      cases sign : n.isNegative with
      | true =>
        have unsigned : (literal (.number n.abs)).isSigned = false := n.isNegative_abs
        rw [form_negative sign, print_negative readable sign]
        show "-" ++ parenthesized ((literal (.number n.abs)).isSigned || false) _ = _
        rw [unsigned]
        rfl
      | false => rw [form_positive sign]
    | string | boolean => rfl
  | unary op t e operand =>
    show op.symbol ++ parenthesized (e.form.isSigned || e.form.isCompound) e.form.print = _
    rw [operand readable, isSigned_form, isCompound_form, print]
  | binary op t l r left right =>
    show parenthesized l.form.isCompound l.form.print ++ " " ++ op.symbol ++ " " ++
      parenthesized r.form.isCompound r.form.print = _
    rw [left readable.1, right readable.2, isCompound_form, isCompound_form, print]
  | cond c y n i j condition yes no =>
    show "if (" ++ c.form.print ++ ") " ++ parenthesized y.form.isCompound y.form.print ++ " else " ++
      n.form.print = _
    rw [condition readable.1, yes readable.2.1, no readable.2.2, isCompound_form, print]
  | letIn bs e bindings body =>
    have each := readableBindings_iff.mp readable.1
    rw [form_letIn, print, print, body readable.2, printBindings_eq, printBindings_eq, List.map_map]
    refine congrArg (fun texts => "let " ++ commaSeparated texts ++ " in " ++ e.print) ?_
    exact List.map_congr_left fun b member =>
      congrArg (b.1.lexeme ++ " = " ++ ·) (bindings b member (each b member).2)
  | var t => rfl
  | function t ps e body =>
    show "function " ++ t.lexeme ++ "(" ++ commaSeparated ((ps.map Token.bare).map Token.lexeme) ++
      ") => " ++ e.form.print = _
    rw [body readable.2.2, List.map_map, print]
    rfl
  | call t es args =>
    have each := readableArgs_iff.mp readable.2
    rw [form_call, print, print, printArgs_eq, printArgs_eq, List.map_map]
    refine congrArg (fun texts => t.lexeme ++ "(" ++ commaSeparated texts ++ ")") ?_
    exact List.map_congr_left fun e member => args e member (each e member)

end Expr

end LetLang
