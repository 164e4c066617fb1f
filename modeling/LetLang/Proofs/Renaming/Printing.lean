import LetLang.Expr.Printer
import LetLang.Proofs.Reading.Digits
import LetLang.Proofs.Renaming.Simultaneous

/-!
# Printed trees without marks

Outside of strings, the mark of a fresh name and the digits behind it can be taken out of a printed
tree.
-/

namespace LetLang

inductive Reading where
  | code | mark | string | escape
deriving DecidableEq

namespace Reading

def next : Reading → Char → Reading
  | code, c => if c = '#' then mark else if c = '"' then string else code
  | mark, c => if c = '#' ∨ c.isDigit then mark else if c = '"' then string else code
  | string, c => if c = '\\' then escape else if c = '"' then code else string
  | escape, _ => string

def keeps : Reading → Char → Bool
  | code, c => c ≠ '#'
  | mark, c => c ≠ '#' && !c.isDigit
  | string, _ | escape, _ => true

def unmarked (reading : Reading) : List Char → List Char
  | [] => []
  | c :: cs =>
    if reading.keeps c then c :: unmarked (reading.next c) cs else unmarked (reading.next c) cs

theorem unmarked_bare {cs : List Char} (bare : ∀ c ∈ cs, c ≠ '#' ∧ c ≠ '"') (rest : List Char) :
    unmarked code (cs ++ rest) = cs ++ unmarked code rest := by
  induction cs with
  | nil => rfl
  | cons c cs ih =>
    obtain ⟨⟨mark, quote⟩, others⟩ := List.forall_mem_cons.mp bare
    simp [unmarked, keeps, next, mark, quote, ih others]

theorem unmarked_digits {ds rest : List Char} (digits : ∀ d ∈ ds, d.isDigit = true)
    (ends : rest.head?.any Char.isDigit = false) :
    unmarked mark (ds ++ rest) = unmarked code rest := by
  induction ds with
  | nil =>
    cases rest with
    | nil => rfl
    | cons c cs =>
      have other : c.isDigit = false := by simpa using ends
      simp [unmarked, keeps, next, other]
  | cons d ds ih =>
    obtain ⟨first, others⟩ := List.forall_mem_cons.mp digits
    simpa [unmarked, keeps, next, first] using ih others

theorem unmarked_escape (cs rest : List Char) :
    unmarked string (cs.flatMap Value.escape ++ '"' :: rest) =
      cs.flatMap Value.escape ++ '"' :: unmarked code rest := by
  induction cs with
  | nil => rfl
  | cons c cs ih =>
    rw [List.flatMap_cons, List.append_assoc, List.append_assoc, ← ih]
    by_cases special : c = '"' ∨ c = '\\'
    · simp [Value.escape, special, unmarked, keeps, next]
    · obtain ⟨quote, backslash⟩ := not_or.mp special
      simp [Value.escape, quote, backslash, unmarked, keeps, next]

end Reading

/-- A printed text without the marks that are outside of its strings. -/
def unmark (text : String) : String := String.ofList (Reading.unmarked .code text.toList)

open Reading (unmarked)

/-- Behind `text` a reader is as before it, and has read `plain`. -/
def Closes (text plain : String) : Prop :=
  ∀ rest, unmarked .code (text.toList ++ rest) = plain.toList ++ unmarked .code rest

/-- If no digit follows, a reader of `text` has read `plain`. -/
def Unmarks (text plain : String) : Prop :=
  ∀ rest, rest.head?.any Char.isDigit = false →
    unmarked .code (text.toList ++ rest) = plain.toList ++ unmarked .code rest

/-- A text in which neither a mark nor a string starts. -/
def Bare (text : String) : Prop := ∀ c ∈ text.toList, c ≠ '#' ∧ c ≠ '"'

instance (text : String) : Decidable (Bare text) := List.decidableBAll _ _

def Separator (text : String) : Prop :=
  Bare text ∧ text.toList.head?.any (fun c => !c.isDigit) = true

instance (text : String) : Decidable (Separator text) := inferInstanceAs (Decidable (_ ∧ _))

theorem unmark_eq {text plain : String} (unmarks : Unmarks text plain) : unmark text = plain := by
  have whole := unmarks [] rfl
  rw [List.append_nil, Reading.unmarked, List.append_nil] at whole
  rw [unmark, whole, String.ofList_toList]

namespace Closes

variable {a b a' b' : String}

theorem unmarks (closes : Closes a a') : Unmarks a a' := fun rest _ => closes rest

theorem bare (bare : Bare a) : Closes a a := fun rest => Reading.unmarked_bare bare rest

theorem append_unmarks (first : Closes a a') (second : Unmarks b b') :
    Unmarks (a ++ b) (a' ++ b') := by
  intro rest digit
  rw [String.toList_append, String.toList_append, List.append_assoc, List.append_assoc, first,
    second rest digit]

end Closes

namespace Unmarks

variable {a b a' b' : String}

theorem append (first : Unmarks a a') (separator : Separator b) : Closes (a ++ b) (a' ++ b) := by
  obtain ⟨bare, head⟩ := separator
  intro rest
  have digit : (b.toList ++ rest).head?.any Char.isDigit = false := by
    cases chars : b.toList with
    | nil => simp [chars] at head
    | cons c cs => simpa [chars] using head
  rw [String.toList_append, String.toList_append, List.append_assoc, List.append_assoc,
    first _ digit, Closes.bare bare]

theorem parenthesized (inner : Unmarks a a') (needed : Bool) :
    Unmarks (Expr.parenthesized needed a) (Expr.parenthesized needed a') := by
  cases needed with
  | true => exact (((Closes.bare (by decide)).append_unmarks inner).append (by decide)).unmarks
  | false => exact inner

end Unmarks

theorem Decimal.bare_positional (d : Decimal) : ∀ c ∈ d.positional, c ≠ '#' ∧ c ≠ '"' := by
  intro c member
  have numeric := d.numeric_positional c member
  constructor <;> (rintro rfl; exact absurd numeric (by decide))

theorem Binary64.bare_text (x : Binary64) : Bare x.text := by
  have unsigned : ∀ c ∈ x.unsigned, c ≠ '#' ∧ c ≠ '"' := by
    unfold Binary64.unsigned
    split
    · simp
    · split
      · simp
      · exact Decimal.bare_positional _
  unfold Binary64.text
  split
  · decide
  · rw [Bare, String.toList_ofList]
    split
    · exact List.forall_mem_cons.mpr ⟨by decide, unsigned⟩
    · exact unsigned

theorem Closes.quoted (v : Value) : Closes v.quoted v.quoted := by
  cases v with
  | number n => exact .bare (Binary64.bare_text n)
  | string s =>
    intro rest
    have inner := Reading.unmarked_escape s.toList rest
    simp [Value.quoted, unmarked, Reading.keeps, Reading.next, inner]
  | boolean b => cases b <;> exact .bare (by decide)

theorem Unmarks.freshLexeme {name : String} (bare : Bare name) (n : Nat) :
    Unmarks (Renamer.freshLexeme name n) name := by
  intro rest ends
  rw [Renamer.toList_freshLexeme, List.append_assoc, Closes.bare bare]
  exact congrArg (name.toList ++ ·) (Reading.unmarked_digits (Decimal.isDigit_toDigits n) ends)

namespace Token

def mapLexeme (f : String → String) (t : Token) : Token := { t with lexeme := f t.lexeme }

end Token

namespace Expr

mutual

def mapNames (f : String → String) : Expr → Expr
  | literal v => literal v
  | unary op t e => unary op t (e.mapNames f)
  | binary op t l r => binary op t (l.mapNames f) (r.mapNames f)
  | cond c y n i j => cond (c.mapNames f) (y.mapNames f) (n.mapNames f) i j
  | letIn bs e => letIn (mapNamesOfBindings f bs) (e.mapNames f)
  | var t => var (t.mapLexeme f)
  | function t ps e => function (t.mapLexeme f) (ps.map (Token.mapLexeme f)) (e.mapNames f)
  | call t es => call (t.mapLexeme f) (mapNamesOfArgs f es)
termination_by structural e => e

def mapNamesOfBindings (f : String → String) : List (Token × Expr) → List (Token × Expr)
  | [] => []
  | (t, e) :: bs => (t.mapLexeme f, e.mapNames f) :: mapNamesOfBindings f bs
termination_by structural bs => bs

def mapNamesOfArgs (f : String → String) : List Expr → List Expr
  | [] => []
  | e :: es => e.mapNames f :: mapNamesOfArgs f es
termination_by structural es => es

end

variable {f : String → String}

theorem isCompound_mapNames (e : Expr) : (e.mapNames f).isCompound = e.isCompound := by
  cases e <;> rfl

theorem isSigned_mapNames (e : Expr) : (e.mapNames f).isSigned = e.isSigned := by
  cases e <;> rfl

end Expr

def Declaration.mapNames (f : String → String) (d : Declaration) : Declaration :=
  ⟨d.name.mapLexeme f, d.params.map (Token.mapLexeme f), d.body.mapNames f⟩

namespace Unmarks

inductive Each : List String → List String → Prop where
  | nil : Each [] []
  | cons {a a' : String} {as as' : List String} (first : Unmarks a a') (rest : Each as as') :
    Each (a :: as) (a' :: as')

theorem commaSeparated {as as' : List String} (each : Each as as') :
    Unmarks (Expr.commaSeparated as) (Expr.commaSeparated as') := by
  unfold Expr.commaSeparated
  induction each with
  | nil => exact (Closes.bare (by decide)).unmarks
  | cons first rest ih =>
    cases rest with
    | nil => simpa [String.intercalate_singleton] using first
    | cons second others =>
      rw [String.intercalate_cons_cons, String.intercalate_cons_cons]
      exact (first.append (by decide)).append_unmarks ih

end Unmarks

/-- A name whose mark can be told from what is around it. -/
def Token.Legible (t : Token) : Prop := Unmarks t.lexeme (Renamer.original t.lexeme)

namespace Expr

open Renamer (original)

theorem unmarks_params {ps : List Token} (legible : ∀ p ∈ ps, p.Legible) :
    Unmarks.Each (ps.map Token.lexeme) ((ps.map (Token.mapLexeme original)).map Token.lexeme) := by
  induction ps with
  | nil => exact .nil
  | cons p ps ih =>
    obtain ⟨first, rest⟩ := List.forall_mem_cons.mp legible
    exact .cons first (ih rest)

theorem unmarks_printBindings {bs : List (Token × Expr)}
    (each : ∀ b ∈ bs, (∀ t ∈ b.2.tokens, t.Legible) →
      Unmarks b.2.print (b.2.mapNames original).print)
    (legible : ∀ t ∈ tokensOfBindings bs, t.Legible) :
    Unmarks.Each (printBindings bs) (printBindings (mapNamesOfBindings original bs)) := by
  induction bs with
  | nil => exact .nil
  | cons b bs ih =>
    obtain ⟨t, e⟩ := b
    obtain ⟨value, rest⟩ := List.forall_mem_cons.mp each
    simp only [tokensOfBindings, List.forall_mem_cons, List.forall_mem_append] at legible
    obtain ⟨binder, inside, others⟩ := legible
    exact .cons ((Unmarks.append binder (by decide)).append_unmarks (value inside)) (ih rest others)

theorem unmarks_printArgs {es : List Expr}
    (each : ∀ e ∈ es, (∀ t ∈ e.tokens, t.Legible) → Unmarks e.print (e.mapNames original).print)
    (legible : ∀ t ∈ tokensOfArgs es, t.Legible) :
    Unmarks.Each (printArgs es) (printArgs (mapNamesOfArgs original es)) := by
  induction es with
  | nil => exact .nil
  | cons e es ih =>
    obtain ⟨first, rest⟩ := List.forall_mem_cons.mp each
    simp only [tokensOfArgs, List.forall_mem_append] at legible
    exact .cons (first legible.1) (ih rest legible.2)

theorem unmarks_print (e : Expr) (legible : ∀ t ∈ e.tokens, t.Legible) :
    Unmarks e.print (e.mapNames original).print := by
  induction e using Expr.induction with
  | literal v => exact (Closes.quoted v).unmarks
  | unary op t e operand =>
    simp only [tokens, List.forall_mem_cons] at legible
    have symbol : Bare op.symbol := by cases op <;> decide
    simp only [print, mapNames, isSigned_mapNames, isCompound_mapNames]
    exact (Closes.bare symbol).append_unmarks ((operand legible.2).parenthesized _)
  | binary op t l r left right =>
    simp only [tokens, List.forall_mem_cons, List.forall_mem_append] at legible
    have symbol : Separator op.symbol := by cases op <;> decide
    simp only [print, mapNames, isCompound_mapNames]
    have before := ((left legible.2.1).parenthesized l.isCompound).append (b := " ") (by decide)
    have operator := (before.unmarks.append symbol).unmarks.append (b := " ") (by decide)
    exact operator.append_unmarks ((right legible.2.2).parenthesized _)
  | cond c y n i j condition yes no =>
    simp only [tokens, List.forall_mem_append] at legible
    simp only [print, mapNames, isCompound_mapNames]
    have opened : Closes "if (" "if (" := .bare (by decide)
    have tested := (opened.append_unmarks (condition legible.1)).append (b := ") ") (by decide)
    have branch := tested.append_unmarks ((yes legible.2.1).parenthesized y.isCompound)
    have other := branch.append (b := " else ") (by decide)
    exact other.append_unmarks (no legible.2.2)
  | letIn bs e bindings body =>
    simp only [tokens, List.forall_mem_append] at legible
    simp only [print, mapNames]
    have opened : Closes "let " "let " := .bare (by decide)
    have bound := opened.append_unmarks (.commaSeparated (unmarks_printBindings bindings legible.1))
    exact (bound.append (b := " in ") (by decide)).append_unmarks (body legible.2)
  | var t => exact legible t List.mem_cons_self
  | function t ps e body =>
    simp only [tokens, List.forall_mem_cons, List.forall_mem_append] at legible
    simp only [print, mapNames]
    have keyword : Closes "function " "function " := .bare (by decide)
    have opened := (keyword.append_unmarks legible.1).append (b := "(") (by decide)
    have params := opened.append_unmarks (.commaSeparated (unmarks_params legible.2.1))
    exact (params.append (b := ") => ") (by decide)).append_unmarks (body legible.2.2)
  | call t es args =>
    simp only [tokens, List.forall_mem_cons] at legible
    simp only [print, mapNames]
    have opened := Unmarks.append legible.1 (b := "(") (by decide)
    have given := opened.append_unmarks (.commaSeparated (unmarks_printArgs args legible.2))
    exact (given.append (b := ")") (by decide)).unmarks

/-! ### The renamed tree -/

variable {handles visible : List (Token × Token)}

theorem isCompound_renameIn (e : Expr) : (renameIn handles visible e).isCompound = e.isCompound := by
  cases e <;> rfl

theorem isSigned_renameIn (e : Expr) : (renameIn handles visible e).isSigned = e.isSigned := by
  cases e <;> rfl

def PrintsBack (handles : List (Token × Token)) (e : Expr) : Prop :=
  ∀ visible, visible ⊆ handles → (∀ t ∈ e.tokens, t.Ordinary handles) →
    ((renameIn handles visible e).mapNames original).print = e.print

theorem map_original {ts : List Token} (ordinary : ∀ t ∈ ts, t.Ordinary handles) :
    (ts.map (Token.mapLexeme original)).map Token.lexeme = ts.map Token.lexeme := by
  rw [List.map_map]
  exact List.map_congr_left fun t member => Renamer.original_of_plain (ordinary t member).plain

theorem original_renamedBy (derived : ∀ pair ∈ handles, original pair.2.lexeme = pair.1.lexeme)
    (sub : visible ⊆ handles) {t : Token} (ordinary : t.Ordinary handles) :
    original (t.renamedBy handles visible).lexeme = t.lexeme := by
  rw [ordinary.renamedBy]
  cases found : Token.standIn? visible t.lexeme with
  | none => exact Renamer.original_of_plain ordinary.plain
  | some f =>
    obtain ⟨pair, member, name, rfl⟩ := Token.standIn?_mem found
    exact (derived pair (sub member)).trans name

theorem printBindings_back {bs : List (Token × Expr)} (each : ∀ b ∈ bs, PrintsBack handles b.2)
    (sub : visible ⊆ handles) (ordinary : ∀ t ∈ tokensOfBindings bs, t.Ordinary handles) :
    printBindings (mapNamesOfBindings original (renameBindings handles visible bs)) =
      printBindings bs := by
  induction bs generalizing visible with
  | nil => rfl
  | cons b bs ih =>
    obtain ⟨t, e⟩ := b
    obtain ⟨first, rest⟩ := List.forall_mem_cons.mp each
    simp only [tokensOfBindings, List.forall_mem_cons, List.forall_mem_append] at ordinary
    obtain ⟨binder, value, others⟩ := ordinary
    have sub' := Token.remaining_subset_of sub [t]
    have name : (t.mapLexeme original).lexeme = t.lexeme := Renamer.original_of_plain binder.plain
    simp only [renameBindings, mapNamesOfBindings, printBindings, binder.reboundBy, name,
      first visible sub value, ih rest sub' others]

theorem printArgs_back {es : List Expr} (each : ∀ e ∈ es, PrintsBack handles e)
    (sub : visible ⊆ handles) (ordinary : ∀ t ∈ tokensOfArgs es, t.Ordinary handles) :
    printArgs (mapNamesOfArgs original (renameArgs handles visible es)) = printArgs es := by
  induction es with
  | nil => rfl
  | cons e es ih =>
    obtain ⟨first, rest⟩ := List.forall_mem_cons.mp each
    simp only [tokensOfArgs, List.forall_mem_append] at ordinary
    simp only [renameArgs, mapNamesOfArgs, printArgs, first visible sub ordinary.1,
      ih rest ordinary.2]

theorem printsBack (derived : ∀ pair ∈ handles, original pair.2.lexeme = pair.1.lexeme) (e : Expr) :
    PrintsBack handles e := by
  induction e using Expr.induction with
  | literal v => exact fun _ _ _ => rfl
  | unary op t e operand =>
    intro visible sub ordinary
    simp only [tokens, List.forall_mem_cons] at ordinary
    simp only [renameIn, mapNames, print, isSigned_mapNames, isCompound_mapNames, isSigned_renameIn,
      isCompound_renameIn, operand visible sub ordinary.2]
  | binary op t l r left right =>
    intro visible sub ordinary
    simp only [tokens, List.forall_mem_cons, List.forall_mem_append] at ordinary
    simp only [renameIn, mapNames, print, isCompound_mapNames, isCompound_renameIn,
      left visible sub ordinary.2.1, right visible sub ordinary.2.2]
  | cond c y n i j condition yes no =>
    intro visible sub ordinary
    simp only [tokens, List.forall_mem_append] at ordinary
    simp only [renameIn, mapNames, print, isCompound_mapNames, isCompound_renameIn,
      condition visible sub ordinary.1, yes visible sub ordinary.2.1, no visible sub ordinary.2.2]
  | letIn bs e bindings body =>
    intro visible sub ordinary
    simp only [tokens, List.forall_mem_append] at ordinary
    have sub' := Token.remaining_subset_of sub (bs.map Prod.fst)
    simp only [renameIn, mapNames, print, printBindings_back bindings sub ordinary.1,
      body _ sub' ordinary.2]
  | var t =>
    intro visible sub ordinary
    exact original_renamedBy derived sub (ordinary t List.mem_cons_self)
  | function t ps e body =>
    intro visible sub ordinary
    simp only [tokens, List.forall_mem_cons, List.forall_mem_append] at ordinary
    have sub' := Token.remaining_subset_of sub ps
    have name : (t.mapLexeme original).lexeme = t.lexeme :=
      Renamer.original_of_plain ordinary.1.plain
    simp only [renameIn, mapNames, print, name, map_reboundBy ordinary.2.1, map_original ordinary.2.1,
      body _ sub' ordinary.2.2]
  | call t es args =>
    intro visible sub ordinary
    simp only [tokens, List.forall_mem_cons] at ordinary
    have name : (t.mapLexeme original).lexeme = t.lexeme :=
      Renamer.original_of_plain ordinary.1.plain
    simp only [renameIn, mapNames, print, name, printArgs_back args sub ordinary.2]

end Expr

end LetLang
