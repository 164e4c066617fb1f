import LetLang.Expr.Rename

/-!
# Hygienic declarations

A renamer derives fresh tokens from given ones: the old lexeme, the mark `#` and a counter. A
declaration is hygienic once its parameters are such tokens. Counter and interner have 32 bits, and
it is a fault to go past them.
-/

namespace LetLang

structure Renamer where
  issued : UInt32
  symbols : Symbols
deriving DecidableEq

namespace Renamer

def initial : Renamer := ⟨0, .initial⟩

def freshLexeme (lexeme : String) (n : Nat) : String := lexeme ++ "#" ++ n.repr

/-- The counter goes up before the interner is asked for the new lexeme. -/
def fresh (r : Renamer) (t : Token) : Except Fault Token × Renamer :=
  if r.issued.toNat + 1 < UInt32.size then
    let (outcome, symbols) := r.symbols.renamed t (freshLexeme t.lexeme r.issued.toNat)
    (outcome, ⟨r.issued + 1, symbols⟩)
  else (.error .counterOverflow, r)

def freshAll (r : Renamer) : List Token → Except Fault (List Token) × Renamer
  | [] => (.ok [], r)
  | t :: ts =>
    match r.fresh t with
    | (.ok token, r) =>
      let (outcome, r) := r.freshAll ts
      (outcome.map (token :: ·), r)
    | (.error f, r) => (.error f, r)

end Renamer

namespace Declaration

def renameBody (body : Expr) (pairs : List (Token × Token)) : Expr :=
  pairs.foldl (fun e pair => e.replace pair.1 pair.2) body

def withParams (d : Declaration) (fresh : List Token) : Declaration :=
  ⟨d.name, fresh, renameBody d.body (d.params.zip fresh)⟩

def hygienic (d : Declaration) (r : Renamer) : Except Fault Declaration × Renamer :=
  let (outcome, r) := r.freshAll d.params
  (outcome.map d.withParams, r)

end Declaration

end LetLang
