import LetLang.Interner
import LetLang.Token.Kind
import LetLang.Value

/-!
# Tokens

A token is an occurrence of a lexeme, and its `site` is its identity. `Symbols` gives out tokens,
each with the next site; sites are numbers of 32 bits, and start again after the last one.
-/

namespace LetLang

structure Token where
  kind : TokenKind
  lexeme : String
  literal : Option Value
  offset : UInt32
  site : UInt32
deriving DecidableEq, Inhabited

namespace Token

def sameSite (a b : Token) : Bool := a.site == b.site

def sameLexeme (a b : Token) : Bool := a.lexeme == b.lexeme

def describe (t : Token) (names : Interner) : String :=
  let number := (names.number? t.lexeme).getD 0
  t.kind.name ++ "(Name(" ++ toString number ++ ")) #" ++ toString t.site ++ " @ " ++
    toString t.offset.toNat

end Token

/-- The lexemes seen so far, and the site of the next token. -/
structure Symbols where
  names : Interner
  nextSite : UInt32
deriving DecidableEq

namespace Symbols

def initial : Symbols := ⟨.initial, 0⟩

/-- A token of the next site, once the interner has taken in its lexeme. -/
def token (symbols : Symbols) (kind : TokenKind) (lexeme : String) (literal : Option Value)
    (offset : UInt32) : Except Fault Token × Symbols :=
  match symbols.names.intern lexeme with
  | (.ok _, names) =>
    (.ok ⟨kind, lexeme, literal, offset, symbols.nextSite⟩, ⟨names, symbols.nextSite + 1⟩)
  | (.error f, names) => (.error f, { symbols with names })

def identifier (symbols : Symbols) (lexeme : String) (offset : UInt32) :
    Except Fault Token × Symbols :=
  symbols.token .identifier lexeme none offset

def renamed (symbols : Symbols) (t : Token) (lexeme : String) : Except Fault Token × Symbols :=
  symbols.token t.kind lexeme t.literal t.offset

end Symbols

end LetLang
