/-!
# Token kinds

`spelling` is the source text of a kind whose text is fixed, and a description of the others.
-/

namespace LetLang

inductive TokenKind where
  | identifier | number | string | boolean
  | letWord | inWord | ifWord | elseWord | functionWord
  | plus | minus | star | slash | percent | caret | atSign | bang | amp | pipe
  | less | lessEqual | greater | greaterEqual | equalEqual | bangEqual
  | equal | arrow | leftParen | rightParen | comma | semicolon
  | eof
deriving DecidableEq, Inhabited

namespace TokenKind

def all : List TokenKind :=
  [identifier, number, string, boolean, letWord, inWord, ifWord, elseWord, functionWord,
    plus, minus, star, slash, percent, caret, atSign, bang, amp, pipe,
    less, lessEqual, greater, greaterEqual, equalEqual, bangEqual,
    equal, arrow, leftParen, rightParen, comma, semicolon, eof]

def spelling : TokenKind → String
  | identifier => "identifier"
  | number => "number"
  | string => "string"
  | boolean => "boolean"
  | letWord => "let"
  | inWord => "in"
  | ifWord => "if"
  | elseWord => "else"
  | functionWord => "function"
  | plus => "+"
  | minus => "-"
  | star => "*"
  | slash => "/"
  | percent => "%"
  | caret => "^"
  | atSign => "@"
  | bang => "!"
  | amp => "&"
  | pipe => "|"
  | less => "<"
  | lessEqual => "<="
  | greater => ">"
  | greaterEqual => ">="
  | equalEqual => "=="
  | bangEqual => "!="
  | equal => "="
  | arrow => "=>"
  | leftParen => "("
  | rightParen => ")"
  | comma => ","
  | semicolon => ";"
  | eof => "end of input"

def name : TokenKind → String
  | identifier => "Identifier"
  | number => "Number"
  | string => "String"
  | boolean => "Boolean"
  | letWord => "Let"
  | inWord => "In"
  | ifWord => "If"
  | elseWord => "Else"
  | functionWord => "Function"
  | plus => "Plus"
  | minus => "Minus"
  | star => "Star"
  | slash => "Slash"
  | percent => "Percent"
  | caret => "Caret"
  | atSign => "At"
  | bang => "Bang"
  | amp => "Amp"
  | pipe => "Pipe"
  | less => "Less"
  | lessEqual => "LessEqual"
  | greater => "Greater"
  | greaterEqual => "GreaterEqual"
  | equalEqual => "EqualEqual"
  | bangEqual => "BangEqual"
  | equal => "Equal"
  | arrow => "Arrow"
  | leftParen => "LeftParen"
  | rightParen => "RightParen"
  | comma => "Comma"
  | semicolon => "Semicolon"
  | eof => "Eof"

def ofName (s : String) : Option TokenKind := all.find? (fun k => k.name = s)

end TokenKind

end LetLang
