import LetLang.Error

/-!
# Reporting

A reporter is told once of every error that ends a run.
-/

namespace LetLang

def Error.reportLine (e : Error) : String := "! " ++ e.display ++ "\n"

inductive Reporter where
  | collector (errors : List Error)
  /-- The text that reached a writer; a closed writer refuses all text, and that is no failure. -/
  | writer (isOpen : Bool) (text : String)
deriving DecidableEq

namespace Reporter

def report (r : Reporter) (e : Error) : Reporter :=
  match r with
  | collector errors => collector (errors ++ [e])
  | writer isOpen text => writer isOpen (if isOpen then text ++ e.reportLine else text)

def raise {α : Type} (r : Reporter) (e : Error) : Except Error α × Reporter := (.error e, r.report e)

def errors : Reporter → List Error
  | collector errors => errors
  | writer .. => []

def text : Reporter → String
  | collector errors => String.join (errors.map Error.reportLine)
  | writer _ text => text

end Reporter

end LetLang
