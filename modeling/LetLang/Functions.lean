import LetLang.Expr.Basic

/-!
# Declared functions

Functions are told apart by name and number of parameters together.
-/

namespace LetLang

def Declaration.key (d : Declaration) : String × Nat := (d.name.lexeme, d.arity)

/-- The declarations under their keys, the earliest first. -/
structure Functions where
  entries : List ((String × Nat) × Declaration)

namespace Functions

def empty : Functions := ⟨[]⟩

def keys (fs : Functions) : List (String × Nat) := fs.entries.map Prod.fst

def declarations (fs : Functions) : List Declaration := fs.entries.map Prod.snd

def size (fs : Functions) : Nat := fs.entries.length

def insert (fs : Functions) (key : String × Nat) (d : Declaration) : Functions :=
  ⟨fs.entries ++ [(key, d)]⟩

def ofDeclarations (decls : List Declaration) : Functions := ⟨decls.map fun d => (d.key, d)⟩

def declares (fs : Functions) (name : String) : Bool := fs.keys.any (fun key => key.1 == name)

def find? (fs : Functions) (name : String) (arity : Nat) : Option Declaration :=
  fs.entries.lookup (name, arity)

def arities (fs : Functions) (name : String) : List Nat :=
  ((fs.keys.filter (fun key => key.1 == name)).map Prod.snd).mergeSort

def callError (fs : Functions) (name : String) (given : Nat) (offset : UInt32) : Error :=
  match fs.arities name with
  | [] => .undefinedFunction name offset
  | available => .noMatchingOverload name given available offset

theorem keys_insert (fs : Functions) (key : String × Nat) (d : Declaration) :
    (fs.insert key d).keys = fs.keys ++ [key] := by simp [keys, insert]

theorem declarations_insert (fs : Functions) (key : String × Nat) (d : Declaration) :
    (fs.insert key d).declarations = fs.declarations ++ [d] := by simp [declarations, insert]

theorem declares_insert (fs : Functions) (key : String × Nat) (d : Declaration) (name : String) :
    (fs.insert key d).declares name = (fs.declares name || key.1 == name) := by
  simp [declares, keys_insert]

theorem find?_insert (fs : Functions) (key : String × Nat) (d : Declaration) (name : String)
    (arity : Nat) : (fs.insert key d).find? name arity =
      (fs.find? name arity).or (if key = (name, arity) then some d else none) := by
  rw [find?, insert, List.lookup_append, find?]
  by_cases hit : key = (name, arity)
  · simp [hit]
  · have miss : ((name, arity) == key) = false := beq_false_of_ne (Ne.symm hit)
    simp [List.lookup_cons, miss, hit]

theorem arities_insert_of_ne (fs : Functions) {key : String × Nat} (d : Declaration) {name : String}
    (other : key.1 ≠ name) : (fs.insert key d).arities name = fs.arities name := by
  simp [arities, keys_insert, List.filter_append, other]

end Functions

end LetLang
