import LetLang.Proofs.Reading.Form

/-!
# A reader of printed trees

`Reader.expr` reads a tree off the front of a text, and `Reader.primary` a tree that can be an
operand.
-/

namespace LetLang

def BinaryOp.ofSymbol (s : String) : Option BinaryOp :=
  (TokenKind.all.find? (·.spelling = s)).bind ofKind

theorem BinaryOp.ofSymbol_symbol (op : BinaryOp) : ofSymbol op.symbol = some op := by
  cases op <;> decide

abbrev Reader : Type → Type := StateT (List Char) Option

namespace Reader

variable {α β : Type}

def peek : Reader (Option Char) := fun cs => some (cs.head?, cs)

def keyword (s : String) : Reader Unit := fun cs => (cs.dropPrefix? s.toList).map ((), ·)

def span (p : Char → Bool) : Reader (List Char) := fun cs => some (cs.takeWhile p, cs.dropWhile p)

def name : Reader Token := do
  let cs ← span isWordChar
  if cs = [] then failure else return .plain (String.ofList cs)

def operator : Reader BinaryOp := do
  keyword " "
  let symbol ← span (· ≠ ' ')
  keyword " "
  BinaryOp.ofSymbol (String.ofList symbol)

def unescape : Bool → List Char → Option (List Char × List Char)
  | _, [] => none
  | true, c :: cs => (unescape false cs).map (Prod.map (c :: ·) id)
  | false, c :: cs =>
    if c = '"' then some ([], cs)
    else if c = '\\' then unescape true cs
    else (unescape false cs).map (Prod.map (c :: ·) id)

def items (one : Reader α) : Nat → Reader (List α)
  | 0 => failure
  | n + 1 => do
    let a ← one
    (do keyword ", "
        return a :: (← items one n)) <|> return [a]

def list (one : Reader α) (n : Nat) : Reader (List α) := items one n <|> return []

section

variable (expr primary : Reader Expr) (decode : List Char → Binary64) (n : Nat)

def number : Reader Expr := do
  let cs ← span fun c => c.isDigit || c = '.'
  return .literal (.number (decode cs))

def quoted : Reader Expr := do
  keyword "\""
  let cs ← unescape false
  return .literal (.string (String.ofList cs))

def bracketed : Reader Expr := do
  keyword "("
  let e ← expr
  keyword ")"
  return e

def prefixed (op : UnaryOp) : Reader Expr := do
  keyword op.symbol
  return .unary op (.plain op.symbol) (← primary)

def cond : Reader Expr := do
  keyword " ("
  let c ← expr
  keyword ") "
  let y ← primary
  keyword " else "
  return .cond c y (← expr) 0 0

def binding : Reader (Token × Expr) := do
  let t ← name
  keyword " = "
  return (t, ← expr)

def letIn : Reader Expr := do
  keyword " "
  let bs ← list (binding expr) n
  keyword " in "
  return .letIn bs (← expr)

def function : Reader Expr := do
  keyword " "
  let t ← name
  keyword "("
  let ps ← list name n
  keyword ") => "
  return .function t ps (← expr)

def named (t : Token) : Reader Expr :=
  (do keyword "("
      let es ← list expr n
      keyword ")"
      return .call t es) <|> return .var t

def worded : Reader Expr := do
  let cs ← span isWordChar
  let word := String.ofList cs
  if word = "let" then letIn expr n
  else if word = "if" then cond expr primary
  else if word = "function" then function expr n
  else if word = "true" then return .literal (.boolean true)
  else if word = "false" then return .literal (.boolean false)
  else named expr n (.plain word)

def startedBy (c : Char) : Reader Expr :=
  if isWordStart c then worded expr primary n
  else if c.isDigit then number decode
  else if c = '(' then bracketed expr
  else if c = '"' then quoted
  else prefixed primary .neg <|> prefixed primary .not

end

section

variable (decode : List Char → Binary64)

mutual

def expr : Nat → Reader Expr
  | 0 => failure
  | n + 1 => do
    let l ← primary n
    (do let op ← operator
        return .binary op (.plain op.symbol) l (← primary n)) <|> return l
termination_by structural n => n

def primary : Nat → Reader Expr
  | 0 => failure
  | n + 1 => do
    match ← peek with
    | some c => startedBy (expr n) (primary n) decode n c
    | none => failure
termination_by structural n => n

end

end

/-! ### Reading off a text -/

/-- In front of `rest`, `r` reads `a` off `text` and no more. -/
def Reads (r : Reader α) (text : List Char) (a : α) (rest : List Char) : Prop :=
  r (text ++ rest) = some (a, rest)

namespace Reads

variable {r s : Reader α} {next : α → Reader β} {text more rest : List Char} {a : α} {b : β}

theorem pure : Reads (Pure.pure a) [] a rest := rfl

theorem bind_eq (first : Reads r text a rest) : (r >>= next) (text ++ rest) = next a rest := by
  show r (text ++ rest) >>= (fun found => next found.1 found.2) = _
  rw [first]
  rfl

theorem bind (first : Reads r text a (more ++ rest)) (second : Reads (next a) more b rest) :
    Reads (r >>= next) (text ++ more) b rest := by
  rw [Reads, List.append_assoc]
  exact first.bind_eq.trans second

theorem bind_none (first : Reads r text a rest) (fails : next a rest = none) :
    (r >>= next) (text ++ rest) = none := first.bind_eq.trans fails

theorem last (first : Reads r text a rest) (second : Reads (next a) [] b rest) :
    Reads (r >>= next) text b rest := first.bind_eq.trans second

theorem or_left (reads : Reads r text a rest) : Reads (r <|> s) text a rest := by
  show (r (text ++ rest) <|> s (text ++ rest)) = _
  rw [reads]
  rfl

theorem or_right (fails : r (text ++ rest) = none) (reads : Reads s text a rest) :
    Reads (r <|> s) text a rest := by
  show (r (text ++ rest) <|> s (text ++ rest)) = _
  rw [fails]
  exact reads

end Reads

theorem bind_none {r : Reader α} {next : α → Reader β} {cs : List Char} (fails : r cs = none) :
    (r >>= next) cs = none := by
  show r cs >>= (fun found => next found.1 found.2) = _
  rw [fails]
  rfl

theorem Reads.lift {found : Option α} {a : α} (h : found = some a) (rest : List Char) :
    Reads (found : Reader α) [] a rest := by
  rw [h]
  rfl

theorem reads_keyword (s : String) (rest : List Char) : Reads (keyword s) s.toList () rest := by
  have dropped : (s.toList ++ rest).dropPrefix? s.toList = some rest :=
    List.dropPrefix?_eq_some_iff.mpr ⟨s.toList, rfl, beq_self_eq_true _⟩
  rw [Reads, keyword, dropped]
  rfl

theorem keyword_none {s : String} (first : Char) {cs : List Char} (starts : s.toList.head? = some first)
    (differs : cs.head? ≠ some first) : keyword s cs = none := by
  obtain ⟨others, text⟩ := List.head?_eq_some_iff.mp starts
  have dropped : cs.dropPrefix? s.toList = none := by
    rw [text]
    cases cs with
    | nil => rfl
    | cons c cs => exact if_neg fun same => differs (congrArg some (eq_of_beq same))
  rw [keyword, dropped]
  rfl

theorem reads_span {p : Char → Bool} {text rest : List Char} (all : text.all p = true)
    (stops : rest.head?.all (fun c => !p c) = true) : Reads (span p) text text rest := by
  have edge : rest.takeWhile p = [] ∧ rest.dropWhile p = rest := by
    cases rest with
    | nil => exact ⟨rfl, rfl⟩
    | cons c rest =>
      have stop : p c = false := by simpa using stops
      exact ⟨List.takeWhile_cons_of_neg (by simp [stop]), List.dropWhile_cons_of_neg (by simp [stop])⟩
  have each := List.all_eq_true.mp all
  rw [Reads, span, List.takeWhile_append_of_pos each, List.dropWhile_append_of_pos each, edge.1,
    edge.2, List.append_nil]

/-- No name, number or call of the text before goes on in `rest`. -/
def Stops (rest : List Char) : Prop :=
  rest.head?.all (fun c => !(isWordChar c || c = '.' || c = '(')) = true

/-- Also no operator follows. -/
structure Ends (rest : List Char) : Prop where
  stops : Stops rest
  noOperator : operator rest = none

theorem Stops.all {rest : List Char} (stops : Stops rest) {p : Char → Bool}
    (among : ∀ c, p c = true → (isWordChar c || c = '.' || c = '(') = true) :
    rest.head?.all (fun c => !p c) = true := by
  cases rest with
  | nil => rfl
  | cons c rest =>
    have stop : (isWordChar c || c = '.' || c = '(') = false := by simpa [Stops] using stops
    have other : p c = false := Bool.eq_false_iff.mpr fun found => by simp [among c found] at stop
    simp [other]

theorem Stops.notWord {rest : List Char} (stops : Stops rest) :
    rest.head?.all (fun c => !isWordChar c) = true :=
  stops.all fun c word => by rw [word]; rfl

theorem Ends.of_head {rest : List Char} {c : Char} (head : rest.head? = some c)
    (stop : (isWordChar c || c = '.' || c = '(' || c = ' ') = false) : Ends rest := by
  obtain ⟨goesOn, blank⟩ := Bool.or_eq_false_iff.mp stop
  refine ⟨by rw [Stops, head, Option.all_some, goesOn]; rfl, bind_none (keyword_none ' ' rfl ?_)⟩
  rw [head]
  rintro ⟨⟩
  exact absurd blank (by decide)

theorem Ends.inWord (more rest : List Char) : Ends (" in ".toList ++ more ++ rest) := by
  have unknown : BinaryOp.ofSymbol (String.ofList "in".toList) = none := by decide
  have word : Reads (span (· ≠ ' ')) "in".toList "in".toList (" ".toList ++ (more ++ rest)) :=
    reads_span rfl rfl
  refine ⟨rfl, (reads_keyword " " ("in".toList ++ (" ".toList ++ (more ++ rest)))).bind_none ?_⟩
  refine word.bind_none ((reads_keyword " " (more ++ rest)).bind_none ?_)
  rw [unknown]
  rfl

theorem Ends.nil : Ends [] := ⟨rfl, rfl⟩

section

variable {rest : List Char}

theorem reads_name {s : String} (named : IsName s)
    (stops : rest.head?.all (fun c => !isWordChar c) = true) : Reads name s.toList (.plain s) rest := by
  have nonempty : s.toList ≠ [] := by
    intro empty
    have start := named.start
    rw [empty] at start
    exact absurd start (by decide)
  refine (reads_span named.chars stops).last ?_
  rw [if_neg nonempty, String.ofList_toList]
  exact .pure

theorem reads_operator (op : BinaryOp) :
    Reads operator (" ".toList ++ (op.symbol.toList ++ " ".toList)) op rest := by
  have symbol : Reads (span (· ≠ ' ')) op.symbol.toList op.symbol.toList (" ".toList ++ rest) :=
    reads_span (by cases op <;> decide) rfl
  have known : BinaryOp.ofSymbol (String.ofList op.symbol.toList) = some op := by
    rw [String.ofList_toList, BinaryOp.ofSymbol_symbol]
  exact (reads_keyword " " _).bind (symbol.bind ((reads_keyword " " rest).last (.lift known rest)))

theorem reads_unescape (cs : List Char) :
    Reads (unescape false) (cs.flatMap Value.escape ++ ['"']) cs rest := by
  induction cs with
  | nil => rfl
  | cons c cs ih =>
    rw [Reads, List.append_assoc] at ih
    rw [Reads, List.flatMap_cons, List.append_assoc, List.append_assoc]
    by_cases special : c = '"' ∨ c = '\\'
    · have escaped : unescape false ('\\' :: c :: (cs.flatMap Value.escape ++ (['"'] ++ rest))) =
          (unescape false (cs.flatMap Value.escape ++ (['"'] ++ rest))).map (Prod.map (c :: ·) id) := rfl
      rw [Value.escape, if_pos special]
      exact escaped.trans (by rw [ih]; rfl)
    · obtain ⟨quote, backslash⟩ := not_or.mp special
      rw [Value.escape, if_neg special, List.singleton_append, unescape, if_neg quote,
        if_neg backslash, ih]
      rfl

variable {one : Reader α} {text : β → String} {value : β → α}

theorem reads_items {xs : List β} (nonempty : xs ≠ []) (ends : Ends rest)
    (last : keyword ", " rest = none)
    (each : ∀ x ∈ xs, ∀ rest, Ends rest → Reads one (text x).toList (value x) rest) {n : Nat}
    (enough : xs.length ≤ n) :
    Reads (items one n) (Expr.commaSeparated (xs.map text)).toList (xs.map value) rest := by
  induction xs generalizing n with
  | nil => exact absurd rfl nonempty
  | cons x xs ih =>
    obtain ⟨n, rfl⟩ := Nat.exists_eq_add_of_le' (Nat.le_trans (Nat.le_add_left 1 _) enough)
    obtain ⟨first, others⟩ := List.forall_mem_cons.mp each
    cases xs with
    | nil =>
      rw [List.map_cons, List.map_nil, Expr.commaSeparated, String.intercalate_singleton]
      exact (first rest ends).last (.or_right (bind_none last) .pure)
    | cons y ys =>
      have more := ih (List.cons_ne_nil y ys) others (Nat.le_of_succ_le_succ enough)
      have text_eq : (Expr.commaSeparated ((x :: y :: ys).map text)).toList = (text x).toList ++
          (", ".toList ++ (Expr.commaSeparated ((y :: ys).map text)).toList) := by
        rw [Expr.commaSeparated, List.map_cons, List.map_cons, String.intercalate_cons_cons,
          String.toList_append, String.toList_append, List.append_assoc]
        rfl
      rw [text_eq]
      refine Reads.bind (first _ (.of_head rfl rfl)) (.or_left ((reads_keyword ", " _).bind (more.last .pure)))

theorem reads_list {xs : List β} (ends : Ends rest) (last : keyword ", " rest = none)
    (closed : one rest = none)
    (each : ∀ x ∈ xs, ∀ rest, Ends rest → Reads one (text x).toList (value x) rest) {n : Nat}
    (enough : xs.length ≤ n) :
    Reads (list one n) (Expr.commaSeparated (xs.map text)).toList (xs.map value) rest := by
  by_cases empty : xs = []
  · subst empty
    refine .or_right ?_ .pure
    cases n with
    | zero => rfl
    | succ n => exact bind_none closed
  · exact .or_left (reads_items empty ends last each enough)

end

end Reader

end LetLang
