import Mathlib.Data.Set.Function
import LetLang.Proofs.Reading.Reader

/-!
# Printed trees are unambiguous

The reader reads the form of a readable tree off its text. So two readable trees have the same text
just if they have the same form.
-/

namespace LetLang

namespace Expr

theorem toList_binary (op : BinaryOp) (t : Token) (l r : Expr) : (binary op t l r).print.toList =
    (parenthesized l.isCompound l.print).toList ++ ((" ".toList ++ (op.symbol.toList ++ " ".toList)) ++
      (parenthesized r.isCompound r.print).toList) := by
  simp only [print, String.toList_append, List.append_assoc]

theorem toList_cond (c y n : Expr) (i j : UInt32) : (cond c y n i j).print.toList =
    "if".toList ++ (" (".toList ++ (c.print.toList ++ (") ".toList ++
      ((parenthesized y.isCompound y.print).toList ++ (" else ".toList ++ n.print.toList))))) := by
  simp only [print, String.toList_append, List.append_assoc]
  rfl

theorem toList_letIn (bs : List (Token × Expr)) (e : Expr) : (letIn bs e).print.toList =
    "let".toList ++ (" ".toList ++
      ((commaSeparated (bs.map fun b => b.1.lexeme ++ " = " ++ b.2.print)).toList ++
        (" in ".toList ++ e.print.toList))) := by
  simp only [print, printBindings_eq, String.toList_append, List.append_assoc]
  rfl

theorem toList_function (t : Token) (ps : List Token) (e : Expr) : (function t ps e).print.toList =
    "function".toList ++ (" ".toList ++ (t.lexeme.toList ++ ("(".toList ++
      ((commaSeparated (ps.map Token.lexeme)).toList ++ (") => ".toList ++ e.print.toList))))) := by
  simp only [print, String.toList_append, List.append_assoc]
  rfl

theorem toList_call (t : Token) (es : List Expr) : (call t es).print.toList =
    t.lexeme.toList ++ ("(".toList ++ ((commaSeparated (es.map print)).toList ++ ")".toList)) := by
  simp only [print, printArgs_eq, String.toList_append, List.append_assoc]

end Expr

namespace Reader

variable {decode : List Char → Binary64} {n : Nat} {text rest : List Char} {e : Expr}

theorem reads_primary {c : Char} (head : text.head? = some c)
    (reads : Reads (startedBy (expr decode n) (primary decode n) decode n c) text e rest) :
    Reads (primary decode (n + 1)) text e rest := by
  obtain ⟨others, rfl⟩ := List.head?_eq_some_iff.mp head
  exact reads

theorem reads_worded {c : Char} (head : text.head? = some c) (start : isWordStart c = true)
    (reads : Reads (worded (expr decode n) (primary decode n) n) text e rest) :
    Reads (primary decode (n + 1)) text e rest := by
  refine reads_primary head ?_
  rw [startedBy, if_pos start]
  exact reads

theorem reads_expr (reads : Reads (primary decode n) text e rest) (ends : Ends rest) :
    Reads (expr decode (n + 1)) text e rest :=
  reads.last (.or_right (bind_none ends.noOperator) .pure)

theorem expr_closed (head : rest.head? = some ')') : expr decode n rest = none := by
  obtain ⟨others, rfl⟩ := List.head?_eq_some_iff.mp head
  cases n with
  | zero => rfl
  | succ n =>
    cases n with
    | zero => rfl
    | succ n => rfl

theorem reads_prefixed (op : UnaryOp) (reads : Reads (primary decode n) text e rest) :
    Reads (primary decode (n + 1)) (op.symbol.toList ++ text) (.unary op (.plain op.symbol) e) rest := by
  have signed : ∀ op, Reads (prefixed (primary decode n) op) (op.symbol.toList ++ text)
      (.unary op (.plain op.symbol) e) rest :=
    fun op => (reads_keyword op.symbol _).bind (reads.last .pure)
  cases op with
  | neg => exact reads_primary (c := '-') rfl (.or_left (signed .neg))
  | not => exact reads_primary (c := '!') rfl (.or_right rfl (signed .not))

theorem reads_bracketed (reads : Reads (expr decode n) text e (")".toList ++ rest)) :
    Reads (primary decode (n + 1)) ("(".toList ++ (text ++ ")".toList)) e rest :=
  reads_primary (c := '(') rfl
    ((reads_keyword "(" _).bind (reads.bind ((reads_keyword ")" rest).last .pure)))

theorem reads_number {x : Binary64} (decodes : decode x.unsigned = x) (finite : x.isFinite = true)
    (positive : x.isNegative = false) (stops : Stops rest) :
    Reads (primary decode (n + 1)) (Expr.literal (.number x)).print.toList (.literal (.number x))
      rest := by
  have text_eq : (Expr.literal (.number x)).print.toList = x.unsigned := by
    have text := Binary64.toList_text finite
    rwa [positive, if_neg Bool.false_ne_true] at text
  have numeric := Decimal.numeric_positional x.shown
  obtain ⟨c, head, digit⟩ := Decimal.head_positional x.shown
  rw [← Binary64.unsigned_eq finite] at numeric head
  have chars : Reads (span fun c => c.isDigit || c = '.') x.unsigned x.unsigned rest :=
    reads_span (List.all_eq_true.mpr numeric) (stops.all fun c found => by
      rcases Bool.or_eq_true_iff.mp found with digit | point
      · simp [isWordChar, digit]
      · simp [point])
  rw [text_eq]
  refine reads_primary head ?_
  rw [startedBy, if_neg (by rw [isWordStart_digit digit]; decide), if_pos digit]
  refine chars.last ?_
  rw [decodes]
  exact .pure

theorem reads_string (s : String) :
    Reads (primary decode (n + 1)) (Expr.literal (.string s)).print.toList (.literal (.string s)) rest := by
  have text_eq : (Expr.literal (.string s)).print.toList =
      "\"".toList ++ (s.toList.flatMap Value.escape ++ ['"']) := String.toList_ofList
  rw [text_eq]
  refine reads_primary (c := '"') rfl ((reads_keyword "\"" _).bind ((reads_unescape s.toList).last ?_))
  rw [String.ofList_toList]
  exact .pure

theorem reads_boolean (b : Bool) (stops : Stops rest) :
    Reads (primary decode (n + 1)) (Expr.literal (.boolean b)).print.toList (.literal (.boolean b))
      rest := by
  cases b with
  | true =>
    have word : Reads (span isWordChar) "true".toList "true".toList rest :=
      reads_span rfl stops.notWord
    refine reads_worded (c := 't') rfl rfl (word.last ?_)
    rw [String.ofList_toList, if_neg (by decide), if_neg (by decide), if_neg (by decide), if_pos rfl]
    exact .pure
  | false =>
    have word : Reads (span isWordChar) "false".toList "false".toList rest :=
      reads_span rfl stops.notWord
    refine reads_worded (c := 'f') rfl rfl (word.last ?_)
    rw [String.ofList_toList, if_neg (by decide), if_neg (by decide), if_neg (by decide),
      if_neg (by decide), if_pos rfl]
    exact .pure

theorem reads_letIn {bs : List (Token × Expr)} {bindings body : List Char}
    (bound : Reads (list (binding (expr decode n)) n) bindings bs (" in ".toList ++ body ++ rest))
    (value : Reads (expr decode n) body e rest) :
    Reads (primary decode (n + 1))
      ("let".toList ++ (" ".toList ++ (bindings ++ (" in ".toList ++ body)))) (.letIn bs e) rest := by
  have word : Reads (span isWordChar) "let".toList "let".toList
      (" ".toList ++ (bindings ++ (" in ".toList ++ body)) ++ rest) := reads_span rfl rfl
  refine reads_worded (c := 'l') rfl rfl (word.bind ?_)
  rw [String.ofList_toList, if_pos rfl]
  exact (reads_keyword " " _).bind (bound.bind ((reads_keyword " in " _).bind (value.last .pure)))

theorem reads_cond {c y : Expr} {condition yes no : List Char}
    (first : Reads (expr decode n) condition c (") ".toList ++ (yes ++ (" else ".toList ++ no)) ++ rest))
    (second : Reads (primary decode n) yes y (" else ".toList ++ no ++ rest))
    (third : Reads (expr decode n) no e rest) :
    Reads (primary decode (n + 1)) ("if".toList ++ (" (".toList ++ (condition ++
      (") ".toList ++ (yes ++ (" else ".toList ++ no)))))) (.cond c y e 0 0) rest := by
  have word : Reads (span isWordChar) "if".toList "if".toList (" (".toList ++ (condition ++
      (") ".toList ++ (yes ++ (" else ".toList ++ no)))) ++ rest) := reads_span rfl rfl
  refine reads_worded (c := 'i') rfl rfl (word.bind ?_)
  rw [String.ofList_toList, if_neg (by decide), if_pos rfl]
  exact (reads_keyword " (" _).bind (first.bind ((reads_keyword ") " _).bind (second.bind
    ((reads_keyword " else " _).bind (third.last .pure)))))

theorem reads_function {s : String} {ps : List Token} {params body : List Char} (named : IsName s)
    (bound : Reads (list name n) params ps (") => ".toList ++ body ++ rest))
    (value : Reads (expr decode n) body e rest) :
    Reads (primary decode (n + 1)) ("function".toList ++ (" ".toList ++ (s.toList ++ ("(".toList ++
      (params ++ (") => ".toList ++ body)))))) (.function (.plain s) ps e) rest := by
  have word : Reads (span isWordChar) "function".toList "function".toList (" ".toList ++ (s.toList ++
      ("(".toList ++ (params ++ (") => ".toList ++ body)))) ++ rest) := reads_span rfl rfl
  have function : Reads name s.toList (.plain s) ("(".toList ++ (params ++ (") => ".toList ++ body)) ++
      rest) := reads_name named rfl
  refine reads_worded (c := 'f') rfl rfl (word.bind ?_)
  rw [String.ofList_toList, if_neg (by decide), if_neg (by decide), if_pos rfl]
  exact (reads_keyword " " _).bind (function.bind ((reads_keyword "(" _).bind (bound.bind
    ((reads_keyword ") => " _).bind (value.last .pure)))))

theorem reads_named {s : String} (name : IsName s)
    (stops : (text ++ rest).head?.all (fun c => !isWordChar c) = true)
    (reads : Reads (named (expr decode n) n (.plain s)) text e rest) :
    Reads (primary decode (n + 1)) (s.toList ++ text) e rest := by
  obtain ⟨c, head, start⟩ := name.head
  have other : ∀ w ∈ reservedWords, s ≠ w := fun w reserved same => name.free (same ▸ reserved)
  have first : (s.toList ++ text).head? = some c := by rw [List.head?_append, head, Option.some_or]
  refine reads_worded first start ((reads_span name.chars stops).bind ?_)
  rw [String.ofList_toList, if_neg (other _ (by decide)), if_neg (other _ (by decide)),
    if_neg (other _ (by decide)), if_neg (other _ (by decide)), if_neg (other _ (by decide))]
  exact reads

theorem reads_var {s : String} (named : IsName s) (stops : Stops rest) :
    Reads (primary decode (n + 1)) s.toList (.var (.plain s)) rest := by
  have noCall : keyword "(" rest = none :=
    keyword_none '(' rfl fun bracket => by rw [Stops, bracket] at stops; cases stops
  have reads : Reads (primary decode (n + 1)) (s.toList ++ []) (.var (.plain s)) rest :=
    reads_named named stops.notWord (.or_right (bind_none noCall) .pure)
  rwa [List.append_nil] at reads

theorem reads_call {s : String} {es : List Expr} {args : List Char} (named : IsName s)
    (given : Reads (list (expr decode n) n) args es (")".toList ++ rest)) :
    Reads (primary decode (n + 1)) (s.toList ++ ("(".toList ++ (args ++ ")".toList)))
      (.call (.plain s) es) rest :=
  reads_named named rfl (.or_left ((reads_keyword "(" _).bind (given.bind
    ((reads_keyword ")" rest).last .pure))))

/-- The form of `e` is read off its text. A compound tree needs an end behind it: an operator that
follows would be read with its last part. The fuel is for three steps into each child: past an
operator, into brackets and to what is in them. -/
structure ReadsBack (decode : List Char → Binary64) (e : Expr) : Prop where
  tight : e.isCompound = false → ∀ n rest, 3 * sizeOf e ≤ n + 1 → Stops rest →
    Reads (primary decode n) e.print.toList e.form rest
  loose : ∀ n rest, 3 * sizeOf e ≤ n → Ends rest → Reads (expr decode n) e.print.toList e.form rest

theorem sizeOf_pos (e : Expr) : 0 < sizeOf e := by
  cases e <;> simp

theorem length_lt_sizeOf {γ : Type} [SizeOf γ] (xs : List γ) : xs.length < sizeOf xs := by
  induction xs with
  | nil => simp
  | cons x xs ih =>
    simp only [List.length_cons, List.cons.sizeOf_spec]
    omega

namespace ReadsBack

theorem of_primary (reads : ∀ n rest, 3 * sizeOf e ≤ n + 2 → (e.isCompound = false → Stops rest) →
    (e.isCompound = true → Ends rest) → Reads (primary decode (n + 1)) e.print.toList e.form rest) :
    ReadsBack decode e := by
  have positive := sizeOf_pos e
  constructor
  · intro simple n rest enough stops
    obtain ⟨m, rfl⟩ := Nat.exists_eq_add_of_le' (show 1 ≤ n by omega)
    exact reads m rest enough (fun _ => stops) (fun compound => by simp [simple] at compound)
  · intro n rest enough ends
    obtain ⟨m, rfl⟩ := Nat.exists_eq_add_of_le' (show 2 ≤ n by omega)
    exact reads_expr (reads m rest enough (fun _ => ends.stops) (fun _ => ends)) ends

theorem parenthesized (back : ReadsBack decode e) {needed : Bool}
    (simple : needed = false → e.isCompound = false) (enough : 3 * sizeOf e + 1 ≤ n)
    (stops : Stops rest) :
    Reads (primary decode n) (Expr.parenthesized needed e.print).toList e.form rest := by
  cases needed with
  | false => exact back.tight (simple rfl) n rest (by omega) stops
  | true =>
    obtain ⟨m, rfl⟩ := Nat.exists_eq_add_of_le' (show 1 ≤ n by omega)
    rw [Expr.parenthesized, if_pos rfl, String.toList_append, String.toList_append, List.append_assoc]
    exact reads_bracketed (back.loose m _ (by omega) (.of_head rfl rfl))

end ReadsBack

theorem readsBack
    (decodes : ∀ x : Binary64, x.isFinite = true → x.isNegative = false → decode x.unsigned = x)
    (e : Expr) (readable : e.Readable) : ReadsBack decode e := by
  induction e using Expr.induction with
  | literal v =>
    refine .of_primary fun n rest enough stops _ => ?_
    cases v with
    | number x =>
      have finite : x.isFinite = true := readable
      cases sign : x.isNegative with
      | true =>
        obtain ⟨m, rfl⟩ : ∃ m, n = m + 1 := by
          simp only [Expr.literal.sizeOf_spec, Value.number.sizeOf_spec] at enough
          exact Nat.exists_eq_add_of_le' (by omega)
        have absolute := Binary64.isFinite_abs finite
        rw [Expr.form_negative sign, Expr.print_negative finite sign, String.toList_append]
        exact reads_prefixed .neg (reads_number (decodes _ absolute x.isNegative_abs) absolute
          x.isNegative_abs (stops rfl))
      | false =>
        rw [Expr.form_positive sign]
        exact reads_number (decodes x finite sign) finite sign (stops rfl)
    | string s => exact reads_string s
    | boolean b => exact reads_boolean b (stops rfl)
  | unary op t e operand =>
    refine .of_primary fun n rest enough stops _ => ?_
    simp only [Expr.unary.sizeOf_spec] at enough
    rw [Expr.print, String.toList_append]
    exact reads_prefixed op ((operand readable).parenthesized
      (fun h => (Bool.or_eq_false_iff.mp h).2) (by omega) (stops rfl))
  | binary op t l r left right =>
    -- No operand is a binary tree without brackets, so it is not for `primary`.
    refine ⟨fun single => absurd single Bool.noConfusion, fun n rest enough ends => ?_⟩
    have positive := sizeOf_pos (.binary op t l r)
    obtain ⟨m, rfl⟩ := Nat.exists_eq_add_of_le' (show 1 ≤ n by omega)
    simp only [Expr.binary.sizeOf_spec] at enough
    rw [Expr.toList_binary]
    have second := (right readable.2).parenthesized (n := m) id (by omega) ends.stops
    exact Reads.bind ((left readable.1).parenthesized id (by omega) rfl)
      (.or_left ((reads_operator op).bind (second.last .pure)))
  | cond c y n i j condition yes no =>
    refine .of_primary fun m rest enough _ ends => ?_
    simp only [Expr.cond.sizeOf_spec] at enough
    rw [Expr.toList_cond]
    exact reads_cond ((condition readable.1).loose m _ (by omega) (.of_head rfl rfl))
      ((yes readable.2.1).parenthesized id (by omega) rfl)
      ((no readable.2.2).loose m rest (by omega) (ends rfl))
  | letIn bs e bindings body =>
    refine .of_primary fun m rest enough _ ends => ?_
    simp only [Expr.letIn.sizeOf_spec] at enough
    have length := length_lt_sizeOf bs
    rw [Expr.toList_letIn, Expr.form_letIn]
    refine reads_letIn (reads_list (.inWord _ _) rfl rfl ?_ (by omega))
      ((body readable.2).loose m rest (by omega) (ends rfl))
    rintro ⟨t, value⟩ member rest ends
    obtain ⟨named, inside⟩ := Expr.readableBindings_iff.mp readable.1 _ member
    have smaller := List.sizeOf_lt_of_mem member
    simp only [Prod.mk.sizeOf_spec] at smaller
    rw [String.toList_append, String.toList_append, List.append_assoc]
    have enough : 3 * sizeOf value ≤ m := by omega
    have bound := (bindings _ member inside).loose m rest enough ends
    exact Reads.bind (reads_name named rfl) ((reads_keyword " = " _).bind (bound.last .pure))
  | var t => exact .of_primary fun n rest enough stops _ => reads_var readable (stops rfl)
  | function t ps e body =>
    refine .of_primary fun m rest enough _ ends => ?_
    simp only [Expr.function.sizeOf_spec] at enough
    have length := length_lt_sizeOf ps
    rw [Expr.toList_function]
    refine reads_function readable.1 (reads_list (.of_head rfl rfl) rfl rfl ?_ (by omega))
      ((body readable.2.2).loose m rest (by omega) (ends rfl))
    intro p member rest ends
    exact reads_name (readable.2.1 p member) ends.stops.notWord
  | call t es args =>
    refine .of_primary fun m rest enough stops _ => ?_
    simp only [Expr.call.sizeOf_spec] at enough
    have length := length_lt_sizeOf es
    rw [Expr.toList_call, Expr.form_call]
    refine reads_call readable.1 (reads_list (.of_head rfl rfl) rfl (expr_closed rfl) ?_ (by omega))
    intro e member rest ends
    have smaller := List.sizeOf_lt_of_mem member
    exact (args e member (Expr.readableArgs_iff.mp readable.2 e member)).loose m rest (by omega) ends

end Reader

/-! ### Unambiguous texts -/

theorem Binary64.exists_decode :
    ∃ decode : List Char → Binary64,
      ∀ x : Binary64, x.isFinite = true → x.isNegative = false → decode x.unsigned = x := by
  have injective : Set.InjOn unsigned {x | x.isFinite = true ∧ x.isNegative = false} :=
    fun x left y right same => eq_of_magnitude left.2 right.2 (magnitude_eq left.1 right.1 same)
  exact ⟨Function.invFunOn unsigned {x | x.isFinite = true ∧ x.isNegative = false},
    fun x finite positive => injective.leftInvOn_invFunOn ⟨finite, positive⟩⟩

namespace Expr

/-- Readable trees have the same text just if they are the same up to their tokens, once the signs
of numbers are taken for operators. -/
theorem print_unambiguous {a b : Expr} (left : a.Readable) (right : b.Readable) :
    a.print = b.print ↔ a.norm.bare = b.norm.bare := by
  constructor
  · intro same
    obtain ⟨decode, decodes⟩ := Binary64.exists_decode
    have first := (Reader.readsBack decodes a left).loose (3 * (sizeOf a + sizeOf b)) [] (by omega) .nil
    have second := (Reader.readsBack decodes b right).loose (3 * (sizeOf a + sizeOf b)) [] (by omega) .nil
    rw [Reader.Reads, same] at first
    exact congrArg Prod.fst (Option.some.inj (first.symm.trans second))
  · intro same
    rw [← print_form a left, ← print_form b right, form, same, form]

theorem print_unambiguous_sign :
    (call (.plain "f#1") [literal (.number ⟨0xbff0000000000000⟩), var (.plain "x")]).Readable ∧
      (call (.plain "f#1") [unary .neg (.plain "minus") (literal (.number ⟨0x3ff0000000000000⟩)),
        var (.plain "x")]).Readable ∧
      (call (.plain "f#1") [literal (.number ⟨0xbff0000000000000⟩), var (.plain "x")]).print =
        (call (.plain "f#1") [unary .neg (.plain "minus") (literal (.number ⟨0x3ff0000000000000⟩)),
          var (.plain "x")]).print := by
  have function : IsName "f#1" := by decide
  have argument : IsName "x" := by decide
  have left : (call (.plain "f#1") [literal (.number ⟨0xbff0000000000000⟩),
      var (.plain "x")]).Readable := ⟨function, rfl, argument, trivial⟩
  have right : (call (.plain "f#1") [unary .neg (.plain "minus")
      (literal (.number ⟨0x3ff0000000000000⟩)), var (.plain "x")]).Readable :=
    ⟨function, rfl, argument, trivial⟩
  exact ⟨left, right, (print_unambiguous left right).mpr rfl⟩

end Expr

end LetLang
