import Mathlib.Data.List.Find
import Mathlib.Data.List.Forall2
import Mathlib.Data.List.Nodup
import LetLang.Expr.Printer
import LetLang.Proofs.Renaming.Uses

/-!
# Replacing a token and what variables stand for

A variable of the replaced name is replaced if no binder hides the token, and then it goes on to
mean the nearest handle of the token. Behind a binder that hides the token it is left alone. This is
wrong for the variables that stray: a handle stands between them and the binder that hides it, and
the handle is renamed without them.
-/

namespace LetLang

section

variable {old new : Token} {scope : List Binder} {node : List Nat} {index : Nat}

namespace Binder

def replaced (old new : Token) (b : Binder) : Binder := { b with token := old.binder new b.token }

def shows (scope : List Binder) (t : Token) : Bool := !scope.any fun b => t.hides b.token

theorem shows_enter (t : Token) (ts : List Token) :
    shows (enter scope node index ts) t = (shows scope t && !ts.any t.hides) := by
  induction ts generalizing scope index with
  | nil => simp [enter]
  | cons u ts ih =>
    rw [enter, ih, shows, shows, List.any_cons, List.any_cons]
    cases t.hides u <;> simp

theorem map_enter (ts : List Token) :
    (enter scope node index ts).map (replaced old new) =
      enter (scope.map (replaced old new)) node index (ts.map (old.binder new)) := by
  induction ts generalizing scope index with
  | nil => rfl
  | cons t ts ih => exact ih

end Binder

def Use.replaced (old new : Token) (u : Use) : Use :=
  ⟨u.node, old.reference new (Binder.shows u.scope old) u.name,
    u.scope.map (Binder.replaced old new)⟩

namespace Expr

theorem map_fst_replaceBindings (visible : Bool) (bs : List (Token × Expr)) :
    (replaceBindings old new visible bs).map Prod.fst = (bs.map Prod.fst).map (old.binder new) := by
  induction bs generalizing visible with
  | nil => rfl
  | cons b bs ih =>
    obtain ⟨t, e⟩ := b
    rw [replaceBindings, List.map_cons, ih, List.map_cons, List.map_cons]

theorem length_replaceBindings (visible : Bool) (bs : List (Token × Expr)) :
    (replaceBindings old new visible bs).length = bs.length := by
  rw [← List.length_map Prod.fst, map_fst_replaceBindings, List.length_map, List.length_map]

def ReplacesUses (old new : Token) (e : Expr) : Prop :=
  ∀ node scope, (replaceIn old new (Binder.shows scope old) e).uses node
    (scope.map (Binder.replaced old new)) = (e.uses node scope).map (Use.replaced old new)

theorem usesOfBindings_replaceBindings {bs : List (Token × Expr)}
    (each : ∀ b ∈ bs, ReplacesUses old new b.2) :
    usesOfBindings node index (scope.map (Binder.replaced old new))
        (replaceBindings old new (Binder.shows scope old) bs) =
      (usesOfBindings node index scope bs).map (Use.replaced old new) := by
  induction bs generalizing scope index with
  | nil => rfl
  | cons b bs ih =>
    obtain ⟨t, e⟩ := b
    obtain ⟨first, rest⟩ := List.forall_mem_cons.mp each
    have behind : (Binder.shows scope old && !old.hides t) =
        Binder.shows (⟨t, node, index⟩ :: scope) old := by
      rw [Binder.shows, Binder.shows, List.any_cons, Bool.not_or, Bool.and_comm]
    rw [replaceBindings, usesOfBindings, usesOfBindings, List.map_append, ← ih rest, first, behind]
    rfl

theorem usesOfArgs_replaceArgs {es : List Expr} (each : ∀ e ∈ es, ReplacesUses old new e) :
    usesOfArgs node index (scope.map (Binder.replaced old new))
        (replaceArgs old new (Binder.shows scope old) es) =
      (usesOfArgs node index scope es).map (Use.replaced old new) := by
  induction es generalizing index with
  | nil => rfl
  | cons e es ih =>
    obtain ⟨first, rest⟩ := List.forall_mem_cons.mp each
    rw [replaceArgs, usesOfArgs, usesOfArgs, List.map_append, first, ih rest]

theorem replacesUses (e : Expr) : ReplacesUses old new e := by
  induction e using Expr.induction with
  | literal v => exact fun _ _ => rfl
  | unary op t e operand =>
    intro node scope
    exact operand (0 :: node) scope
  | binary op t l r left right =>
    intro node scope
    simp only [replaceIn, uses, left (0 :: node) scope, right (1 :: node) scope, List.map_append]
  | cond c y n i j condition yes no =>
    intro node scope
    simp only [replaceIn, uses, condition (0 :: node) scope, yes (1 :: node) scope,
      no (2 :: node) scope, List.map_append]
  | letIn bs e bindings body =>
    intro node scope
    have inside := body (bs.length :: node) (Binder.enter scope node 0 (bs.map Prod.fst))
    rw [Binder.shows_enter, Binder.map_enter, ← map_fst_replaceBindings (Binder.shows scope old),
      ← visibleBehind_eq] at inside
    simp only [replaceIn, uses, usesOfBindings_replaceBindings bindings, length_replaceBindings,
      inside, List.map_append]
  | var t => exact fun _ _ => rfl
  | function t ps e body =>
    intro node scope
    have inside := body (0 :: node) (Binder.enter scope node 0 ps)
    rw [Binder.shows_enter, Binder.map_enter] at inside
    simp only [replaceIn, uses, visibleUnder, inside]
  | call t es args =>
    intro node scope
    simp only [replaceIn, uses, usesOfArgs_replaceArgs args]

theorem uses_replace (e : Expr) (old new : Token) :
    (e.replace old new).uses [] [] = (e.uses [] []).map (Use.replaced old new) :=
  replacesUses e [] []

end Expr

end

/-! ### Where a variable is bound afterwards -/

/-- No binder of the name of `new`, and a handle of `old` has the name of `old`. -/
structure Token.Fits (old new t : Token) : Prop where
  absent : t.lexeme ≠ new.lexeme
  named : t.site = old.site → t.lexeme = old.lexeme

/-- The variable has the name of `old` and means a handle of it. But a binder farther out hides
`old`, so that the variable is not replaced. -/
def Use.Strays (old : Token) (u : Use) : Prop :=
  u.name.lexeme = old.lexeme ∧ u.name.site ≠ old.site ∧
    (∃ b ∈ u.binder?, b.token.site = old.site) ∧ ∃ b ∈ u.scope, old.hides b.token = true

theorem Token.hides_iff {target t : Token} :
    target.hides t = true ↔ t.lexeme = target.lexeme ∧ t.site ≠ target.site := by
  simp [hides, sameLexeme, sameSite]

theorem Binder.shows_eq_false_iff {scope : List Binder} {t : Token} :
    shows scope t = false ↔ ∃ b ∈ scope, t.hides b.token = true := by
  simp [shows]

theorem find?_of_imp {α : Type} {l : List α} {p q : α → Bool} {a : α}
    (imp : ∀ x ∈ l, q x = true → p x = true) (found : l.find? p = some a) (hit : q a = true) :
    l.find? q = some a := by
  obtain ⟨_, before, behind, rfl, missed⟩ := List.find?_eq_some_iff_append.mp found
  refine List.find?_eq_some_iff_append.mpr ⟨hit, before, behind, rfl, fun x member => ?_⟩
  have here : x ∈ before ++ a :: behind := List.mem_append_left _ member
  have miss : p x = false := by simpa using missed x member
  cases also : q x with
  | false => rfl
  | true => exact absurd (imp x here also) (by simp [miss])

namespace Use

variable {old new : Token} {u : Use}

theorem bound?_replaced (old new : Token) (u : Use) :
    (u.replaced old new).bound? = (u.scope.find? fun b => (old.binder new b.token).sameLexeme
      (old.reference new (Binder.shows u.scope old) u.name)).map Binder.place := by
  rw [bound?, binder?, replaced, List.find?_map, Option.map_map]
  rfl

theorem bound?_of_refers (fits : ∀ b ∈ u.scope, old.Fits new b.token)
    (refers : old.refersTo (Binder.shows u.scope old) u.name = true) :
    (u.replaced old new).bound? =
      (u.scope.find? fun b => b.token.sameSite old).map Binder.place := by
  rw [bound?_replaced, Token.reference, if_pos refers]
  refine congrArg (Option.map _) (List.find?_congr fun b member => ?_)
  rw [Token.binder]
  cases handle : b.token.sameSite old with
  | true => simp [Token.sameLexeme]
  | false => simpa [Token.sameLexeme] using (fits b member).absent

theorem bound?_of_hidden (other : new.lexeme ≠ old.lexeme) (named : u.name.lexeme = old.lexeme)
    (stays : ¬ old.refersTo (Binder.shows u.scope old) u.name = true) :
    (u.replaced old new).bound? =
      (u.scope.find? fun b => old.hides b.token).map Binder.place := by
  rw [bound?_replaced, Token.reference, if_neg stays]
  refine congrArg (Option.map _) (List.find?_congr fun b member => ?_)
  rw [Token.binder, Token.hides]
  cases handle : b.token.sameSite old with
  | true => simpa [Token.sameLexeme, named] using other
  | false => simp [Token.sameLexeme, named]

theorem bound?_of_other (fits : ∀ b ∈ u.scope, old.Fits new b.token) (name : old.Fits new u.name)
    (apart : u.name.lexeme ≠ old.lexeme) :
    (u.replaced old new).bound? = u.bound? := by
  have stays : ¬ old.refersTo (Binder.shows u.scope old) u.name = true := by
    rw [Token.refersTo_iff]
    rintro (handle | ⟨_, same⟩)
    · exact apart (name.named handle)
    · exact apart same
  rw [bound?_replaced, Token.reference, if_neg stays, bound?, binder?]
  refine congrArg (Option.map _) (List.find?_congr fun b member => ?_)
  rw [Token.binder]
  cases handle : b.token.sameSite old with
  | true =>
    have same := (fits b member).named (Token.sameSite_iff.mp handle)
    simp [Token.sameLexeme, same, apart.symm, name.absent.symm]
  | false => rfl

theorem bound?_of_hider {b : Binder} (other : new.lexeme ≠ old.lexeme)
    (named : u.name.lexeme = old.lexeme)
    (own : u.name.site = old.site → ∀ b ∈ u.binder?, b.token.site = old.site)
    (nearest : u.binder? = some b) (apart : b.token.site ≠ old.site) :
    (u.replaced old new).bound? = u.bound? := by
  have same : b.token.lexeme = old.lexeme := by
    have hit : b.token.sameLexeme u.name = true := by simpa using List.find?_some nearest
    exact (Token.sameLexeme_iff.mp hit).trans named
  have hides : old.hides b.token = true := Token.hides_iff.mpr ⟨same, apart⟩
  have stays : ¬ old.refersTo (Binder.shows u.scope old) u.name = true := by
    rw [Token.refersTo_iff]
    rintro (handle | ⟨shown, _⟩)
    · exact apart (own handle b nearest)
    · have hidden := Binder.shows_eq_false_iff.mpr ⟨b, List.mem_of_find?_eq_some nearest, hides⟩
      exact Bool.false_ne_true (hidden.symm.trans shown)
  have first : u.scope.find? (fun b => old.hides b.token) = some b := by
    refine find?_of_imp (fun c member also => ?_) nearest hides
    rw [Token.sameLexeme_iff, named]
    exact (Token.hides_iff.mp also).1
  rw [bound?_of_hidden other named stays, first, bound?, nearest]

section

variable (other : new.lexeme ≠ old.lexeme) (fits : ∀ b ∈ u.scope, old.Fits new b.token)

include other fits

/-- The nearest binder of the name is a handle of `old`: only a replaced variable keeps it. -/
theorem bound?_of_handle {b : Binder} (distinct : (u.scope.map Binder.place).Nodup)
    (named : u.name.lexeme = old.lexeme) (nearest : u.binder? = some b)
    (handle : b.token.site = old.site) :
    (u.replaced old new).bound? = u.bound? ↔
      old.refersTo (Binder.shows u.scope old) u.name = true := by
  have first : u.scope.find? (fun b => b.token.sameSite old) = some b := by
    refine find?_of_imp (fun c member also => ?_) nearest (Token.sameSite_iff.mpr handle)
    rw [Token.sameLexeme_iff, named]
    exact (fits c member).named (Token.sameSite_iff.mp also)
  refine ⟨fun same => ?_, fun refers => ?_⟩
  · by_contra stays
    have hidden : Binder.shows u.scope old = false := Bool.eq_false_iff.mpr fun shown =>
      stays (Token.refersTo_iff.mpr (.inr ⟨shown, named⟩))
    obtain ⟨c, found⟩ := Option.isSome_iff_exists.mp
      (List.find?_isSome.mpr (Binder.shows_eq_false_iff.mp hidden))
    rw [bound?_of_hidden other named stays, found, bound?, nearest] at same
    -- one place has one binder, which cannot hide `old` and be a handle of it
    have both := List.inj_on_of_nodup_map distinct (List.mem_of_find?_eq_some found)
      (List.mem_of_find?_eq_some nearest) (Option.some.inj same)
    have hides : old.hides c.token = true := by simpa using List.find?_some found
    exact (Token.hides_iff.mp hides).2 (both ▸ handle)
  · rw [bound?_of_refers fits refers, first, bound?, nearest]

theorem bound?_of_free (named : u.name.lexeme = old.lexeme) (free : u.binder? = none) :
    (u.replaced old new).bound? = u.bound? := by
  have absent : ∀ b ∈ u.scope, b.token.lexeme ≠ old.lexeme := fun b member same =>
    List.find?_eq_none.mp free b member (Token.sameLexeme_iff.mpr (same.trans named.symm))
  have none : ∀ p : Binder → Bool, (∀ b ∈ u.scope, p b = true → b.token.lexeme = old.lexeme) →
      u.scope.find? p = none := fun p imp =>
    List.find?_eq_none.mpr fun b member hit => absent b member (imp b member hit)
  have unbound : u.bound? = Option.none := by rw [bound?, free, Option.map_none]
  rw [unbound]
  by_cases refers : old.refersTo (Binder.shows u.scope old) u.name = true
  · rw [bound?_of_refers fits refers, none, Option.map_none]
    exact fun b member hit => (fits b member).named (Token.sameSite_iff.mp hit)
  · rw [bound?_of_hidden other named refers, none, Option.map_none]
    exact fun b _ hit => (Token.hides_iff.mp hit).1

theorem bound?_replaced_iff (name : old.Fits new u.name)
    (distinct : (u.scope.map Binder.place).Nodup)
    (own : u.name.site = old.site → ∀ b ∈ u.binder?, b.token.site = old.site) :
    (u.replaced old new).bound? = u.bound? ↔ ¬ u.Strays old := by
  by_cases named : u.name.lexeme = old.lexeme
  · cases nearest : u.binder? with
    | none =>
      refine iff_of_true (bound?_of_free other fits named nearest) ?_
      rintro ⟨_, _, ⟨b, bound, _⟩, _⟩
      exact nomatch nearest.symm.trans bound
    | some b =>
      by_cases handle : b.token.site = old.site
      · rw [bound?_of_handle other fits distinct named nearest handle, Token.refersTo_iff, Strays,
          ← Binder.shows_eq_false_iff]
        cases Binder.shows u.scope old <;> simp [named, nearest, handle]
      · refine iff_of_true (bound?_of_hider other named own nearest handle) ?_
        rintro ⟨_, _, ⟨c, bound, also⟩, _⟩
        obtain rfl := Option.some.inj (nearest.symm.trans bound)
        exact handle also
  · exact iff_of_true (bound?_of_other fits name named) fun strays => named strays.1

end

end Use

namespace Expr

/-- The name of `new` is not that of `old` and nowhere in the tree. A handle of `old` has its name,
and a variable that is one is free or bound by another. -/
structure Replaceable (e : Expr) (old new : Token) : Prop where
  other : new.lexeme ≠ old.lexeme
  absent : ∀ t ∈ e.tokens, t.lexeme ≠ new.lexeme
  named : ∀ t ∈ e.tokens, t.site = old.site → t.lexeme = old.lexeme
  own : ∀ u ∈ e.uses [] [], u.name.site = old.site → ∀ b ∈ u.binder?, b.token.site = old.site

/-- After the replacement of a token every variable is bound where it was, and free if it was free,
other than those that stray. These are bound elsewhere. -/
theorem replace_keeps_binder_iff {e : Expr} {old new : Token} (given : e.Replaceable old new) :
    List.Forall₂ (fun u u' => u'.node = u.node ∧ (u'.bound? = u.bound? ↔ ¬ u.Strays old))
      (e.uses [] []) ((e.replace old new).uses [] []) := by
  rw [uses_replace, List.forall₂_map_right_iff, List.forall₂_same]
  intro u member
  have tokens : ∀ t ∈ e.tokens, old.Fits new t := fun t member =>
    ⟨given.absent t member, given.named t member⟩
  have outermost : Binder.Before [] [] 0 := ⟨List.nodup_nil, fun _ absent => nomatch absent⟩
  obtain ⟨name, fits, before⟩ := (inherited (old.Fits new)).uses e [] []
    ⟨(fun _ absent => nomatch absent), outermost⟩ tokens u member
  exact ⟨rfl, Use.bound?_replaced_iff given.other fits name before.distinct (given.own u member)⟩

/-- In `let x = x in let x = true in x & x` the second binder and the first `x` behind it are
handles. They are replaced together, and the last `x` strays to the first binder. -/
theorem replace_keeps_binder_iff_under :
    let old : Token := ⟨.identifier, "x", none, 17, 0⟩
    let new : Token := ⟨.identifier, "x#7", none, 17, 1⟩
    let stray : Token := ⟨.identifier, "x", none, 30, 4⟩
    let e : Expr := .letIn [(⟨.identifier, "x", none, 4, 2⟩, .var ⟨.identifier, "x", none, 8, 3⟩)]
      (.letIn [(old, .literal (.boolean true))]
        (.binary .and ⟨.amp, "&", none, 28, 5⟩ (.var old) (.var stray)))
    e.Replaceable old new ∧
      (e.replace old new).print = "let x = x#7 in let x#7 = true in x#7 & x" ∧
      List.Forall₂ (fun u u' => u'.node = u.node ∧ (u'.bound? = u.bound? ↔ ¬ u.Strays old))
        (e.uses [] []) ((e.replace old new).uses [] []) := by
  intro old new stray e
  have given : e.Replaceable old new := ⟨by decide, by decide, by decide, by decide⟩
  exact ⟨given, by decide +kernel, replace_keeps_binder_iff given⟩

/-- In `let x = true in let x = false in x` the second binder is the replaced token. The variable,
which is bound there, is left alone, and it is bound by the first binder afterwards. -/
theorem replace_loses_binder : ¬ ∀ (e : Expr) (old new : Token), e.Replaceable old new →
    List.Forall₂ (fun u u' => u'.node = u.node ∧ u'.bound? = u.bound?)
      (e.uses [] []) ((e.replace old new).uses [] []) := by
  intro keeps
  let old : Token := ⟨.identifier, "x", none, 0, 0⟩
  let new : Token := ⟨.identifier, "x#7", none, 0, 1⟩
  let e : Expr := .letIn [(⟨.identifier, "x", none, 2, 2⟩, .literal (.boolean true))]
    (.letIn [(old, .literal (.boolean false))] (.var ⟨.identifier, "x", none, 3, 3⟩))
  have given : e.Replaceable old new := ⟨by decide, by decide, by decide, by decide⟩
  have kept := (List.forall₂_cons.mp (keeps e old new given)).1.2
  exact absurd kept (by decide)

end Expr

end LetLang
