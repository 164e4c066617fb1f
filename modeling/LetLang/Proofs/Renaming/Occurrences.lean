import Mathlib.Data.List.Forall2
import LetLang.Proofs.Renaming.Places

/-!
# Occurrences and replacements

A replacement gives the new token to the places that stand for the old one, and the occurrences of a
token are the places that stand for it.
-/

namespace LetLang

namespace Token

def visibleIn (t : Token) (scope : List Token) : Bool := !scope.any t.hides

theorem visibleIn_cons (target t : Token) (scope : List Token) :
    (target.visibleIn scope && !target.hides t) = target.visibleIn (t :: scope) := by
  rw [visibleIn, visibleIn, List.any_cons, Bool.not_or, Bool.and_comm]

end Token

namespace Place

def refersTo (target : Token) : Place → Bool
  | var t scope => target.refersTo (target.visibleIn scope) t
  | binder t => t.sameSite target

def replaced (old new : Token) (p : Place) : Token := if p.refersTo old then new else p.token

end Place

namespace Expr

variable {old new target : Token} {scope : List Token}

theorem visibleUnder_visibleIn (target : Token) (scope ps : List Token) :
    visibleUnder target (target.visibleIn scope) ps = target.visibleIn (ps.reverse ++ scope) := by
  rw [visibleUnder, Token.visibleIn, Token.visibleIn, List.any_append, List.any_reverse,
    Bool.not_or, Bool.and_comm]

theorem visibleBehind_visibleIn (target : Token) (scope : List Token) (bs : List (Token × Expr)) :
    visibleBehind target (target.visibleIn scope) bs =
      target.visibleIn ((bs.map Prod.fst).reverse ++ scope) := by
  rw [visibleBehind_eq]
  exact visibleUnder_visibleIn target scope (bs.map Prod.fst)

theorem replaceBindings_eq_relabel {bs : List (Token × Expr)}
    (each : ∀ b ∈ bs, ∀ scope, replaceIn old new (old.visibleIn scope) b.2 =
      b.2.relabel (Place.replaced old new) scope) (scope : List Token) :
    replaceBindings old new (old.visibleIn scope) bs =
      relabelBindings (Place.replaced old new) scope bs := by
  induction bs generalizing scope with
  | nil => rfl
  | cons b bs ih =>
    obtain ⟨t, e⟩ := b
    obtain ⟨first, rest⟩ := List.forall_mem_cons.mp each
    rw [replaceBindings, relabelBindings, first scope, Token.visibleIn_cons, ih rest]
    rfl

theorem replaceArgs_eq_relabel {es : List Expr}
    (each : ∀ e ∈ es, ∀ scope, replaceIn old new (old.visibleIn scope) e =
      e.relabel (Place.replaced old new) scope) (scope : List Token) :
    replaceArgs old new (old.visibleIn scope) es =
      relabelArgs (Place.replaced old new) scope es := by
  induction es with
  | nil => rfl
  | cons e es ih =>
    obtain ⟨first, rest⟩ := List.forall_mem_cons.mp each
    rw [replaceArgs, relabelArgs, first scope, ih rest]

theorem replaceIn_eq_relabel (e : Expr) (scope : List Token) :
    replaceIn old new (old.visibleIn scope) e = e.relabel (Place.replaced old new) scope := by
  induction e using Expr.induction generalizing scope with
  | literal v => rfl
  | unary op t e operand => rw [replaceIn, relabel, operand]
  | binary op t l r left right => rw [replaceIn, relabel, left, right]
  | cond c y n i j condition yes no => rw [replaceIn, relabel, condition, yes, no]
  | letIn bs e bindings body =>
    rw [replaceIn, relabel, replaceBindings_eq_relabel bindings, visibleBehind_visibleIn, body]
  | var t => rfl
  | function t ps e body =>
    rw [replaceIn, relabel, visibleUnder_visibleIn, body]
    rfl
  | call t es args => rw [replaceIn, relabel, replaceArgs_eq_relabel args]

theorem replace_eq_relabel (e : Expr) (old new : Token) :
    e.replace old new = e.relabel (Place.replaced old new) [] :=
  replaceIn_eq_relabel e []

theorem places_replace (e : Expr) (old new : Token) :
    (e.replace old new).places [] = (e.places []).map (Place.relabel (Place.replaced old new)) := by
  rw [replace_eq_relabel]
  exact places_relabel e []

theorem occurrencesInBindings_eq_countP {bs : List (Token × Expr)}
    (each : ∀ b ∈ bs, ∀ scope, occurrencesIn target (target.visibleIn scope) b.2 =
      (b.2.places scope).countP (Place.refersTo target)) (scope : List Token) :
    occurrencesInBindings target (target.visibleIn scope) bs =
      (placesOfBindings scope bs).countP (Place.refersTo target) := by
  induction bs generalizing scope with
  | nil => rfl
  | cons b bs ih =>
    obtain ⟨t, e⟩ := b
    obtain ⟨first, rest⟩ := List.forall_mem_cons.mp each
    have value : occurrencesIn target (target.visibleIn scope) e =
        (e.places scope).countP (Place.refersTo target) := first scope
    have binder : Place.refersTo target (.binder t) = t.sameSite target := rfl
    rw [occurrencesInBindings, placesOfBindings, List.countP_cons, List.countP_append, value,
      Token.visibleIn_cons, ih rest, binder]
    omega

theorem occurrencesInArgs_eq_countP {es : List Expr}
    (each : ∀ e ∈ es, ∀ scope, occurrencesIn target (target.visibleIn scope) e =
      (e.places scope).countP (Place.refersTo target)) (scope : List Token) :
    occurrencesInArgs target (target.visibleIn scope) es =
      (placesOfArgs scope es).countP (Place.refersTo target) := by
  induction es with
  | nil => rfl
  | cons e es ih =>
    obtain ⟨first, rest⟩ := List.forall_mem_cons.mp each
    rw [occurrencesInArgs, placesOfArgs, List.countP_append, first scope, ih rest]

theorem occurrencesIn_eq_countP (e : Expr) (scope : List Token) :
    occurrencesIn target (target.visibleIn scope) e =
      (e.places scope).countP (Place.refersTo target) := by
  induction e using Expr.induction generalizing scope with
  | literal v => rfl
  | unary op t e operand => rw [occurrencesIn, places, operand]
  | binary op t l r left right => rw [occurrencesIn, places, List.countP_append, left, right]
  | cond c y n i j condition yes no =>
    rw [occurrencesIn, places, List.countP_append, List.countP_append, condition, yes, no,
      Nat.add_assoc]
  | letIn bs e bindings body =>
    rw [occurrencesIn, places, List.countP_append, occurrencesInBindings_eq_countP bindings,
      visibleBehind_visibleIn, body]
  | var t =>
    rw [occurrencesIn, places, List.countP_singleton]
    rfl
  | function t ps e body =>
    rw [occurrencesIn, places, List.countP_append, List.countP_map, visibleUnder_visibleIn, body]
    rfl
  | call t es args => rw [occurrencesIn, places, occurrencesInArgs_eq_countP args]

theorem occurrences_eq_countP (e : Expr) (target : Token) :
    e.occurrences target = (e.places []).countP (Place.refersTo target) :=
  occurrencesIn_eq_countP e []

end Expr

namespace Token

def Unlike (s t : Token) : Prop := s.lexeme ≠ t.lexeme ∧ s.site ≠ t.site

/-- The handles of one site have one lexeme. -/
def Coherent (ts : List Token) : Prop := ∀ s ∈ ts, ∀ t ∈ ts, s.site = t.site → s.lexeme = t.lexeme

instance (s t : Token) : Decidable (Unlike s t) := inferInstanceAs (Decidable (_ ∧ _))

instance (ts : List Token) : Decidable (Coherent ts) := inferInstanceAs (Decidable (∀ _ ∈ ts, _))

variable {old new target : Token} {scope : List Token}

theorem Coherent.named {ts : List Token} (coherent : Coherent (target :: ts)) :
    ∀ t ∈ ts, t.site = target.site → t.lexeme = target.lexeme := fun t member =>
  coherent t (List.mem_cons_of_mem _ member) target List.mem_cons_self

theorem Coherent.mono {ts us : List Token} (coherent : Coherent us) (sub : ts ⊆ us) : Coherent ts :=
  fun s here t there => coherent s (sub here) t (sub there)

theorem hides_of_ne {t : Token} (other : t.lexeme ≠ target.lexeme) : target.hides t = false := by
  have lexeme : t.sameLexeme target = false := beq_false_of_ne other
  rw [hides, lexeme, Bool.false_and]

theorem visibleIn_map {f : Token → Token}
    (same : ∀ b ∈ scope, target.hides (f b) = target.hides b) :
    target.visibleIn (scope.map f) = target.visibleIn scope := by
  induction scope with
  | nil => rfl
  | cons b scope ih =>
    obtain ⟨first, rest⟩ := List.forall_mem_cons.mp same
    rw [List.map_cons, ← visibleIn_cons, ← visibleIn_cons, ih rest, first]

theorem hides_binder {t : Token} (shown : target.hides new = false)
    (handle : t.site = old.site → target.hides t = false) :
    target.hides (old.binder new t) = target.hides t := by
  by_cases site : t.sameSite old = true
  · rw [binder, if_pos site, shown, handle (sameSite_iff.mp site)]
  · rw [binder, if_neg site]

end Token

namespace Place

variable {old new target : Token} {p : Place}

theorem refersTo_relabel (answer : Bool) (given : ∀ visible, target.refersTo visible new = answer)
    (shown : target.hides new = false)
    (handles : p.All fun t => t.site = old.site → target.hides t = false) :
    (p.relabel (replaced old new)).refersTo target =
      if p.refersTo old then answer else p.refersTo target := by
  cases p with
  | var t scope =>
    have visible : target.visibleIn (scope.map fun b => replaced old new (.binder b)) =
        target.visibleIn scope :=
      Token.visibleIn_map fun b member => Token.hides_binder shown (handles.2 b member)
    rw [relabel, refersTo, visible, replaced]
    split
    · exact given _
    · rfl
  | binder t =>
    have site : new.sameSite target = answer := by simpa [Token.refersTo] using given false
    rw [relabel, refersTo, replaced]
    split
    · exact site
    · rfl

theorem refersTo_relabel_of_unlike (other : target.Unlike new)
    (handles : p.All fun t => t.site = old.site → target.hides t = false) :
    (p.relabel (replaced old new)).refersTo target = (!p.refersTo old && p.refersTo target) := by
  have site : new.sameSite target = false := beq_false_of_ne other.2.symm
  have lexeme : new.sameLexeme target = false := beq_false_of_ne other.1.symm
  rw [refersTo_relabel false (by simp [Token.refersTo, site, lexeme])
    (by simp [Token.hides, lexeme]) handles]
  cases p.refersTo old <;> rfl

theorem refersTo_relabel_new (handles : p.All fun t => t.site = old.site → new.hides t = false) :
    (p.relabel (replaced old new)).refersTo new = (p.refersTo old || p.refersTo new) := by
  have site : new.sameSite new = true := beq_self_eq_true _
  rw [refersTo_relabel true (by simp [Token.refersTo, site])
    (by simp [Token.hides, site]) handles]
  cases p.refersTo old <;> rfl

theorem refersTo_of_unlike (unlike : p.token.Unlike target) : p.refersTo target = false := by
  have site : p.token.sameSite target = false := beq_false_of_ne unlike.2
  have lexeme : p.token.sameLexeme target = false := beq_false_of_ne unlike.1
  cases p with
  | var t scope =>
    rw [token] at site lexeme
    simp [refersTo, Token.refersTo, site, lexeme]
  | binder t => exact site

theorem lexeme_of_refersTo (named : p.All fun t => t.site = target.site → t.lexeme = target.lexeme)
    (refers : p.refersTo target = true) : p.token.lexeme = target.lexeme := by
  cases p with
  | var t scope =>
    rcases Bool.or_eq_true_iff.mp refers with site | lexeme
    · exact named.1 (Token.sameSite_iff.mp site)
    · exact Token.sameLexeme_iff.mp (Bool.and_eq_true_iff.mp lexeme).2
  | binder t => exact named (Token.sameSite_iff.mp refers)

end Place

/-! ### What a replacement changes -/

namespace Expr

variable {e : Expr} {old new : Token}

/-- Under a new site a replacement keeps the tree and each of its tokens, other than at the
occurrences of the old token. These are counted, and they become the new token. -/
theorem replace_changes_occurrences (fresh : ∀ t ∈ e.tokens, t.site ≠ new.site) :
    (e.replace old new).skeleton = e.skeleton ∧
      List.Forall₂ (fun t t' => t' = t ∨ t' = new) e.names (e.replace old new).names ∧
      (e.replace old new).names.count new = e.occurrences old ∧
      (e.occurrences old = 0 ↔ e.replace old new = e) := by
  have others : ∀ p ∈ e.places [], p.token ≠ new := fun p member same =>
    (forall_places fresh p member).token (congrArg Token.site same)
  have changed : ∀ p ∈ e.places [], p.replaced old new = new ↔ p.refersTo old = true := by
    intro p member
    have other := others p member
    by_cases refers : p.refersTo old = true <;> simp [Place.replaced, refers, other]
  have kept : ∀ p ∈ e.places [], p.replaced old new = p.token ↔ ¬ p.refersTo old = true := by
    intro p member
    have other := (others p member).symm
    by_cases refers : p.refersTo old = true <;> simp [Place.replaced, refers, other]
  rw [replace_eq_relabel, names_relabel, occurrences_eq_countP]
  refine ⟨skeleton_relabel _ e, ?_, ?_, ?_⟩
  · rw [names, List.forall₂_map_left_iff, List.forall₂_map_right_iff, List.forall₂_same]
    intro p _
    rw [Place.replaced]
    split
    · exact .inr rfl
    · exact .inl rfl
  · rw [List.count_eq_countP, List.countP_map]
    exact List.countP_congr fun p member => beq_iff_eq.trans (changed p member)
  · have whole := relabel_eq_iff (f := Place.replaced old new) (g := Place.token) e []
    rw [relabel_token] at whole
    rw [whole, List.countP_eq_zero]
    exact forall₂_congr fun p member => (kept p member).symm

/-- In `let y = x in let x = true in function g(x, y) => x & x` the parameter `x` and the first `x`
behind it are handles of the replaced token. The last `x` is behind a binder that hides it. -/
theorem replace_changes_occurrences_hidden :
    let old : Token := ⟨.identifier, "x", none, 31, 0⟩
    let new : Token := ⟨.identifier, "x#7", none, 31, 1⟩
    let y : Token := ⟨.identifier, "y", none, 4, 2⟩
    let inner : Expr := .function ⟨.identifier, "g", none, 29, 5⟩ [old, y]
      (.binary .and ⟨.amp, "&", none, 42, 6⟩ (.var old) (.var ⟨.identifier, "x", none, 44, 7⟩))
    let e : Expr := .letIn [(y, .var ⟨.identifier, "x", none, 8, 3⟩)]
      (.letIn [(⟨.identifier, "x", none, 17, 4⟩, .literal (.boolean true))] inner)
    (∀ t ∈ e.tokens, t.site ≠ new.site) ∧ e.occurrences old = 3 ∧
      (e.replace old new).names.count new = 3 ∧
      (e.replace old new).print =
        "let y = x#7 in let x = true in function g(x#7, y) => x#7 & x" := by
  intro old new y inner e
  have fresh : ∀ t ∈ e.tokens, t.site ≠ new.site := by decide
  have counted : e.occurrences old = 3 := by decide
  have changes : (e.replace old new).names.count new = e.occurrences old :=
    (replace_changes_occurrences fresh).2.2.1
  exact ⟨fresh, counted, changes.trans counted, by decide +kernel⟩

theorem occurrences_replace (e : Expr) (old new target : Token) :
    (e.replace old new).occurrences target =
      (e.places []).countP fun p => (p.relabel (Place.replaced old new)).refersTo target := by
  rw [occurrences_eq_countP, places_replace, List.countP_map]
  rfl

theorem occurrences_replace_old (unlike : old.Unlike new) :
    (e.replace old new).occurrences old = 0 := by
  have own : ∀ p ∈ e.places [], p.All fun t => t.site = old.site → old.hides t = false :=
    forall_places fun t _ same => by simp [Token.hides, Token.sameSite, same]
  rw [occurrences_replace, List.countP_eq_zero]
  intro p member
  rw [Place.refersTo_relabel_of_unlike unlike (own p member)]
  cases p.refersTo old <;> simp

section

variable (coherent : Token.Coherent (old :: e.tokens))

include coherent

theorem lexeme_of_refersTo {p : Place} (member : p ∈ e.places []) (refers : p.refersTo old = true) :
    p.token.lexeme = old.lexeme :=
  Place.lexeme_of_refersTo (forall_places coherent.named p member) refers

theorem refersTo_of_refersTo {other : Token} (named : Token.Coherent (other :: e.tokens))
    (lexeme : old.lexeme ≠ other.lexeme) {p : Place} (member : p ∈ e.places [])
    (refers : p.refersTo old = true) : p.refersTo other = false := by
  refine Bool.eq_false_iff.mpr fun also => lexeme ?_
  rw [← lexeme_of_refersTo coherent member refers, lexeme_of_refersTo named member also]

theorem handles_show {target : Token} (other : old.lexeme ≠ target.lexeme) :
    ∀ p ∈ e.places [], p.All fun t => t.site = old.site → target.hides t = false :=
  forall_places fun t member same => Token.hides_of_ne fun lexeme =>
    other ((coherent.named t member same).symm.trans lexeme)

theorem occurrences_replace_new (unlike : old.Unlike new) (named : Token.Coherent (new :: e.tokens)) :
    (e.replace old new).occurrences new = e.occurrences old + e.occurrences new := by
  have moved : ∀ p ∈ e.places [], (p.relabel (Place.replaced old new)).refersTo new =
      (p.refersTo old || p.refersTo new) := fun p member =>
    Place.refersTo_relabel_new (handles_show coherent unlike.1 p member)
  rw [occurrences_replace, occurrences_eq_countP, occurrences_eq_countP,
    List.countP_eq_countP_filter_add _ _ (Place.refersTo old), List.countP_filter, List.countP_filter]
  congr 1
  · refine List.countP_congr fun p member => ?_
    rw [moved p member]
    cases p.refersTo old <;> simp
  · refine List.countP_congr fun p member => ?_
    rw [moved p member]
    cases refers : p.refersTo old with
    | true => simp [refersTo_of_refersTo coherent named unlike.1 member refers]
    | false => simp

theorem occurrences_replace_other {other : Token} (named : Token.Coherent (other :: e.tokens))
    (unlike : other.Unlike old) (unlike' : other.Unlike new) :
    (e.replace old new).occurrences other = e.occurrences other := by
  rw [occurrences_replace, occurrences_eq_countP]
  refine List.countP_congr fun p member => ?_
  rw [Place.refersTo_relabel_of_unlike unlike' (handles_show coherent unlike.1.symm p member)]
  cases refers : p.refersTo old with
  | true => simp [refersTo_of_refersTo coherent named unlike.1.symm member refers]
  | false => simp

theorem print_replace_back (unlike : old.Unlike new) (absent : ∀ t ∈ e.tokens, t.Unlike new) :
    ((e.replace old new).replace new old).print = e.print := by
  have twice : (e.replace old new).replace new old =
      e.relabel (fun p => (p.relabel (Place.replaced old new)).replaced new old) [] := by
    rw [replace_eq_relabel, replace_eq_relabel]
    exact relabel_relabel e []
  rw [twice]
  refine print_relabel e [] fun p member => ?_
  have nowhere : p.refersTo new = false :=
    Place.refersTo_of_unlike (forall_places absent p member).token
  rw [Place.replaced, Place.refersTo_relabel_new (handles_show coherent unlike.1 p member), nowhere,
    Bool.or_false, Place.token_relabel, Place.replaced]
  by_cases refers : p.refersTo old = true
  · rw [if_pos refers]
    exact (lexeme_of_refersTo coherent member refers).symm
  · rw [if_neg refers, if_neg refers]

end

/-- A replacement moves the occurrences of the old token to the new one and no other. If the tree has
nothing of the new token, the way back gives a tree that prints the same. -/
theorem replace_moves_occurrences (coherent : Token.Coherent (old :: new :: e.tokens))
    (unlike : old.Unlike new) :
    (e.replace old new).occurrences old = 0 ∧
      (e.replace old new).occurrences new = e.occurrences old + e.occurrences new ∧
      (∀ other : Token, Token.Coherent (other :: e.tokens) → other.Unlike old → other.Unlike new →
        (e.replace old new).occurrences other = e.occurrences other) ∧
      ((∀ t ∈ e.tokens, t.Unlike new) →
        ((e.replace old new).replace new old).print = e.print) := by
  have olds : Token.Coherent (old :: e.tokens) :=
    coherent.mono (List.cons_subset_cons _ (List.subset_cons_self _ _))
  have news : Token.Coherent (new :: e.tokens) := coherent.mono (List.subset_cons_self _ _)
  exact ⟨occurrences_replace_old unlike, occurrences_replace_new olds unlike news,
    fun other named unlike unlike' => occurrences_replace_other olds named unlike unlike',
    print_replace_back olds unlike⟩

/-- In `let y = x in let x#7 = y in x & x#7` both tokens have occurrences. In `let y = x in x` only
the first one has, so that there is a way back. -/
theorem replace_moves_occurrences_both :
    let old : Token := ⟨.identifier, "x", none, 8, 0⟩
    let new : Token := ⟨.identifier, "x#7", none, 17, 1⟩
    let y : Token := ⟨.identifier, "y", none, 4, 2⟩
    let x : Expr := .var ⟨.identifier, "x", none, 28, 5⟩
    let e : Expr := .letIn [(y, .var old)] (.letIn [(new, .var ⟨.identifier, "y", none, 23, 3⟩)]
      (.binary .and ⟨.amp, "&", none, 30, 4⟩ x (.var new)))
    let one : Expr := .letIn [(y, .var old)] x
    Token.Coherent (old :: new :: e.tokens) ∧ old.Unlike new ∧
      e.occurrences old = 2 ∧ e.occurrences new = 2 ∧ (e.replace old new).occurrences old = 0 ∧
      (e.replace old new).occurrences new = 4 ∧
      (e.replace old new).occurrences y = e.occurrences y ∧
      (one.replace old new).print = "let y = x#7 in x#7" ∧
      ((one.replace old new).replace new old).print = one.print := by
  intro old new y x e one
  have coherent : Token.Coherent (old :: new :: e.tokens) := by decide
  have unlike : old.Unlike new := by decide
  have counted : e.occurrences old = 2 ∧ e.occurrences new = 2 := by decide
  obtain ⟨gone, moved, others, _⟩ := replace_moves_occurrences coherent unlike
  obtain ⟨_, _, _, back⟩ :=
    replace_moves_occurrences (show Token.Coherent (old :: new :: one.tokens) by decide) unlike
  refine ⟨coherent, unlike, counted.1, counted.2, gone, ?_,
    others y (by decide) (by decide) (by decide), by decide +kernel, back (by decide)⟩
  rw [moved, counted.1, counted.2]

end Expr

end LetLang
