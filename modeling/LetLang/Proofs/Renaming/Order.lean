import Mathlib.Data.List.Induction
import Mathlib.Data.List.Nodup
import LetLang.Proofs.Renaming.Hygiene
import LetLang.Proofs.Renaming.Occurrences

/-!
# Renaming in any order

Replacements that look for unlike tokens, and that put in none that another one looks for, are one
pass together: each place is given the token of what it stands for.
-/

namespace LetLang

section

variable {α : Type} {l m : List α} {q : α → Bool}

theorem find?_eq_some_iff_of_unique
    (unique : ∀ a ∈ l, ∀ b ∈ l, q a = true → q b = true → a = b) {a : α} :
    l.find? q = some a ↔ a ∈ l ∧ q a = true := by
  refine ⟨fun found => ⟨List.mem_of_find?_eq_some found, List.find?_some found⟩, ?_⟩
  rintro ⟨member, fits⟩
  obtain ⟨b, found⟩ := Option.isSome_iff_exists.mp (List.find?_isSome.mpr ⟨a, member, fits⟩)
  rw [found, unique b (List.mem_of_find?_eq_some found) a member (List.find?_some found) fits]

theorem find?_eq_of_perm (perm : l.Perm m)
    (unique : ∀ a ∈ m, ∀ b ∈ m, q a = true → q b = true → a = b) : l.find? q = m.find? q := by
  have unique' : ∀ a ∈ l, ∀ b ∈ l, q a = true → q b = true → a = b := fun a here b there =>
    unique a (perm.mem_iff.mp here) b (perm.mem_iff.mp there)
  refine Option.ext fun a => ?_
  rw [find?_eq_some_iff_of_unique unique, find?_eq_some_iff_of_unique unique', perm.mem_iff]

end

namespace Place

/-- The token of the place once every reference to the first token of a pair is the second. -/
def sentBy (pairs : List (Token × Token)) (p : Place) : Token :=
  match pairs.find? fun pair => p.refersTo pair.1 with
  | some pair => pair.2
  | none => p.token

variable {pairs order : List (Token × Token)} {old new : Token} {p : Place}

theorem refersTo_relabel_sentBy (apart : Token.Apart pairs old)
    (named : p.All (Token.Named (pairs ++ [(old, new)]))) (kept : p.sentBy pairs = p.token) :
    (p.relabel (sentBy pairs)).refersTo old = p.refersTo old := by
  cases p with
  | var t scope =>
    have visible : old.visibleIn (scope.map fun b => sentBy pairs (.binder b)) =
        old.visibleIn scope :=
      Token.visibleIn_map fun b member => Token.hides_reboundBy apart (named.2 b member)
    rw [relabel, refersTo, visible, kept]
    rfl
  | binder t =>
    rw [relabel, kept]
    rfl

theorem replaced_relabel_sentBy (apart : Token.Apart pairs old)
    (named : p.All (Token.Named (pairs ++ [(old, new)]))) :
    (p.relabel (sentBy pairs)).replaced old new = p.sentBy (pairs ++ [(old, new)]) := by
  cases found : pairs.find? fun pair => p.refersTo pair.1 with
  | some pair =>
    have sent : p.sentBy pairs = pair.2 := by rw [sentBy, found]
    have unlike : pair.2.Unlike old := (apart pair (List.mem_of_find?_eq_some found)).2
    have stays : (p.relabel (sentBy pairs)).refersTo old = false :=
      refersTo_of_unlike (by rwa [token_relabel, sent])
    rw [replaced, stays, token_relabel, sent, sentBy, List.find?_append, found]
    rfl
  | none =>
    have kept : p.sentBy pairs = p.token := by rw [sentBy, found]
    rw [replaced, refersTo_relabel_sentBy apart named kept, token_relabel, kept, sentBy,
      List.find?_append, found, List.find?_singleton]
    cases p.refersTo old <;> rfl

end Place

namespace Token

/-- No replacement looks for what another one looks for or puts in. -/
def Independent (pairs : List (Token × Token)) : Prop :=
  pairs.Pairwise fun first next =>
    first.1.Unlike next.1 ∧ first.2.Unlike next.1 ∧ next.2.Unlike first.1

namespace Independent

variable {pairs order : List (Token × Token)}

theorem perm (independent : Independent pairs) (perm : order.Perm pairs) : Independent order := by
  refine (perm.pairwise_iff ?_).mpr independent
  rintro first next ⟨unlike, before, behind⟩
  exact ⟨⟨unlike.1.symm, unlike.2.symm⟩, behind, before⟩

theorem separate (independent : Independent pairs) : Separate pairs :=
  independent.imp fun unlike => ⟨unlike.1.1, unlike.2.1⟩

theorem eq_of_lexeme (independent : Independent pairs) {first next : Token × Token}
    (here : first ∈ pairs) (there : next ∈ pairs) (same : first.1.lexeme = next.1.lexeme) :
    first = next :=
  List.inj_on_of_nodup_map
    (List.pairwise_map.mpr (independent.imp fun unlike => unlike.1.1)) here there same

theorem eq_of_site (independent : Independent pairs) {first next : Token × Token}
    (here : first ∈ pairs) (there : next ∈ pairs) (same : first.1.site = next.1.site) :
    first = next :=
  List.inj_on_of_nodup_map
    (List.pairwise_map.mpr (independent.imp fun unlike => unlike.1.2)) here there same

end Independent

end Token

namespace Place

variable {pairs order : List (Token × Token)} {p : Place}

theorem eq_of_refersTo (independent : Token.Independent pairs) (named : p.All (Token.Named pairs))
    {first next : Token × Token} (here : first ∈ pairs) (there : next ∈ pairs)
    (refers : p.refersTo first.1 = true) (also : p.refersTo next.1 = true) : first = next := by
  cases p with
  | var t scope =>
    have mixed : ∀ {a b}, a ∈ pairs → b ∈ pairs → t.site = a.1.site → t.lexeme = b.1.lexeme → a = b :=
      fun here there site lexeme =>
        independent.eq_of_lexeme here there (named.1.lexeme_eq here there site lexeme)
    rcases Token.refersTo_iff.mp refers with site | ⟨_, lexeme⟩
    · rcases Token.refersTo_iff.mp also with site' | ⟨_, lexeme'⟩
      · exact independent.eq_of_site here there (site.symm.trans site')
      · exact mixed here there site lexeme'
    · rcases Token.refersTo_iff.mp also with site' | ⟨_, lexeme'⟩
      · exact (mixed there here site' lexeme).symm
      · exact independent.eq_of_lexeme here there (lexeme.symm.trans lexeme')
  | binder t =>
    have site := Token.sameSite_iff.mp refers
    exact independent.eq_of_site here there (site.symm.trans (Token.sameSite_iff.mp also))

theorem sentBy_of_perm (perm : order.Perm pairs) (independent : Token.Independent pairs)
    (named : p.All (Token.Named pairs)) : p.sentBy order = p.sentBy pairs := by
  rw [sentBy, sentBy, find?_eq_of_perm perm]
  exact fun first here next there => eq_of_refersTo independent named here there

end Place

namespace Declaration

variable {e : Expr} {pairs order : List (Token × Token)}

theorem renameBody_eq_relabel (separate : Token.Separate pairs)
    (named : ∀ t ∈ e.tokens, t.Named pairs) :
    renameBody e pairs = e.relabel (Place.sentBy pairs) [] := by
  induction pairs using List.reverseRecOn with
  | nil => exact (e.relabel_token []).symm
  | append_singleton pairs pair ih =>
    obtain ⟨earlier, _, last⟩ := List.pairwise_append.mp separate
    have apart : Token.Apart pairs pair.1 := fun other member =>
      last other member pair List.mem_cons_self
    have before := ih earlier fun t member =>
      (named t member).mono (List.subset_append_left _ _)
    have step : renameBody e (pairs ++ [pair]) = (renameBody e pairs).replace pair.1 pair.2 :=
      List.foldl_append
    rw [step, before, Expr.replace_eq_relabel]
    refine (Expr.relabel_relabel e []).trans ((Expr.relabel_eq_iff e []).mpr fun p member => ?_)
    exact Place.replaced_relabel_sentBy apart (Expr.forall_places named p member)

theorem renameBody_of_perm (independent : Token.Independent pairs)
    (named : ∀ t ∈ e.tokens, t.Named pairs) (perm : order.Perm pairs) :
    renameBody e order = e.relabel (Place.sentBy pairs) [] := by
  have reordered : ∀ t ∈ e.tokens, t.Named order := fun t member => (named t member).mono perm.subset
  rw [renameBody_eq_relabel (independent.perm perm).separate reordered, Expr.relabel_eq_iff]
  intro p member
  exact Place.sentBy_of_perm perm independent (Expr.forall_places named p member)

theorem independent_freshPairs {d : Declaration} {r : Renamer}
    (distinct : (d.params.map Token.lexeme).Nodup) (plain : ∀ p ∈ d.params, Plain p.lexeme)
    (unmixed : ∀ p ∈ d.params, p.Unmixed d.params) (spared : r.symbols.Spares d.arity d.params) :
    Token.Independent (d.freshPairs r) := by
  have marked : ∀ first ∈ d.freshPairs r, ∀ next ∈ d.freshPairs r, first.2.Unlike next.1 := by
    intro first here next there
    refine ⟨fun same => snd_not_plain here (same ▸ plain _ (fst_mem_params there)), ?_⟩
    exact Renamer.spares_iff.mp spared _ (List.of_mem_zip here).2 _ (fst_mem_params there)
  have names := (separate_freshPairs distinct plain spared).imp fun apart => apart.1
  refine names.imp_of_mem fun {first next} here there lexeme => ⟨⟨lexeme, fun site => ?_⟩,
    marked first here next there, marked next there first here⟩
  exact lexeme (unmixed _ (fst_mem_params here) _ (fst_mem_params there) _ (fst_mem_params here)
    site rfl).symm

/-- Two replacements of unlike tokens commute if neither puts in what the other one looks for. So the
body of a hygienic declaration is that of one pass, which gives each reference to a parameter the
fresh token of that parameter, and it is the same in whatever order the parameters are renamed. It
takes fresh tokens with none of the sites of the parameters. -/
theorem renaming_order_irrelevant (e : Expr) (d : Declaration) (r : Renamer) :
    (∀ a a' b b' : Token, (∀ t ∈ e.tokens, t.Unmixed [a, b]) → a.Unlike b → a'.Unlike b →
      b'.Unlike a → (e.replace a a').replace b b' = (e.replace b b').replace a a') ∧
    (ofParts d.name d.params d.body = .ok d → (∀ t ∈ d.tokens, Plain t.lexeme) →
      (∀ t ∈ d.params ++ d.body.tokens, t.Unmixed d.params) → r.symbols.Spares d.arity d.params →
        ∀ stored, (d.hygienic r).1 = .ok stored →
          stored.body = d.body.relabel (Place.sentBy (d.params.zip stored.params)) [] ∧
          ∀ order, order.Perm (d.params.zip stored.params) →
            renameBody d.body order = stored.body) := by
  constructor
  · intro a a' b b' unmixed unlike before behind
    have independent : Token.Independent [(a, a'), (b, b')] :=
      List.pairwise_pair.mpr ⟨unlike, before, behind⟩
    have first : (e.replace a a').replace b b' = _ :=
      renameBody_of_perm independent unmixed (List.Perm.refl _)
    have second : (e.replace b b').replace a a' = _ :=
      renameBody_of_perm independent unmixed (List.Perm.swap _ _ _)
    rw [first, second]
  · intro built plain unmixed spared stored made
    obtain ⟨_, rfl, _⟩ := hygienic_eq_ok_iff.mp (Prod.ext made rfl)
    obtain ⟨params, body⟩ := List.forall_mem_append.mp unmixed
    have independent : Token.Independent (d.freshPairs r) :=
      independent_freshPairs (ofParts_eq_ok_iff.mp built).1
        (fun p member => plain p (List.mem_cons_of_mem _ (List.mem_append_left _ member))) params
        spared
    have named : ∀ t ∈ d.body.tokens, t.Named (d.freshPairs r) := fun t member => by
      rw [Token.Named, fst_freshPairs]
      exact body t member
    have whole : (d.renamed r).body = d.body.relabel (Place.sentBy (d.freshPairs r)) [] :=
      renameBody_of_perm independent named (List.Perm.refl _)
    refine ⟨whole, fun order perm => ?_⟩
    rw [whole]
    exact renameBody_of_perm independent named perm

/-- In the body `let x = y in x @ y` of `f(x, y)` the second `x` is a handle of the parameter, so
that it is renamed behind the binder too. -/
theorem renaming_order_irrelevant_handle :
    let x : Token := ⟨.identifier, "x", none, 11, 1⟩
    let y : Token := ⟨.identifier, "y", none, 14, 2⟩
    let x' : Token := ⟨.identifier, "x#3", none, 11, 9⟩
    let y' : Token := ⟨.identifier, "y#4", none, 14, 10⟩
    let body : Expr := .letIn
      [(⟨.identifier, "x", none, 24, 3⟩, .var ⟨.identifier, "y", none, 28, 4⟩)]
      (.binary .concat ⟨.atSign, "@", none, 35, 5⟩ (.var x) (.var ⟨.identifier, "y", none, 37, 6⟩))
    let d : Declaration := ⟨⟨.identifier, "f", none, 9, 0⟩, [x, y], body⟩
    let r : Renamer := ⟨3, ⟨.initial, 9⟩⟩
    (body.replace x x').replace y y' = (body.replace y y').replace x x' ∧
      ∃ stored, (d.hygienic r).1 = .ok stored ∧ stored.params = [x', y'] ∧
        renameBody body [(y, y'), (x, x')] = stored.body ∧
        stored.body.print = "let x = y#4 in x#3 @ y#4" := by
  intro x y x' y' body d r
  obtain ⟨commutes, once⟩ := renaming_order_irrelevant body d r
  have commute := commutes x x' y y' (by decide) (by decide) (by decide) (by decide)
  have room : r.HasRoom d.params := by decide +kernel
  have made : (d.hygienic r).1 = .ok (d.renamed r) := hygienic_of_hasRoom room
  have params : (d.renamed r).params = [x', y'] := by decide +kernel
  have reordered := (once rfl (by decide) (by decide) (by decide) _ made).2 [(y, y'), (x, x')]
    (params ▸ List.Perm.swap _ _ _)
  exact ⟨commute, _, made, params, reordered, by decide +kernel⟩

/-- Once the sites have started again, a token can share its site with one of the replaced tokens and
its lexeme with the other, and a fresh one can share its site with the next parameter. -/
theorem renaming_order_matters :
    (¬ ∀ (e : Expr) (a a' b b' : Token), a.Unlike b → a'.Unlike b → b'.Unlike a →
      (e.replace a a').replace b b' = (e.replace b b').replace a a') ∧
    ¬ ∀ (d : Declaration) (r : Renamer) (stored : Declaration),
      ofParts d.name d.params d.body = .ok d → (∀ t ∈ d.tokens, Plain t.lexeme) →
        (∀ t ∈ d.params ++ d.body.tokens, t.Unmixed d.params) → (d.hygienic r).1 = .ok stored →
          stored.body = d.body.relabel (Place.sentBy (d.params.zip stored.params)) [] := by
  let x : Token := ⟨.identifier, "x", none, 11, 1⟩
  let y : Token := ⟨.identifier, "y", none, 14, 2⟩
  constructor
  · intro commute
    let again : Token := ⟨.identifier, "y", none, 20, 1⟩
    have same := commute (.var again) x ⟨.identifier, "x#0", none, 11, 5⟩ y
      ⟨.identifier, "y#1", none, 14, 6⟩ (by decide) (by decide) (by decide)
    exact absurd (congrArg Expr.print same) (by decide +kernel)
  · intro once
    let d : Declaration := ⟨⟨.identifier, "f", none, 9, 0⟩, [x, y],
      .var ⟨.identifier, "x", none, 20, 3⟩⟩
    let r : Renamer := ⟨0, ⟨.initial, 2⟩⟩
    have room : r.HasRoom d.params := by decide +kernel
    have same := once d r _ rfl (by decide) (by decide) (hygienic_of_hasRoom room)
    exact absurd (congrArg Expr.print same) (by decide +kernel)

end Declaration

end LetLang
