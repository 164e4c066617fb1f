import LetLang.Expr.Induction
import LetLang.Proofs.Renaming.Fresh

/-!
# Renaming all parameters at once

A declaration is made hygienic by one pass for each parameter. Together they are one pass that drops
a parameter from sight behind every binder of its name.
-/

namespace LetLang

namespace Expr

mutual

def tokens : Expr → List Token
  | literal _ => []
  | unary _ t e => t :: e.tokens
  | binary _ t l r => t :: (l.tokens ++ r.tokens)
  | cond c y n _ _ => c.tokens ++ (y.tokens ++ n.tokens)
  | letIn bs e => tokensOfBindings bs ++ e.tokens
  | var t => [t]
  | function t ps e => t :: (ps ++ e.tokens)
  | call t es => t :: tokensOfArgs es
termination_by structural e => e

def tokensOfBindings : List (Token × Expr) → List Token
  | [] => []
  | (t, e) :: bs => t :: (e.tokens ++ tokensOfBindings bs)
termination_by structural bs => bs

def tokensOfArgs : List Expr → List Token
  | [] => []
  | e :: es => e.tokens ++ tokensOfArgs es
termination_by structural es => es

end

end Expr

def Declaration.tokens (d : Declaration) : List Token := d.name :: (d.params ++ d.body.tokens)

namespace Token

/-- A variable after the pass: a handle of a parameter is renamed everywhere, another token only
where the parameter of its name is in sight. -/
def renamedBy (handles visible : List (Token × Token)) (t : Token) : Token :=
  match handles.find? (fun pair => t.sameSite pair.1) with
  | some pair => pair.2
  | none =>
    match visible.find? (fun pair => t.sameLexeme pair.1) with
    | some pair => pair.2
    | none => t

def reboundBy (handles : List (Token × Token)) (t : Token) : Token :=
  match handles.find? (fun pair => t.sameSite pair.1) with
  | some pair => pair.2
  | none => t

def remaining (visible : List (Token × Token)) (binders : List Token) : List (Token × Token) :=
  visible.filter fun pair => !binders.any pair.1.hides

end Token

namespace Expr

mutual

def renameIn (handles visible : List (Token × Token)) : Expr → Expr
  | literal v => literal v
  | unary op t e => unary op t (renameIn handles visible e)
  | binary op t l r => binary op t (renameIn handles visible l) (renameIn handles visible r)
  | cond c y n i j =>
    cond (renameIn handles visible c) (renameIn handles visible y) (renameIn handles visible n) i j
  | letIn bs e =>
    letIn (renameBindings handles visible bs)
      (renameIn handles (Token.remaining visible (bs.map Prod.fst)) e)
  | var t => var (t.renamedBy handles visible)
  | function t ps e =>
    function t (ps.map (Token.reboundBy handles)) (renameIn handles (Token.remaining visible ps) e)
  | call t es => call t (renameArgs handles visible es)
termination_by structural e => e

def renameBindings (handles visible : List (Token × Token)) :
    List (Token × Expr) → List (Token × Expr)
  | [] => []
  | (t, e) :: bs =>
    (t.reboundBy handles, renameIn handles visible e) ::
      renameBindings handles (Token.remaining visible [t]) bs
termination_by structural bs => bs

def renameArgs (handles visible : List (Token × Token)) : List Expr → List Expr
  | [] => []
  | e :: es => renameIn handles visible e :: renameArgs handles visible es
termination_by structural es => es

end

def renameAll (e : Expr) (pairs : List (Token × Token)) : Expr := renameIn pairs pairs e

end Expr

namespace Token

theorem remaining_cons (visible : List (Token × Token)) (t : Token) (ts : List Token) :
    remaining visible (t :: ts) = remaining (remaining visible [t]) ts := by
  simp only [remaining, List.filter_filter, List.any_cons, List.any_nil, Bool.or_false, Bool.not_or]
  congr 1
  funext pair
  exact Bool.and_comm _ _

theorem remaining_nil (visible : List (Token × Token)) : remaining visible [] = visible := by
  simp [remaining]

theorem remaining_subset (visible : List (Token × Token)) (binders : List Token) :
    remaining visible binders ⊆ visible :=
  fun _ member => (List.mem_filter.mp member).1

theorem remaining_subset_of {handles visible : List (Token × Token)} (sub : visible ⊆ handles)
    (binders : List Token) : remaining visible binders ⊆ handles :=
  List.Subset.trans (remaining_subset visible binders) sub

end Token

/-- The token has not the site of one of the tokens and the lexeme of another one. -/
def Token.Unmixed (olds : List Token) (t : Token) : Prop :=
  ∀ a ∈ olds, ∀ b ∈ olds, t.site = a.site → t.lexeme = b.lexeme → a.lexeme = b.lexeme

instance (olds : List Token) (t : Token) : Decidable (t.Unmixed olds) :=
  inferInstanceAs (Decidable (∀ a ∈ olds, ∀ b ∈ olds, _))

/-- A handle of a renamed token has the name of no other one. -/
def Token.Named (pairs : List (Token × Token)) (t : Token) : Prop :=
  t.Unmixed (pairs.map Prod.fst)

theorem Token.Named.lexeme_eq {pairs : List (Token × Token)} {t : Token} (named : t.Named pairs)
    {first next : Token × Token} (here : first ∈ pairs) (there : next ∈ pairs)
    (site : t.site = first.1.site) (lexeme : t.lexeme = next.1.lexeme) :
    first.1.lexeme = next.1.lexeme :=
  named _ (List.mem_map_of_mem here) _ (List.mem_map_of_mem there) site lexeme

theorem Token.Named.mono {pairs others : List (Token × Token)} {t : Token} (named : t.Named pairs)
    (sub : others ⊆ pairs) : t.Named others := fun a here b there =>
  named a (List.map_subset _ sub here) b (List.map_subset _ sub there)

/-- What the next pass looks for is none of the tokens that the passes before it put in or looked
for. -/
def Token.Apart (handles : List (Token × Token)) (old : Token) : Prop :=
  ∀ pair ∈ handles, pair.1.lexeme ≠ old.lexeme ∧ pair.2.lexeme ≠ old.lexeme ∧
    pair.2.site ≠ old.site

def Token.sighted (old new : Token) (seen : Bool) : List (Token × Token) :=
  if seen then [(old, new)] else []

namespace Token

variable {handles visible : List (Token × Token)} {old new t : Token}

theorem remaining_append_sighted (binders : List Token) (seen : Bool) :
    remaining (visible ++ sighted old new seen) binders =
      remaining visible binders ++ sighted old new (seen && !binders.any old.hides) := by
  unfold remaining sighted
  rw [List.filter_append]
  cases seen
  · simp
  · cases hidden : binders.any old.hides <;> simp [hidden]

theorem sameSite_iff {a b : Token} : a.sameSite b = true ↔ a.site = b.site := by simp [sameSite]

theorem sameLexeme_iff {a b : Token} : a.sameLexeme b = true ↔ a.lexeme = b.lexeme := by
  simp [sameLexeme]

theorem refersTo_iff {target t : Token} {shown : Bool} :
    target.refersTo shown t = true ↔
      t.site = target.site ∨ shown = true ∧ t.lexeme = target.lexeme := by
  simp [refersTo, sameLexeme, sameSite]

theorem site_of_find? {pair : Token × Token}
    (found : handles.find? (fun pair => t.sameSite pair.1) = some pair) :
    pair ∈ handles ∧ t.site = pair.1.site :=
  ⟨List.mem_of_find?_eq_some found, sameSite_iff.mp (by simpa using List.find?_some found)⟩

theorem lexeme_of_find? {pair : Token × Token}
    (found : visible.find? (fun pair => t.sameLexeme pair.1) = some pair) :
    pair ∈ visible ∧ t.lexeme = pair.1.lexeme :=
  ⟨List.mem_of_find?_eq_some found, sameLexeme_iff.mp (by simpa using List.find?_some found)⟩

theorem reference_renamedBy (apart : Apart handles old) (sub : visible ⊆ handles)
    (named : Named (handles ++ [(old, new)]) t) (seen : Bool) :
    old.reference new seen (t.renamedBy handles visible) =
      t.renamedBy (handles ++ [(old, new)]) (visible ++ sighted old new seen) := by
  have untouched : ∀ pair ∈ handles, old.reference new seen pair.2 = pair.2 := by
    intro pair member
    obtain ⟨_, lexeme, site⟩ := apart pair member
    simp [reference, refersTo, sameSite, sameLexeme, lexeme, site]
  unfold renamedBy
  rw [List.find?_append, List.find?_append]
  cases handle : handles.find? (fun pair => t.sameSite pair.1) with
  | some pair => exact untouched pair (site_of_find? handle).1
  | none =>
    cases name : visible.find? (fun pair => t.sameLexeme pair.1) with
    | some pair =>
      obtain ⟨member, lexeme⟩ := lexeme_of_find? name
      have member := sub member
      have other : t.sameSite old = false := by
        rw [Bool.eq_false_iff, ne_eq, sameSite_iff]
        intro same
        exact (apart pair member).1 (named.lexeme_eq (List.mem_append_right _ List.mem_cons_self)
          (List.mem_append_left _ member) same lexeme).symm
      simp [other, untouched pair member]
    | none =>
      by_cases site : t.sameSite old = true
      · simp [reference, refersTo, site]
      · by_cases lexeme : t.sameLexeme old = true
        · cases seen <;> simp [reference, refersTo, sighted, site, lexeme]
        · cases seen <;> simp [reference, refersTo, sighted, site, lexeme]

theorem binder_reboundBy (apart : Apart handles old) :
    old.binder new (t.reboundBy handles) = t.reboundBy (handles ++ [(old, new)]) := by
  unfold reboundBy
  rw [List.find?_append]
  cases handle : handles.find? (fun pair => t.sameSite pair.1) with
  | some pair =>
    have site := (apart pair (site_of_find? handle).1).2.2
    simp [binder, sameSite, site]
  | none => by_cases site : t.sameSite old = true <;> simp [binder, site]

theorem hides_reboundBy (apart : Apart handles old) (named : Named (handles ++ [(old, new)]) t) :
    old.hides (t.reboundBy handles) = old.hides t := by
  unfold reboundBy
  cases handle : handles.find? (fun pair => t.sameSite pair.1) with
  | some pair =>
    obtain ⟨member, site⟩ := site_of_find? handle
    obtain ⟨first, second, _⟩ := apart pair member
    have before : t.sameLexeme old = false := by
      rw [Bool.eq_false_iff, ne_eq, sameLexeme_iff]
      exact fun lexeme => first (named.lexeme_eq (List.mem_append_left _ member)
        (List.mem_append_right _ List.mem_cons_self) site lexeme)
    have after : pair.2.sameLexeme old = false := by simpa [sameLexeme] using second
    simp [hides, before, after]
  | none => rfl

end Token

namespace Expr

variable {handles visible : List (Token × Token)} {old new : Token}

def TakesPass (handles : List (Token × Token)) (old new : Token) (e : Expr) : Prop :=
  ∀ visible seen, visible ⊆ handles → (∀ t ∈ e.tokens, t.Named (handles ++ [(old, new)])) →
    replaceIn old new seen (renameIn handles visible e) =
      renameIn (handles ++ [(old, new)]) (visible ++ Token.sighted old new seen) e

theorem visibleBehind_eq (target : Token) (seen : Bool) (bs : List (Token × Expr)) :
    visibleBehind target seen bs = (seen && !(bs.map Prod.fst).any target.hides) := by
  simp [visibleBehind, List.any_map, Function.comp_def]

theorem renameBindings_fst (apart : Token.Apart handles old) {bs : List (Token × Expr)}
    (named : ∀ t ∈ tokensOfBindings bs, t.Named (handles ++ [(old, new)])) :
    ((renameBindings handles visible bs).map Prod.fst).any old.hides =
      (bs.map Prod.fst).any old.hides := by
  induction bs generalizing visible with
  | nil => rfl
  | cons b bs ih =>
    obtain ⟨t, e⟩ := b
    simp only [tokensOfBindings, List.forall_mem_cons, List.forall_mem_append] at named
    simp only [renameBindings, List.map_cons, List.any_cons, Token.hides_reboundBy apart named.1,
      ih named.2.2]

theorem any_reboundBy (apart : Token.Apart handles old) {ps : List Token}
    (named : ∀ t ∈ ps, t.Named (handles ++ [(old, new)])) :
    (ps.map (Token.reboundBy handles)).any old.hides = ps.any old.hides := by
  induction ps with
  | nil => rfl
  | cons p ps ih =>
    obtain ⟨first, rest⟩ := List.forall_mem_cons.mp named
    simp only [List.map_cons, List.any_cons, Token.hides_reboundBy apart first, ih rest]

theorem replaceBindings_renameBindings (apart : Token.Apart handles old)
    {bs : List (Token × Expr)} (each : ∀ b ∈ bs, TakesPass handles old new b.2) (seen : Bool)
    (sub : visible ⊆ handles)
    (named : ∀ t ∈ tokensOfBindings bs, t.Named (handles ++ [(old, new)])) :
    replaceBindings old new seen (renameBindings handles visible bs) =
      renameBindings (handles ++ [(old, new)]) (visible ++ Token.sighted old new seen) bs := by
  induction bs generalizing visible seen with
  | nil => rfl
  | cons b bs ih =>
    obtain ⟨t, e⟩ := b
    obtain ⟨first, rest⟩ := List.forall_mem_cons.mp each
    simp only [tokensOfBindings, List.forall_mem_cons, List.forall_mem_append] at named
    obtain ⟨binder, value, others⟩ := named
    have sub' := Token.remaining_subset_of sub [t]
    have behind : Token.remaining (visible ++ Token.sighted old new seen) [t] =
        Token.remaining visible [t] ++ Token.sighted old new (seen && !old.hides t) := by
      rw [Token.remaining_append_sighted, List.any_cons, List.any_nil, Bool.or_false]
    simp only [renameBindings, replaceBindings, Token.binder_reboundBy apart,
      Token.hides_reboundBy apart binder, first visible seen sub value, ih rest _ sub' others,
      behind]

theorem replaceArgs_renameArgs {es : List Expr} (each : ∀ e ∈ es, TakesPass handles old new e)
    (seen : Bool) (sub : visible ⊆ handles)
    (named : ∀ t ∈ tokensOfArgs es, t.Named (handles ++ [(old, new)])) :
    replaceArgs old new seen (renameArgs handles visible es) =
      renameArgs (handles ++ [(old, new)]) (visible ++ Token.sighted old new seen) es := by
  induction es with
  | nil => rfl
  | cons e es ih =>
    obtain ⟨first, rest⟩ := List.forall_mem_cons.mp each
    simp only [tokensOfArgs, List.forall_mem_append] at named
    simp only [renameArgs, replaceArgs, first visible seen sub named.1, ih rest named.2]

theorem takesPass (apart : Token.Apart handles old) (e : Expr) : TakesPass handles old new e := by
  induction e using Expr.induction with
  | literal v => exact fun _ _ _ _ => rfl
  | unary op t e operand =>
    intro visible seen sub named
    simp only [tokens, List.forall_mem_cons] at named
    simp only [renameIn, replaceIn, operand visible seen sub named.2]
  | binary op t l r left right =>
    intro visible seen sub named
    simp only [tokens, List.forall_mem_cons, List.forall_mem_append] at named
    simp only [renameIn, replaceIn, left visible seen sub named.2.1, right visible seen sub named.2.2]
  | cond c y n i j condition yes no =>
    intro visible seen sub named
    simp only [tokens, List.forall_mem_append] at named
    simp only [renameIn, replaceIn, condition visible seen sub named.1, yes visible seen sub named.2.1,
      no visible seen sub named.2.2]
  | letIn bs e bindings body =>
    intro visible seen sub named
    simp only [tokens, List.forall_mem_append] at named
    have sub' := Token.remaining_subset_of sub (bs.map Prod.fst)
    simp only [renameIn, replaceIn, visibleBehind_eq, renameBindings_fst apart named.1,
      replaceBindings_renameBindings apart bindings seen sub named.1, body _ _ sub' named.2,
      Token.remaining_append_sighted]
  | var t =>
    intro visible seen sub named
    simp only [renameIn, replaceIn,
      Token.reference_renamedBy apart sub (named t List.mem_cons_self) seen]
  | function t ps e body =>
    intro visible seen sub named
    simp only [tokens, List.forall_mem_cons, List.forall_mem_append] at named
    have sub' := Token.remaining_subset_of sub ps
    simp only [renameIn, replaceIn, visibleUnder, any_reboundBy apart named.2.1, List.map_map,
      body _ _ sub' named.2.2, Token.remaining_append_sighted, Function.comp_def,
      Token.binder_reboundBy apart]
  | call t es args =>
    intro visible seen sub named
    simp only [tokens, List.forall_mem_cons] at named
    simp only [renameIn, replaceIn, replaceArgs_renameArgs args seen sub named.2]

/-! ### All passes -/

theorem renameBindings_nil {bs : List (Token × Expr)}
    (each : ∀ b ∈ bs, renameIn [] [] b.2 = b.2) : renameBindings [] [] bs = bs := by
  induction bs with
  | nil => rfl
  | cons b bs ih =>
    obtain ⟨first, rest⟩ := List.forall_mem_cons.mp each
    simp only [renameBindings, Token.remaining, List.filter_nil, first, ih rest]
    rfl

theorem renameArgs_nil {es : List Expr} (each : ∀ e ∈ es, renameIn [] [] e = e) :
    renameArgs [] [] es = es := by
  induction es with
  | nil => rfl
  | cons e es ih =>
    obtain ⟨first, rest⟩ := List.forall_mem_cons.mp each
    simp only [renameArgs, first, ih rest]

theorem renameIn_nil (e : Expr) : renameIn [] [] e = e := by
  induction e using Expr.induction with
  | literal v => rfl
  | unary op t e operand => simp only [renameIn, operand]
  | binary op t l r left right => simp only [renameIn, left, right]
  | cond c y n i j condition yes no => simp only [renameIn, condition, yes, no]
  | letIn bs e bindings body =>
    simp only [renameIn, renameBindings_nil bindings, Token.remaining, List.filter_nil, body]
  | var t => rfl
  | function t ps e body =>
    have binders : ps.map (Token.reboundBy []) = ps := List.map_id' ps
    simp only [renameIn, Token.remaining, List.filter_nil, body, binders]
  | call t es args => simp only [renameIn, renameArgs_nil args]

end Expr

def Token.Separate (pairs : List (Token × Token)) : Prop :=
  pairs.Pairwise fun first next => first.1.lexeme ≠ next.1.lexeme ∧
    first.2.lexeme ≠ next.1.lexeme ∧ first.2.site ≠ next.1.site

theorem Declaration.renameBody_eq {body : Expr} {pairs : List (Token × Token)}
    (separate : Token.Separate pairs) (named : ∀ t ∈ body.tokens, t.Named pairs) :
    renameBody body pairs = body.renameAll pairs := by
  have folded : ∀ rest done : List (Token × Token), Token.Separate (done ++ rest) →
      (∀ t ∈ body.tokens, t.Named (done ++ rest)) →
      renameBody (body.renameAll done) rest = body.renameAll (done ++ rest) := by
    intro rest
    induction rest with
    | nil => intro done _ _; rw [List.append_nil]; rfl
    | cons pair rest ih =>
      intro done separate named
      have next : done ++ pair :: rest = (done ++ [pair]) ++ rest := by simp
      have apart : Token.Apart done pair.1 := fun earlier member =>
        (List.pairwise_append.mp separate).2.2 earlier member pair List.mem_cons_self
      rw [next] at separate named ⊢
      have step : (body.renameAll done).replace pair.1 pair.2 = body.renameAll (done ++ [pair]) :=
        Expr.takesPass apart body done true (List.Subset.refl _) fun t member =>
          (named t member).mono (List.subset_append_left _ _)
      rw [← ih _ separate named, ← step]
      rfl
  have whole := folded pairs [] separate named
  rwa [Expr.renameAll, Expr.renameIn_nil, List.nil_append] at whole

section

variable {P : Token → Prop} {handles visible : List (Token × Token)}
  (given : ∀ pair ∈ handles, P pair.2)

include given

theorem Token.renamedBy_of_forall {t : Token} (sub : visible ⊆ handles) (holds : P t) :
    P (t.renamedBy handles visible) := by
  unfold renamedBy
  split
  next pair found => exact given pair (site_of_find? found).1
  next =>
    split
    next pair found => exact given pair (sub (lexeme_of_find? found).1)
    next => exact holds

theorem Token.reboundBy_of_forall {t : Token} (holds : P t) : P (t.reboundBy handles) := by
  unfold reboundBy
  split
  next pair found => exact given pair (site_of_find? found).1
  next => exact holds

theorem Expr.tokensOfBindings_renameBindings {bs : List (Token × Expr)}
    (each : ∀ b ∈ bs, ∀ visible, visible ⊆ handles → (∀ t ∈ b.2.tokens, P t) →
      ∀ t ∈ (renameIn handles visible b.2).tokens, P t)
    (sub : visible ⊆ handles) (holds : ∀ t ∈ tokensOfBindings bs, P t) :
    ∀ t ∈ tokensOfBindings (renameBindings handles visible bs), P t := by
  induction bs generalizing visible with
  | nil => exact fun _ member => nomatch member
  | cons b bs ih =>
    obtain ⟨t, e⟩ := b
    obtain ⟨first, rest⟩ := List.forall_mem_cons.mp each
    simp only [tokensOfBindings, List.forall_mem_cons, List.forall_mem_append] at holds
    have sub' := Token.remaining_subset_of sub [t]
    simp only [renameBindings, tokensOfBindings, List.forall_mem_cons, List.forall_mem_append]
    exact ⟨Token.reboundBy_of_forall given holds.1, first visible sub holds.2.1,
      ih rest sub' holds.2.2⟩

omit given in
theorem Expr.tokensOfArgs_renameArgs {es : List Expr}
    (each : ∀ e ∈ es, ∀ visible, visible ⊆ handles → (∀ t ∈ e.tokens, P t) →
      ∀ t ∈ (renameIn handles visible e).tokens, P t)
    (sub : visible ⊆ handles) (holds : ∀ t ∈ tokensOfArgs es, P t) :
    ∀ t ∈ tokensOfArgs (renameArgs handles visible es), P t := by
  induction es with
  | nil => exact fun _ member => nomatch member
  | cons e es ih =>
    obtain ⟨first, rest⟩ := List.forall_mem_cons.mp each
    simp only [tokensOfArgs, List.forall_mem_append] at holds
    simp only [renameArgs, tokensOfArgs, List.forall_mem_append]
    exact ⟨first visible sub holds.1, ih rest holds.2⟩

theorem Expr.tokens_renameIn (e : Expr) (visible : List (Token × Token)) (sub : visible ⊆ handles)
    (holds : ∀ t ∈ e.tokens, P t) : ∀ t ∈ (renameIn handles visible e).tokens, P t := by
  induction e using Expr.induction generalizing visible with
  | literal v => exact holds
  | unary op t e operand =>
    simp only [tokens, List.forall_mem_cons] at holds
    exact List.forall_mem_cons.mpr ⟨holds.1, operand visible sub holds.2⟩
  | binary op t l r left right =>
    simp only [tokens, List.forall_mem_cons, List.forall_mem_append] at holds
    simp only [renameIn, tokens, List.forall_mem_cons, List.forall_mem_append]
    exact ⟨holds.1, left visible sub holds.2.1, right visible sub holds.2.2⟩
  | cond c y n i j condition yes no =>
    simp only [tokens, List.forall_mem_append] at holds
    simp only [renameIn, tokens, List.forall_mem_append]
    exact ⟨condition visible sub holds.1, yes visible sub holds.2.1, no visible sub holds.2.2⟩
  | letIn bs e bindings body =>
    simp only [tokens, List.forall_mem_append] at holds
    have sub' := Token.remaining_subset_of sub (bs.map Prod.fst)
    simp only [renameIn, tokens, List.forall_mem_append]
    exact ⟨tokensOfBindings_renameBindings given (fun b member visible => bindings b member visible)
      sub holds.1, body _ sub' holds.2⟩
  | var t =>
    exact List.forall_mem_cons.mpr
      ⟨Token.renamedBy_of_forall given sub (holds t List.mem_cons_self), fun _ member => nomatch member⟩
  | function t ps e body =>
    simp only [tokens, List.forall_mem_cons, List.forall_mem_append] at holds
    have sub' := Token.remaining_subset_of sub ps
    simp only [renameIn, tokens, List.forall_mem_cons, List.forall_mem_append, List.forall_mem_map]
    exact ⟨holds.1, fun p member => Token.reboundBy_of_forall given (holds.2.1 p member),
      body _ sub' holds.2.2⟩
  | call t es args =>
    simp only [tokens, List.forall_mem_cons] at holds
    exact List.forall_mem_cons.mpr ⟨holds.1,
      tokensOfArgs_renameArgs (fun e member visible => args e member visible) sub holds.2⟩

end

namespace Token

structure Ordinary (handles : List (Token × Token)) (t : Token) : Prop where
  plain : Plain t.lexeme
  unshared : ∀ pair ∈ handles, t.site ≠ pair.1.site

def standIn? (visible : List (Token × Token)) (name : String) : Option Token :=
  (visible.find? fun pair => name == pair.1.lexeme).map Prod.snd

variable {handles visible : List (Token × Token)} {t f : Token} {name : String}

theorem standIn?_mem (found : standIn? visible name = some f) :
    ∃ pair ∈ visible, pair.1.lexeme = name ∧ pair.2 = f := by
  obtain ⟨pair, hit, rfl⟩ := Option.map_eq_some_iff.mp found
  have same := List.find?_some hit
  exact ⟨pair, List.mem_of_find?_eq_some hit, (beq_iff_eq.mp same).symm, rfl⟩

namespace Ordinary

theorem find?_site (ordinary : t.Ordinary handles) :
    handles.find? (fun pair => t.sameSite pair.1) = none := by
  rw [List.find?_eq_none]
  intro pair member same
  exact ordinary.unshared pair member (sameSite_iff.mp same)

theorem reboundBy (ordinary : t.Ordinary handles) : t.reboundBy handles = t := by
  rw [Token.reboundBy, ordinary.find?_site]

theorem renamedBy (ordinary : t.Ordinary handles) :
    t.renamedBy handles visible = (standIn? visible t.lexeme).getD t := by
  rw [Token.renamedBy, ordinary.find?_site]
  show _ = ((visible.find? fun pair => t.sameLexeme pair.1).map Prod.snd).getD t
  cases visible.find? (fun pair => t.sameLexeme pair.1) <;> rfl

theorem standIn?_remaining (ordinary : t.Ordinary handles) (sub : visible ⊆ handles)
    (name : String) :
    standIn? (remaining visible [t]) name =
      if name = t.lexeme then none else standIn? visible name := by
  have kept : ∀ pair ∈ visible, (!([t].any pair.1.hides)) = (t.lexeme != pair.1.lexeme) := by
    intro pair member
    have site : t.sameSite pair.1 = false := by
      rw [Bool.eq_false_iff, ne_eq, sameSite_iff]
      exact ordinary.unshared pair (sub member)
    simp [hides, site, sameLexeme, bne]
  unfold standIn? remaining
  rw [List.filter_congr kept, List.find?_filter]
  by_cases hit : name = t.lexeme
  · rw [if_pos hit, List.find?_eq_none.mpr]
    · rfl
    · intro pair _
      by_cases same : t.lexeme = pair.1.lexeme <;> simp [hit, same]
  · rw [if_neg hit]
    congr 2
    funext pair
    by_cases same : name = pair.1.lexeme
    · have other : t.lexeme ≠ pair.1.lexeme := fun equal => hit (same.trans equal.symm)
      simp [same, other]
    · simp [same]

end Ordinary

end Token

namespace Expr

variable {handles visible : List (Token × Token)}

theorem map_reboundBy {ps : List Token} (ordinary : ∀ p ∈ ps, p.Ordinary handles) :
    ps.map (Token.reboundBy handles) = ps := by
  rw [List.map_congr_left fun p member => (ordinary p member).reboundBy]
  exact List.map_id' ps

end Expr

end LetLang
