import Mathlib.Data.List.Nodup
import LetLang.Proofs.Renaming.Hygiene

/-!
# Fresh tokens exchanged

Which fresh tokens a declaration is stored with depends on what was registered before it. Two stored
forms of one declaration differ by a map of tokens.
-/

namespace LetLang

namespace Expr

mutual

def mapVars (f : Token → Token) : Expr → Expr
  | literal v => literal v
  | unary op t e => unary op t (e.mapVars f)
  | binary op t l r => binary op t (l.mapVars f) (r.mapVars f)
  | cond c y n i j => cond (c.mapVars f) (y.mapVars f) (n.mapVars f) i j
  | letIn bs e => letIn (mapVarsOfBindings f bs) (e.mapVars f)
  | var t => var (f t)
  | function t ps e => function t (ps.map f) (e.mapVars f)
  | call t es => call t (mapVarsOfArgs f es)
termination_by structural e => e

def mapVarsOfBindings (f : Token → Token) : List (Token × Expr) → List (Token × Expr)
  | [] => []
  | (t, e) :: bs => (f t, e.mapVars f) :: mapVarsOfBindings f bs
termination_by structural bs => bs

def mapVarsOfArgs (f : Token → Token) : List Expr → List Expr
  | [] => []
  | e :: es => e.mapVars f :: mapVarsOfArgs f es
termination_by structural es => es

end

end Expr

def Token.SameTo (old : Token) (f : Token → Token) (t : Token) : Prop :=
  (f t).sameSite old = t.sameSite old ∧ (f t).sameLexeme old = t.sameLexeme old

namespace Token.SameTo

variable {old new t : Token} {f : Token → Token}

theorem reference (same : old.SameTo f t) (seen : Bool) :
    f (old.reference new seen t) = old.reference (f new) seen (f t) := by
  unfold Token.reference refersTo
  rw [same.1, same.2]
  split <;> rfl

theorem binder (same : old.SameTo f t) : f (old.binder new t) = old.binder (f new) (f t) := by
  unfold Token.binder
  rw [same.1]
  split <;> rfl

theorem hides (same : old.SameTo f t) : old.hides (f t) = old.hides t := by
  rw [Token.hides, Token.hides, same.1, same.2]

end Token.SameTo

namespace Expr

variable {f : Token → Token} {old new : Token}

theorem length_mapVarsOfArgs (es : List Expr) : (mapVarsOfArgs f es).length = es.length := by
  induction es with
  | nil => rfl
  | cons e es ih => exact congrArg Nat.succ ih

theorem mapVarsOfBindings_of_fixed {bs : List (Token × Expr)}
    (each : ∀ b ∈ bs, (∀ t ∈ b.2.tokens, f t = t) → b.2.mapVars f = b.2)
    (fixed : ∀ t ∈ tokensOfBindings bs, f t = t) : mapVarsOfBindings f bs = bs := by
  induction bs with
  | nil => rfl
  | cons b bs ih =>
    obtain ⟨t, e⟩ := b
    obtain ⟨first, rest⟩ := List.forall_mem_cons.mp each
    simp only [tokensOfBindings, List.forall_mem_cons, List.forall_mem_append] at fixed
    obtain ⟨binder, value, others⟩ := fixed
    simp only [mapVarsOfBindings, binder, first value, ih rest others]

theorem mapVarsOfArgs_of_fixed {es : List Expr}
    (each : ∀ e ∈ es, (∀ t ∈ e.tokens, f t = t) → e.mapVars f = e)
    (fixed : ∀ t ∈ tokensOfArgs es, f t = t) : mapVarsOfArgs f es = es := by
  induction es with
  | nil => rfl
  | cons e es ih =>
    obtain ⟨first, rest⟩ := List.forall_mem_cons.mp each
    simp only [tokensOfArgs, List.forall_mem_append] at fixed
    simp only [mapVarsOfArgs, first fixed.1, ih rest fixed.2]

theorem mapVars_of_fixed (e : Expr) (fixed : ∀ t ∈ e.tokens, f t = t) : e.mapVars f = e := by
  induction e using Expr.induction with
  | literal v => rfl
  | unary op t e operand =>
    simp only [tokens, List.forall_mem_cons] at fixed
    rw [mapVars, operand fixed.2]
  | binary op t l r left right =>
    simp only [tokens, List.forall_mem_cons, List.forall_mem_append] at fixed
    rw [mapVars, left fixed.2.1, right fixed.2.2]
  | cond c y n i j condition yes no =>
    simp only [tokens, List.forall_mem_append] at fixed
    rw [mapVars, condition fixed.1, yes fixed.2.1, no fixed.2.2]
  | letIn bs e bindings body =>
    simp only [tokens, List.forall_mem_append] at fixed
    rw [mapVars, mapVarsOfBindings_of_fixed bindings fixed.1, body fixed.2]
  | var t => rw [mapVars, fixed t List.mem_cons_self]
  | function t ps e body =>
    simp only [tokens, List.forall_mem_cons, List.forall_mem_append] at fixed
    have params : ps.map f = ps := (List.map_congr_left fixed.2.1).trans (List.map_id ps)
    rw [mapVars, params, body fixed.2.2]
  | call t es args =>
    simp only [tokens, List.forall_mem_cons] at fixed
    rw [mapVars, mapVarsOfArgs_of_fixed args fixed.2]

def Commutes (f : Token → Token) (old new : Token) (e : Expr) : Prop :=
  ∀ seen, (∀ t ∈ e.tokens, old.SameTo f t) →
    (replaceIn old new seen e).mapVars f = replaceIn old (f new) seen (e.mapVars f)

theorem any_hides_fst {bs : List (Token × Expr)} (same : ∀ t ∈ tokensOfBindings bs, old.SameTo f t) :
    (mapVarsOfBindings f bs).any (fun b => old.hides b.1) = bs.any (fun b => old.hides b.1) := by
  induction bs with
  | nil => rfl
  | cons b bs ih =>
    simp only [tokensOfBindings, List.forall_mem_cons, List.forall_mem_append] at same
    simp only [mapVarsOfBindings, List.any_cons, same.1.hides, ih same.2.2]

theorem any_hides {ps : List Token} (same : ∀ t ∈ ps, old.SameTo f t) :
    (ps.map f).any old.hides = ps.any old.hides := by
  induction ps with
  | nil => rfl
  | cons p ps ih =>
    obtain ⟨first, rest⟩ := List.forall_mem_cons.mp same
    simp only [List.map_cons, List.any_cons, first.hides, ih rest]

theorem mapVars_replaceBindings {bs : List (Token × Expr)}
    (each : ∀ b ∈ bs, Commutes f old new b.2) (seen : Bool)
    (same : ∀ t ∈ tokensOfBindings bs, old.SameTo f t) :
    mapVarsOfBindings f (replaceBindings old new seen bs) =
      replaceBindings old (f new) seen (mapVarsOfBindings f bs) := by
  induction bs generalizing seen with
  | nil => rfl
  | cons b bs ih =>
    obtain ⟨t, e⟩ := b
    obtain ⟨first, rest⟩ := List.forall_mem_cons.mp each
    simp only [tokensOfBindings, List.forall_mem_cons, List.forall_mem_append] at same
    obtain ⟨binder, value, others⟩ := same
    simp only [replaceBindings, mapVarsOfBindings, binder.binder, binder.hides, first seen value,
      ih rest _ others]

theorem mapVars_replaceArgs {es : List Expr} (each : ∀ e ∈ es, Commutes f old new e) (seen : Bool)
    (same : ∀ t ∈ tokensOfArgs es, old.SameTo f t) :
    mapVarsOfArgs f (replaceArgs old new seen es) =
      replaceArgs old (f new) seen (mapVarsOfArgs f es) := by
  induction es with
  | nil => rfl
  | cons e es ih =>
    obtain ⟨first, rest⟩ := List.forall_mem_cons.mp each
    simp only [tokensOfArgs, List.forall_mem_append] at same
    simp only [replaceArgs, mapVarsOfArgs, first seen same.1, ih rest same.2]

theorem commutes (f : Token → Token) (old new : Token) (e : Expr) : Commutes f old new e := by
  induction e using Expr.induction with
  | literal v => exact fun _ _ => rfl
  | unary op t e operand =>
    intro seen same
    simp only [tokens, List.forall_mem_cons] at same
    simp only [replaceIn, mapVars, operand seen same.2]
  | binary op t l r left right =>
    intro seen same
    simp only [tokens, List.forall_mem_cons, List.forall_mem_append] at same
    simp only [replaceIn, mapVars, left seen same.2.1, right seen same.2.2]
  | cond c y n i j condition yes no =>
    intro seen same
    simp only [tokens, List.forall_mem_append] at same
    simp only [replaceIn, mapVars, condition seen same.1, yes seen same.2.1, no seen same.2.2]
  | letIn bs e bindings body =>
    intro seen same
    simp only [tokens, List.forall_mem_append] at same
    simp only [replaceIn, mapVars, visibleBehind, any_hides_fst same.1,
      mapVars_replaceBindings bindings seen same.1, body _ same.2]
  | var t =>
    intro seen same
    simp only [replaceIn, mapVars, (same t List.mem_cons_self).reference]
  | function t ps e body =>
    intro seen same
    simp only [tokens, List.forall_mem_cons, List.forall_mem_append] at same
    obtain ⟨_, params, inside⟩ := same
    have binders : (ps.map (old.binder new)).map f = (ps.map f).map (old.binder (f new)) := by
      rw [List.map_map, List.map_map]
      exact List.map_congr_left fun p member => (params p member).binder
    simp only [replaceIn, mapVars, visibleUnder, any_hides params, binders, body _ inside]
  | call t es args =>
    intro seen same
    simp only [tokens, List.forall_mem_cons] at same
    simp only [replaceIn, mapVars, mapVars_replaceArgs args seen same.2]

variable {P : Token → Prop}

theorem tokens_replaceBindings (given : P new) {bs : List (Token × Expr)}
    (each : ∀ b ∈ bs, ∀ seen, (∀ t ∈ b.2.tokens, P t) → ∀ t ∈ (replaceIn old new seen b.2).tokens, P t)
    (seen : Bool) (all : ∀ t ∈ tokensOfBindings bs, P t) :
    ∀ t ∈ tokensOfBindings (replaceBindings old new seen bs), P t := by
  induction bs generalizing seen with
  | nil => exact all
  | cons b bs ih =>
    obtain ⟨t, e⟩ := b
    obtain ⟨first, rest⟩ := List.forall_mem_cons.mp each
    simp only [tokensOfBindings, List.forall_mem_cons, List.forall_mem_append] at all
    obtain ⟨binder, value, others⟩ := all
    simp only [replaceBindings, tokensOfBindings, List.forall_mem_cons, List.forall_mem_append]
    refine ⟨?_, first seen value, ih rest _ others⟩
    unfold Token.binder
    split
    · exact given
    · exact binder

theorem tokens_replaceArgs {es : List Expr}
    (each : ∀ e ∈ es, ∀ seen, (∀ t ∈ e.tokens, P t) → ∀ t ∈ (replaceIn old new seen e).tokens, P t)
    (seen : Bool) (all : ∀ t ∈ tokensOfArgs es, P t) :
    ∀ t ∈ tokensOfArgs (replaceArgs old new seen es), P t := by
  induction es with
  | nil => exact all
  | cons e es ih =>
    obtain ⟨first, rest⟩ := List.forall_mem_cons.mp each
    simp only [tokensOfArgs, List.forall_mem_append] at all
    simp only [replaceArgs, tokensOfArgs, List.forall_mem_append]
    exact ⟨first seen all.1, ih rest all.2⟩

theorem tokens_replaceIn (given : P new) (e : Expr) (seen : Bool) (all : ∀ t ∈ e.tokens, P t) :
    ∀ t ∈ (replaceIn old new seen e).tokens, P t := by
  induction e using Expr.induction generalizing seen with
  | literal v => exact all
  | unary op t e operand =>
    simp only [tokens, List.forall_mem_cons] at all
    simp only [replaceIn, tokens, List.forall_mem_cons]
    exact ⟨all.1, operand seen all.2⟩
  | binary op t l r left right =>
    simp only [tokens, List.forall_mem_cons, List.forall_mem_append] at all
    simp only [replaceIn, tokens, List.forall_mem_cons, List.forall_mem_append]
    exact ⟨all.1, left seen all.2.1, right seen all.2.2⟩
  | cond c y n i j condition yes no =>
    simp only [tokens, List.forall_mem_append] at all
    simp only [replaceIn, tokens, List.forall_mem_append]
    exact ⟨condition seen all.1, yes seen all.2.1, no seen all.2.2⟩
  | letIn bs e bindings body =>
    simp only [tokens, List.forall_mem_append] at all
    simp only [replaceIn, tokens, List.forall_mem_append]
    exact ⟨tokens_replaceBindings given bindings seen all.1, body _ all.2⟩
  | var t =>
    simp only [replaceIn, tokens, List.forall_mem_singleton]
    unfold Token.reference
    split
    · exact given
    · exact all t List.mem_cons_self
  | function t ps e body =>
    simp only [tokens, List.forall_mem_cons, List.forall_mem_append] at all
    simp only [replaceIn, tokens, List.forall_mem_cons, List.forall_mem_append]
    refine ⟨all.1, fun q member => ?_, body _ all.2.2⟩
    obtain ⟨p, present, rfl⟩ := List.mem_map.mp member
    unfold Token.binder
    split
    · exact given
    · exact all.2.1 p present
  | call t es args =>
    simp only [tokens, List.forall_mem_cons] at all
    simp only [replaceIn, tokens, List.forall_mem_cons]
    exact ⟨all.1, tokens_replaceArgs args seen all.2⟩

end Expr

/-! ### Two stored forms of a declaration -/

namespace Declaration

variable {f : Token → Token}

theorem mapVars_renameBody {ps fs : List Token} {e : Expr}
    (body : ∀ t ∈ e.tokens, ∀ p ∈ ps, p.SameTo f t) (fresh : ∀ t ∈ fs, ∀ p ∈ ps, p.SameTo f t) :
    (renameBody e (ps.zip fs)).mapVars f = renameBody (e.mapVars f) (ps.zip (fs.map f)) := by
  induction ps generalizing fs e with
  | nil => rfl
  | cons p ps ih =>
    cases fs with
    | nil => rfl
    | cons t fs =>
      obtain ⟨first, rest⟩ := List.forall_mem_cons.mp fresh
      have later : ∀ u, (∀ q ∈ p :: ps, q.SameTo f u) → ∀ q ∈ ps, q.SameTo f u :=
        fun u same q member => same q (List.mem_cons_of_mem p member)
      have replaced : ∀ u ∈ (e.replace p t).tokens, ∀ q ∈ p :: ps, q.SameTo f u :=
        Expr.tokens_replaceIn first e true body
      have pass : (e.replace p t).mapVars f = (e.mapVars f).replace p (f t) :=
        Expr.commutes f p t e true fun u member => body u member p List.mem_cons_self
      have next := ih (e := e.replace p t) (fun u member => later u (replaced u member))
        fun u member => later u (rest u member)
      rw [pass] at next
      exact next

theorem tokens_renameBody {P : Token → Prop} {ps fs : List Token} {e : Expr}
    (body : ∀ t ∈ e.tokens, P t) (fresh : ∀ t ∈ fs, P t) :
    ∀ t ∈ (renameBody e (ps.zip fs)).tokens, P t := by
  induction ps generalizing fs e with
  | nil => exact body
  | cons p ps ih =>
    cases fs with
    | nil => exact body
    | cons t fs =>
      obtain ⟨first, rest⟩ := List.forall_mem_cons.mp fresh
      exact ih (Expr.tokens_replaceIn first e true body) rest

end Declaration

def Token.exchange (pairs : List (Token × Token)) (t : Token) : Token := (pairs.lookup t).getD t

namespace Token

theorem exchange_of_notMem {ts us : List Token} {t : Token} (other : t ∉ ts) :
    exchange (ts.zip us) t = t := by
  induction ts generalizing us with
  | nil => rfl
  | cons u ts ih =>
    cases us with
    | nil => rfl
    | cons v us =>
      have different : (t == u) = false := beq_false_of_ne (List.ne_of_not_mem_cons other)
      have rest : exchange (ts.zip us) t = t := ih (List.not_mem_of_not_mem_cons other)
      unfold exchange at rest ⊢
      rw [List.zip_cons_cons, List.lookup_cons, different]
      exact rest

theorem map_exchange {ts us : List Token} (distinct : ts.Nodup) (length : ts.length = us.length) :
    ts.map (exchange (ts.zip us)) = us := by
  induction ts generalizing us with
  | nil =>
    cases us with
    | nil => rfl
    | cons u us => cases length
  | cons t ts ih =>
    cases us with
    | nil => cases length
    | cons u us =>
      obtain ⟨head, distinct⟩ := List.nodup_cons.mp distinct
      have first : exchange ((t :: ts).zip (u :: us)) t = u := by
        simp [exchange]
      have rest : ts.map (exchange ((t :: ts).zip (u :: us))) = ts.map (exchange (ts.zip us)) := by
        refine List.map_congr_left fun v member => ?_
        have different : (v == t) = false := beq_false_of_ne fun same => head (same ▸ member)
        unfold exchange
        rw [List.zip_cons_cons, List.lookup_cons, different]
      rw [List.map_cons, first, rest, ih distinct (Nat.succ.inj length)]

end Token

namespace Renamer

theorem new_freshTokens {d : Declaration} {r : Renamer} (spared : r.symbols.Spares d.arity d.params)
    {t : Token} (member : t ∈ r.freshTokens d.params) :
    ¬ Plain t.lexeme ∧ ∀ p ∈ d.params, t.site ≠ p.site := by
  refine ⟨?_, spares_iff.mp spared t member⟩
  obtain ⟨_, _, n, _, rfl⟩ := mem_freshTokens member
  exact not_plain_freshLexeme _ _

end Renamer

def Token.Known (f : Token → Token) (fresh : List Token) (t : Token) : Prop :=
  (Plain t.lexeme ∧ f t = t) ∨ t ∈ fresh

structure Token.Exchanges (f : Token → Token) (fresh : List Token) : Prop where
  marked : ∀ p ∈ fresh, ¬ Plain p.lexeme ∧ ¬ Plain (f p).lexeme
  alike : ∀ p ∈ fresh, ∀ q ∈ fresh, (f p).lexeme = (f q).lexeme ↔ p.lexeme = q.lexeme

namespace Declaration

/-- `twin` is `d` with the fresh tokens that `f` gives for those of `d`. -/
structure Twin (f : Token → Token) (d twin : Declaration) : Prop where
  params : twin.params = d.params.map f
  body : twin.body = d.body.mapVars f
  known : ∀ t ∈ d.body.tokens, t.Known f d.params
  exchanges : Token.Exchanges f d.params

/-- Whatever was registered before, what is stored for a declaration is the same up to an exchange
of fresh tokens. -/
theorem twin_renamed {d : Declaration} {r s : Renamer} (plain : ∀ t ∈ d.tokens, Plain t.lexeme)
    (spared : r.symbols.Spares d.arity d.params) (spared' : s.symbols.Spares d.arity d.params) :
    ∃ f, (d.renamed r).Twin f (d.renamed s) := by
  simp only [tokens, List.forall_mem_cons, List.forall_mem_append] at plain
  obtain ⟨_, params, body⟩ := plain
  have distinct := Renamer.nodup_lexemes_freshTokens r d.params
  have distinct' := Renamer.nodup_lexemes_freshTokens s d.params
  have length : (r.freshTokens d.params).length = (s.freshTokens d.params).length :=
    (Renamer.length_freshTokens r d.params).trans (Renamer.length_freshTokens s d.params).symm
  have new : ∀ t ∈ r.freshTokens d.params, ¬ Plain t.lexeme ∧ ∀ p ∈ d.params, t.site ≠ p.site :=
    fun t member => Renamer.new_freshTokens spared member
  have new' : ∀ t ∈ s.freshTokens d.params, ¬ Plain t.lexeme ∧ ∀ p ∈ d.params, t.site ≠ p.site :=
    fun t member => Renamer.new_freshTokens spared' member
  -- `f` gives each fresh token of `r` the one of `s`, and keeps all names without a mark.
  let f := Token.exchange ((r.freshTokens d.params).zip (s.freshTokens d.params))
  have mapped : (r.freshTokens d.params).map f = s.freshTokens d.params :=
    Token.map_exchange distinct.of_map length
  have fixed : ∀ t, Plain t.lexeme → f t = t := fun t plain =>
    Token.exchange_of_notMem fun member => (new t member).1 plain
  have reached : ∀ t ∈ r.freshTokens d.params, f t ∈ s.freshTokens d.params := fun t member =>
    mapped ▸ List.mem_map_of_mem member
  have same : ∀ t ∈ d.body.tokens, ∀ p ∈ d.params, p.SameTo f t := fun t member p _ => by
    rw [Token.SameTo, fixed t (body t member)]
    exact ⟨rfl, rfl⟩
  have apart : ∀ t : Token, ¬ Plain t.lexeme ∧ (∀ p ∈ d.params, t.site ≠ p.site) → ∀ p ∈ d.params,
      t.sameSite p = false ∧ t.sameLexeme p = false := fun t new p member =>
    ⟨beq_false_of_ne (new.2 p member), beq_false_of_ne fun same => new.1 (same ▸ params p member)⟩
  have fresh : ∀ t ∈ r.freshTokens d.params, ∀ p ∈ d.params, p.SameTo f t := fun t member p here => by
    obtain ⟨site, lexeme⟩ := apart t (new t member) p here
    obtain ⟨site', lexeme'⟩ := apart (f t) (new' (f t) (reached t member)) p here
    exact ⟨site'.trans site.symm, lexeme'.trans lexeme.symm⟩
  refine ⟨f, mapped.symm, ?_, ?_, ?_, ?_⟩
  · have whole := mapVars_renameBody same fresh
    rw [mapped, Expr.mapVars_of_fixed _ fun t member => fixed t (body t member)] at whole
    exact whole.symm
  · exact tokens_renameBody (fun t member => .inl ⟨body t member, fixed t (body t member)⟩)
      fun t member => .inr member
  · exact fun p member => ⟨(new p member).1, (new' (f p) (reached p member)).1⟩
  · rw [← mapped, List.map_map] at distinct'
    intro p here q there
    constructor
    · intro equal
      rw [List.inj_on_of_nodup_map distinct' here there equal]
    · intro equal
      rw [List.inj_on_of_nodup_map distinct here there equal]

end Declaration

end LetLang
