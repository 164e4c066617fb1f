import LetLang.Expr.Printer
import LetLang.Proofs.Renaming.Resolution

/-!
# The places of a tree

A place is a variable, with the binders around it, or a binder. `Expr.relabel` gives each place of a
tree a token, and changes nothing else.
-/

namespace LetLang

inductive Place where
  /-- The binders that the variable is in the scope of, the nearest first. -/
  | var (name : Token) (scope : List Token)
  | binder (name : Token)

namespace Place

def token : Place → Token
  | var t _ | binder t => t

def relabel (f : Place → Token) : Place → Place
  | var t scope => var (f (var t scope)) (scope.map fun b => f (binder b))
  | binder t => binder (f (binder t))

theorem token_relabel (f : Place → Token) (p : Place) : (p.relabel f).token = f p := by
  cases p <;> rfl

def All (P : Token → Prop) : Place → Prop
  | var t scope => P t ∧ ∀ b ∈ scope, P b
  | binder t => P t

variable {P : Token → Prop} {p : Place}

theorem All.token (all : p.All P) : P p.token := by
  cases p with
  | var t scope => exact all.1
  | binder t => exact all

end Place

namespace Expr

mutual

def relabel (f : Place → Token) (scope : List Token) : Expr → Expr
  | literal v => literal v
  | unary op t e => unary op t (relabel f scope e)
  | binary op t l r => binary op t (relabel f scope l) (relabel f scope r)
  | cond c y n i j => cond (relabel f scope c) (relabel f scope y) (relabel f scope n) i j
  | letIn bs e =>
    letIn (relabelBindings f scope bs) (relabel f ((bs.map Prod.fst).reverse ++ scope) e)
  | var t => var (f (.var t scope))
  | function t ps e =>
    function t (ps.map fun p => f (.binder p)) (relabel f (ps.reverse ++ scope) e)
  | call t es => call t (relabelArgs f scope es)
termination_by structural e => e

def relabelBindings (f : Place → Token) (scope : List Token) :
    List (Token × Expr) → List (Token × Expr)
  | [] => []
  | (t, e) :: bs => (f (.binder t), relabel f scope e) :: relabelBindings f (t :: scope) bs
termination_by structural bs => bs

def relabelArgs (f : Place → Token) (scope : List Token) : List Expr → List Expr
  | [] => []
  | e :: es => relabel f scope e :: relabelArgs f scope es
termination_by structural es => es

end

mutual

def places (scope : List Token) : Expr → List Place
  | literal _ => []
  | unary _ _ e => places scope e
  | binary _ _ l r => places scope l ++ places scope r
  | cond c y n _ _ => places scope c ++ (places scope y ++ places scope n)
  | letIn bs e => placesOfBindings scope bs ++ places ((bs.map Prod.fst).reverse ++ scope) e
  | var t => [.var t scope]
  | function _ ps e => ps.map .binder ++ places (ps.reverse ++ scope) e
  | call _ es => placesOfArgs scope es
termination_by structural e => e

def placesOfBindings (scope : List Token) : List (Token × Expr) → List Place
  | [] => []
  | (t, e) :: bs => .binder t :: (places scope e ++ placesOfBindings (t :: scope) bs)
termination_by structural bs => bs

def placesOfArgs (scope : List Token) : List Expr → List Place
  | [] => []
  | e :: es => places scope e ++ placesOfArgs scope es
termination_by structural es => es

end

def names (e : Expr) : List Token := (e.places []).map Place.token

/-- All of a tree but its variables and binders. -/
def skeleton (e : Expr) : Expr := e.relabel (fun _ => default) []

section

variable {P : Token → Prop} {scope : List Token}

theorem all_placesOfBindings {bs : List (Token × Expr)}
    (each : ∀ b ∈ bs, ∀ scope, (∀ t ∈ b.2.tokens, P t) → (∀ t ∈ scope, P t) →
      ∀ p ∈ b.2.places scope, p.All P)
    (tokens : ∀ t ∈ tokensOfBindings bs, P t) (around : ∀ t ∈ scope, P t) :
    ∀ p ∈ placesOfBindings scope bs, p.All P := by
  induction bs generalizing scope with
  | nil => exact fun _ absent => nomatch absent
  | cons b bs ih =>
    obtain ⟨t, e⟩ := b
    obtain ⟨first, rest⟩ := List.forall_mem_cons.mp each
    simp only [tokensOfBindings, List.forall_mem_cons, List.forall_mem_append] at tokens
    obtain ⟨binder, value, others⟩ := tokens
    simp only [placesOfBindings, List.forall_mem_cons, List.forall_mem_append]
    exact ⟨binder, first scope value around,
      ih rest others (List.forall_mem_cons.mpr ⟨binder, around⟩)⟩

theorem all_placesOfArgs {es : List Expr}
    (each : ∀ e ∈ es, ∀ scope, (∀ t ∈ e.tokens, P t) → (∀ t ∈ scope, P t) →
      ∀ p ∈ e.places scope, p.All P)
    (tokens : ∀ t ∈ tokensOfArgs es, P t) (around : ∀ t ∈ scope, P t) :
    ∀ p ∈ placesOfArgs scope es, p.All P := by
  induction es with
  | nil => exact fun _ absent => nomatch absent
  | cons e es ih =>
    obtain ⟨first, rest⟩ := List.forall_mem_cons.mp each
    simp only [tokensOfArgs, List.forall_mem_append] at tokens
    simp only [placesOfArgs, List.forall_mem_append]
    exact ⟨first scope tokens.1 around, ih rest tokens.2⟩

theorem all_places (e : Expr) (scope : List Token) (tokens : ∀ t ∈ e.tokens, P t)
    (around : ∀ t ∈ scope, P t) : ∀ p ∈ e.places scope, p.All P := by
  induction e using Expr.induction generalizing scope with
  | literal v => exact fun _ absent => nomatch absent
  | unary op t e operand =>
    simp only [Expr.tokens, List.forall_mem_cons] at tokens
    exact operand scope tokens.2 around
  | binary op t l r left right =>
    simp only [Expr.tokens, List.forall_mem_cons, List.forall_mem_append] at tokens
    simp only [places, List.forall_mem_append]
    exact ⟨left scope tokens.2.1 around, right scope tokens.2.2 around⟩
  | cond c y n i j condition yes no =>
    simp only [Expr.tokens, List.forall_mem_append] at tokens
    simp only [places, List.forall_mem_append]
    exact ⟨condition scope tokens.1 around, yes scope tokens.2.1 around, no scope tokens.2.2 around⟩
  | letIn bs e bindings body =>
    simp only [Expr.tokens, List.forall_mem_append] at tokens
    have binders : ∀ t ∈ (bs.map Prod.fst).reverse, P t := fun t member =>
      forall_fst tokens.1 t (List.mem_reverse.mp member)
    simp only [places, List.forall_mem_append]
    exact ⟨all_placesOfBindings bindings tokens.1 around,
      body _ tokens.2 (List.forall_mem_append.mpr ⟨binders, around⟩)⟩
  | var t => exact List.forall_mem_singleton.mpr ⟨tokens t List.mem_cons_self, around⟩
  | function t ps e body =>
    simp only [Expr.tokens, List.forall_mem_cons, List.forall_mem_append] at tokens
    have binders : ∀ t ∈ ps.reverse, P t := fun t member =>
      tokens.2.1 t (List.mem_reverse.mp member)
    simp only [places, List.forall_mem_append, List.forall_mem_map]
    exact ⟨tokens.2.1, body _ tokens.2.2 (List.forall_mem_append.mpr ⟨binders, around⟩)⟩
  | call t es args =>
    simp only [Expr.tokens, List.forall_mem_cons] at tokens
    exact all_placesOfArgs args tokens.2 around

theorem forall_places {e : Expr} (tokens : ∀ t ∈ e.tokens, P t) : ∀ p ∈ e.places [], p.All P :=
  all_places e [] tokens fun _ absent => nomatch absent

end

variable {f g : Place → Token} {scope : List Token}

theorem map_fst_relabelBindings (f : Place → Token) (scope : List Token)
    (bs : List (Token × Expr)) :
    (relabelBindings f scope bs).map Prod.fst = (bs.map Prod.fst).map fun b => f (.binder b) := by
  induction bs generalizing scope with
  | nil => rfl
  | cons b bs ih =>
    obtain ⟨t, e⟩ := b
    rw [relabelBindings, List.map_cons, ih, List.map_cons, List.map_cons]

theorem map_scope (f : Place → Token) (scope binders : List Token) :
    (binders.map fun b => f (.binder b)).reverse ++ scope.map (fun b => f (.binder b)) =
      (binders.reverse ++ scope).map fun b => f (.binder b) := by
  rw [List.map_append, List.map_reverse]

theorem relabelBindings_token {bs : List (Token × Expr)}
    (each : ∀ b ∈ bs, ∀ scope, b.2.relabel Place.token scope = b.2) (scope : List Token) :
    relabelBindings Place.token scope bs = bs := by
  induction bs generalizing scope with
  | nil => rfl
  | cons b bs ih =>
    obtain ⟨t, e⟩ := b
    obtain ⟨first, rest⟩ := List.forall_mem_cons.mp each
    rw [relabelBindings, first scope, ih rest]
    rfl

theorem relabelArgs_token {es : List Expr}
    (each : ∀ e ∈ es, ∀ scope, e.relabel Place.token scope = e) (scope : List Token) :
    relabelArgs Place.token scope es = es := by
  induction es with
  | nil => rfl
  | cons e es ih =>
    obtain ⟨first, rest⟩ := List.forall_mem_cons.mp each
    rw [relabelArgs, first scope, ih rest]

theorem relabel_token (e : Expr) (scope : List Token) : e.relabel Place.token scope = e := by
  induction e using Expr.induction generalizing scope with
  | literal v => rfl
  | unary op t e operand => rw [relabel, operand]
  | binary op t l r left right => rw [relabel, left, right]
  | cond c y n i j condition yes no => rw [relabel, condition, yes, no]
  | letIn bs e bindings body => rw [relabel, relabelBindings_token bindings, body]
  | var t => rfl
  | function t ps e body =>
    rw [relabel, body]
    exact congrArg (function t · e) (List.map_id ps)
  | call t es args => rw [relabel, relabelArgs_token args]

def DeterminesLabels (f g : Place → Token) (e : Expr) : Prop :=
  ∀ scope, e.relabel f scope = e.relabel g scope ↔ ∀ p ∈ e.places scope, f p = g p

theorem relabelBindings_eq_iff {bs : List (Token × Expr)}
    (each : ∀ b ∈ bs, DeterminesLabels f g b.2) (scope : List Token) :
    relabelBindings f scope bs = relabelBindings g scope bs ↔
      ∀ p ∈ placesOfBindings scope bs, f p = g p := by
  induction bs generalizing scope with
  | nil => exact iff_of_true rfl fun _ absent => nomatch absent
  | cons b bs ih =>
    obtain ⟨t, e⟩ := b
    obtain ⟨first, rest⟩ := List.forall_mem_cons.mp each
    rw [relabelBindings, relabelBindings, List.cons.injEq, Prod.mk.injEq, first scope, ih rest,
      placesOfBindings, List.forall_mem_cons, List.forall_mem_append, and_assoc]

theorem relabelArgs_eq_iff {es : List Expr} (each : ∀ e ∈ es, DeterminesLabels f g e)
    (scope : List Token) :
    relabelArgs f scope es = relabelArgs g scope es ↔ ∀ p ∈ placesOfArgs scope es, f p = g p := by
  induction es with
  | nil => exact iff_of_true rfl fun _ absent => nomatch absent
  | cons e es ih =>
    obtain ⟨first, rest⟩ := List.forall_mem_cons.mp each
    rw [relabelArgs, relabelArgs, List.cons.injEq, first scope, ih rest, placesOfArgs,
      List.forall_mem_append]

theorem relabel_eq_iff (e : Expr) : DeterminesLabels f g e := by
  induction e using Expr.induction with
  | literal v => exact fun _ => iff_of_true rfl fun _ absent => nomatch absent
  | unary op t e operand =>
    intro scope
    simp only [relabel, places, unary.injEq, true_and, operand scope]
  | binary op t l r left right =>
    intro scope
    simp only [relabel, places, binary.injEq, true_and, left scope, right scope,
      List.forall_mem_append]
  | cond c y n i j condition yes no =>
    intro scope
    simp only [relabel, places, cond.injEq, and_true, condition scope, yes scope, no scope,
      List.forall_mem_append]
  | letIn bs e bindings body =>
    intro scope
    simp only [relabel, places, letIn.injEq, relabelBindings_eq_iff bindings, body _,
      List.forall_mem_append]
  | var t =>
    intro scope
    simp only [relabel, places, var.injEq, List.forall_mem_singleton]
  | function t ps e body =>
    intro scope
    simp only [relabel, places, function.injEq, true_and, List.map_inj_left, body _,
      List.forall_mem_append, List.forall_mem_map]
  | call t es args =>
    intro scope
    simp only [relabel, places, call.injEq, true_and, relabelArgs_eq_iff args]

/-- The second labeling meets the places as the first one has left them. -/
def RelabelsTwice (f g : Place → Token) (e : Expr) : Prop :=
  ∀ scope, (e.relabel f scope).relabel g (scope.map fun b => f (.binder b)) =
    e.relabel (fun p => g (p.relabel f)) scope

theorem relabelBindings_relabelBindings {bs : List (Token × Expr)}
    (each : ∀ b ∈ bs, RelabelsTwice f g b.2) (scope : List Token) :
    relabelBindings g (scope.map fun b => f (.binder b)) (relabelBindings f scope bs) =
      relabelBindings (fun p => g (p.relabel f)) scope bs := by
  induction bs generalizing scope with
  | nil => rfl
  | cons b bs ih =>
    obtain ⟨t, e⟩ := b
    obtain ⟨first, rest⟩ := List.forall_mem_cons.mp each
    have behind := ih rest (t :: scope)
    rw [List.map_cons] at behind
    rw [relabelBindings, relabelBindings, relabelBindings, first scope, behind]
    rfl

theorem relabelArgs_relabelArgs {es : List Expr} (each : ∀ e ∈ es, RelabelsTwice f g e)
    (scope : List Token) :
    relabelArgs g (scope.map fun b => f (.binder b)) (relabelArgs f scope es) =
      relabelArgs (fun p => g (p.relabel f)) scope es := by
  induction es with
  | nil => rfl
  | cons e es ih =>
    obtain ⟨first, rest⟩ := List.forall_mem_cons.mp each
    rw [relabelArgs, relabelArgs, relabelArgs, first scope, ih rest]

theorem relabel_relabel (e : Expr) : RelabelsTwice f g e := by
  induction e using Expr.induction with
  | literal v => exact fun _ => rfl
  | unary op t e operand =>
    intro scope
    rw [relabel, relabel, relabel, operand]
  | binary op t l r left right =>
    intro scope
    rw [relabel, relabel, relabel, left, right]
  | cond c y n i j condition yes no =>
    intro scope
    rw [relabel, relabel, relabel, condition, yes, no]
  | letIn bs e bindings body =>
    intro scope
    rw [relabel, relabel, relabel, relabelBindings_relabelBindings bindings,
      map_fst_relabelBindings, map_scope, body]
  | var t => exact fun _ => rfl
  | function t ps e body =>
    intro scope
    rw [relabel, relabel, relabel, map_scope, body, List.map_map]
    rfl
  | call t es args =>
    intro scope
    rw [relabel, relabel, relabel, relabelArgs_relabelArgs args]

theorem skeleton_relabel (f : Place → Token) (e : Expr) : (e.relabel f []).skeleton = e.skeleton :=
  relabel_relabel e []

def RelabelsPlaces (f : Place → Token) (e : Expr) : Prop :=
  ∀ scope, (e.relabel f scope).places (scope.map fun b => f (.binder b)) =
    (e.places scope).map (Place.relabel f)

theorem placesOfBindings_relabelBindings {bs : List (Token × Expr)}
    (each : ∀ b ∈ bs, RelabelsPlaces f b.2) (scope : List Token) :
    placesOfBindings (scope.map fun b => f (.binder b)) (relabelBindings f scope bs) =
      (placesOfBindings scope bs).map (Place.relabel f) := by
  induction bs generalizing scope with
  | nil => rfl
  | cons b bs ih =>
    obtain ⟨t, e⟩ := b
    obtain ⟨first, rest⟩ := List.forall_mem_cons.mp each
    have behind := ih rest (t :: scope)
    rw [List.map_cons] at behind
    rw [relabelBindings, placesOfBindings, placesOfBindings, first scope, behind, List.map_cons,
      List.map_append]
    rfl

theorem placesOfArgs_relabelArgs {es : List Expr} (each : ∀ e ∈ es, RelabelsPlaces f e)
    (scope : List Token) :
    placesOfArgs (scope.map fun b => f (.binder b)) (relabelArgs f scope es) =
      (placesOfArgs scope es).map (Place.relabel f) := by
  induction es with
  | nil => rfl
  | cons e es ih =>
    obtain ⟨first, rest⟩ := List.forall_mem_cons.mp each
    rw [relabelArgs, placesOfArgs, placesOfArgs, first scope, ih rest, List.map_append]

theorem places_relabel (e : Expr) : RelabelsPlaces f e := by
  induction e using Expr.induction with
  | literal v => exact fun _ => rfl
  | unary op t e operand =>
    intro scope
    rw [relabel, places, places, operand]
  | binary op t l r left right =>
    intro scope
    rw [relabel, places, places, left, right, List.map_append]
  | cond c y n i j condition yes no =>
    intro scope
    rw [relabel, places, places, condition, yes, no, List.map_append, List.map_append]
  | letIn bs e bindings body =>
    intro scope
    rw [relabel, places, places, placesOfBindings_relabelBindings bindings,
      map_fst_relabelBindings, map_scope, body, List.map_append]
  | var t => exact fun _ => rfl
  | function t ps e body =>
    intro scope
    rw [relabel, places, places, map_scope, body, List.map_append, List.map_map, List.map_map]
    rfl
  | call t es args =>
    intro scope
    rw [relabel, places, places, placesOfArgs_relabelArgs args]

theorem names_relabel (f : Place → Token) (e : Expr) :
    (e.relabel f []).names = (e.places []).map f := by
  have places : (e.relabel f []).places [] = (e.places []).map (Place.relabel f) :=
    places_relabel e []
  rw [names, places, List.map_map]
  exact List.map_congr_left fun p _ => p.token_relabel f

/-! ### Printing a relabeled tree -/

theorem isCompound_relabel (e : Expr) : (e.relabel f scope).isCompound = e.isCompound := by
  cases e <;> rfl

theorem isSigned_relabel (e : Expr) : (e.relabel f scope).isSigned = e.isSigned := by
  cases e <;> rfl

def PrintsLabels (f : Place → Token) (e : Expr) : Prop :=
  ∀ scope, (∀ p ∈ e.places scope, (f p).lexeme = p.token.lexeme) →
    (e.relabel f scope).print = e.print

theorem printBindings_relabelBindings {bs : List (Token × Expr)}
    (each : ∀ b ∈ bs, PrintsLabels f b.2)
    (same : ∀ p ∈ placesOfBindings scope bs, (f p).lexeme = p.token.lexeme) :
    printBindings (relabelBindings f scope bs) = printBindings bs := by
  induction bs generalizing scope with
  | nil => rfl
  | cons b bs ih =>
    obtain ⟨t, e⟩ := b
    obtain ⟨first, rest⟩ := List.forall_mem_cons.mp each
    simp only [placesOfBindings, List.forall_mem_cons, List.forall_mem_append] at same
    obtain ⟨binder, value, others⟩ := same
    rw [relabelBindings, printBindings, printBindings, binder, first scope value, ih rest others]
    rfl

theorem printArgs_relabelArgs {es : List Expr} (each : ∀ e ∈ es, PrintsLabels f e)
    (same : ∀ p ∈ placesOfArgs scope es, (f p).lexeme = p.token.lexeme) :
    printArgs (relabelArgs f scope es) = printArgs es := by
  induction es with
  | nil => rfl
  | cons e es ih =>
    obtain ⟨first, rest⟩ := List.forall_mem_cons.mp each
    simp only [placesOfArgs, List.forall_mem_append] at same
    rw [relabelArgs, printArgs, printArgs, first scope same.1, ih rest same.2]

theorem print_relabel (e : Expr) : PrintsLabels f e := by
  induction e using Expr.induction with
  | literal v => exact fun _ _ => rfl
  | unary op t e operand =>
    intro scope same
    rw [relabel, print, print, isSigned_relabel, isCompound_relabel, operand scope same]
  | binary op t l r left right =>
    intro scope same
    simp only [places, List.forall_mem_append] at same
    simp only [relabel, print, isCompound_relabel, left scope same.1, right scope same.2]
  | cond c y n i j condition yes no =>
    intro scope same
    simp only [places, List.forall_mem_append] at same
    simp only [relabel, print, isCompound_relabel, condition scope same.1, yes scope same.2.1,
      no scope same.2.2]
  | letIn bs e bindings body =>
    intro scope same
    simp only [places, List.forall_mem_append] at same
    rw [relabel, print, print, printBindings_relabelBindings bindings same.1, body _ same.2]
  | var t =>
    intro scope same
    exact same _ List.mem_cons_self
  | function t ps e body =>
    intro scope same
    simp only [places, List.forall_mem_append, List.forall_mem_map] at same
    have params : (ps.map fun p => f (.binder p)).map Token.lexeme = ps.map Token.lexeme := by
      rw [List.map_map]
      exact List.map_congr_left same.1
    rw [relabel, print, print, params, body _ same.2]
  | call t es args =>
    intro scope same
    rw [relabel, print, print, printArgs_relabelArgs args same]

end Expr

end LetLang
