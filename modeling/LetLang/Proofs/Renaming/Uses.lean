import Mathlib.Data.List.Forall2
import LetLang.Proofs.Renaming.Resolution

/-!
# Variables and the binders around them

`Expr.uses` lists the variables of a tree, each with all binders that it is in the scope of. The
nearest one of its name is what it stands for, as `Expr.referents` says too.
-/

namespace LetLang

/-- A binder, and its place: the way to its node, last step first, and its number there. -/
structure Binder where
  token : Token
  node : List Nat
  index : Nat

namespace Binder

def place (b : Binder) : List Nat × Nat := (b.node, b.index)

def enter (scope : List Binder) (node : List Nat) (index : Nat) : List Token → List Binder
  | [] => scope
  | t :: ts => enter (⟨t, node, index⟩ :: scope) node (index + 1) ts

end Binder

/-- A variable, the way to it, and the binders that it is in the scope of, the nearest first. -/
structure Use where
  node : List Nat
  name : Token
  scope : List Binder

namespace Use

def binder? (u : Use) : Option Binder := u.scope.find? fun b => b.token.sameLexeme u.name

def bound? (u : Use) : Option (List Nat × Nat) := u.binder?.map Binder.place

end Use

namespace Expr

mutual

def uses (node : List Nat) (scope : List Binder) : Expr → List Use
  | literal _ => []
  | unary _ _ e => uses (0 :: node) scope e
  | binary _ _ l r => uses (0 :: node) scope l ++ uses (1 :: node) scope r
  | cond c y n _ _ =>
    uses (0 :: node) scope c ++ (uses (1 :: node) scope y ++ uses (2 :: node) scope n)
  | letIn bs e =>
    usesOfBindings node 0 scope bs ++
      uses (bs.length :: node) (Binder.enter scope node 0 (bs.map Prod.fst)) e
  | var t => [⟨node, t, scope⟩]
  | function _ ps e => uses (0 :: node) (Binder.enter scope node 0 ps) e
  | call _ es => usesOfArgs node 0 scope es
termination_by structural e => e

def usesOfBindings (node : List Nat) (index : Nat) (scope : List Binder) :
    List (Token × Expr) → List Use
  | [] => []
  | (t, e) :: bs =>
    uses (index :: node) scope e ++ usesOfBindings node (index + 1) (⟨t, node, index⟩ :: scope) bs
termination_by structural bs => bs

def usesOfArgs (node : List Nat) (index : Nat) (scope : List Binder) : List Expr → List Use
  | [] => []
  | e :: es => uses (index :: node) scope e ++ usesOfArgs node (index + 1) scope es
termination_by structural es => es

end

end Expr

/-- What the variable stands for, where `outer` says what the names of no binder stand for. -/
def Use.target (outer : Names) (u : Use) : Target :=
  match u.binder? with
  | some b => .binder b.node b.index
  | none => outer.target u.name

namespace Binder

def names (outer : Names) : List Binder → Names
  | [] => outer
  | b :: scope => (names outer scope).bind b.node b.index b.token

theorem names_enter (outer : Names) (scope : List Binder) (node : List Nat) (index : Nat)
    (ts : List Token) :
    names outer (enter scope node index ts) = (names outer scope).bindAll node index ts := by
  induction ts generalizing scope index with
  | nil => rfl
  | cons t ts ih => exact ih _ _

theorem target_names (outer : Names) (node : List Nat) (t : Token) (scope : List Binder) :
    (names outer scope).target t = Use.target outer ⟨node, t, scope⟩ := by
  unfold Names.target Use.target Use.binder?
  induction scope with
  | nil => rfl
  | cons b scope ih =>
    by_cases hit : b.token.lexeme = t.lexeme
    · simp [names, Names.bind, Token.sameLexeme, hit]
    · simpa [names, Names.bind, Token.sameLexeme, hit, Ne.symm hit] using ih

end Binder

namespace Expr

def MeansNearest (outer : Names) (e : Expr) : Prop :=
  ∀ node scope, e.referents node (Binder.names outer scope) =
    (e.uses node scope).map fun u => (u.node, u.target outer)

variable {outer : Names}

theorem referentsOfBindings_eq {bs : List (Token × Expr)}
    (each : ∀ b ∈ bs, MeansNearest outer b.2) (node : List Nat) (index : Nat)
    (scope : List Binder) :
    referentsOfBindings node index (Binder.names outer scope) bs =
      (usesOfBindings node index scope bs).map fun u => (u.node, u.target outer) := by
  induction bs generalizing index scope with
  | nil => rfl
  | cons b bs ih =>
    obtain ⟨t, e⟩ := b
    obtain ⟨first, rest⟩ := List.forall_mem_cons.mp each
    rw [referentsOfBindings, usesOfBindings, List.map_append, ← ih rest, ← first]
    rfl

theorem referentsOfArgs_eq {es : List Expr} (each : ∀ e ∈ es, MeansNearest outer e)
    (node : List Nat) (index : Nat) (scope : List Binder) :
    referentsOfArgs node index (Binder.names outer scope) es =
      (usesOfArgs node index scope es).map fun u => (u.node, u.target outer) := by
  induction es generalizing index with
  | nil => rfl
  | cons e es ih =>
    obtain ⟨first, rest⟩ := List.forall_mem_cons.mp each
    rw [referentsOfArgs, usesOfArgs, List.map_append, ← ih rest, ← first]

/-- What `referents` says of a variable is what the scope of its use says. -/
theorem referents_eq_uses (e : Expr) : MeansNearest outer e := by
  induction e using Expr.induction with
  | literal v => exact fun _ _ => rfl
  | unary op t e operand => exact fun node scope => operand (0 :: node) scope
  | binary op t l r left right =>
    intro node scope
    rw [referents, uses, List.map_append, left, right]
  | cond c y n i j condition yes no =>
    intro node scope
    rw [referents, uses, List.map_append, List.map_append, condition, yes, no]
  | letIn bs e bindings body =>
    intro node scope
    rw [referents, uses, List.map_append, referentsOfBindings_eq bindings, ← Binder.names_enter,
      body]
  | var t =>
    intro node scope
    rw [referents, Binder.target_names outer node]
    rfl
  | function t ps e body =>
    intro node scope
    rw [referents, uses, ← Binder.names_enter, body]
  | call t es args => exact fun node scope => referentsOfArgs_eq args node 0 scope

end Expr

def Target.place? : Target → Option (List Nat × Nat)
  | binder node index => some (node, index)
  | _ => none

theorem Names.place?_target_parameters (index : Nat) (ps : List Token) (t : Token) :
    ((parameters index ps).target t).place? = none := by
  rw [target]
  induction ps generalizing index with
  | nil => rfl
  | cons p ps ih =>
    by_cases hit : t.lexeme = p.lexeme
    · rw [hit, parameters_of_eq]
      rfl
    · rw [parameters_of_ne hit]
      exact ih (index + 1)

theorem Use.place?_target (ps : List Token) (u : Use) :
    (u.target (.parameters 0 ps)).place? = u.bound? := by
  unfold target bound?
  cases u.binder? with
  | some b => rfl
  | none => exact Names.place?_target_parameters 0 ps u.name

theorem Declaration.places_referents (d : Declaration) :
    d.referents.map (Prod.map id Target.place?) =
      (d.body.uses [] []).map fun u => (u.node, u.bound?) := by
  have means : d.referents = _ := Expr.referents_eq_uses d.body [] []
  rw [means, List.map_map]
  exact List.map_congr_left fun u _ => congrArg (u.node, ·) (u.place?_target d.params)

/-- If all variables of two declarations stand for the same, they are bound at the same places. -/
theorem Declaration.bound?_of_referents {d other : Declaration}
    (same : other.referents = d.referents) :
    List.Forall₂ (fun u u' => u'.node = u.node ∧ u'.bound? = u.bound?) (d.body.uses [] [])
      (other.body.uses [] []) := by
  have places := congrArg (List.map (Prod.map id Target.place?)) same
  rw [places_referents, places_referents, ← List.forall₂_eq_eq_eq, List.forall₂_map_left_iff,
    List.forall₂_map_right_iff] at places
  exact (places.imp fun _ _ => Prod.mk.inj).flip

/-- The places of a scope are different, and all of them come before binder `index` of the node. -/
structure Binder.Before (scope : List Binder) (node : List Nat) (index : Nat) : Prop where
  distinct : (scope.map place).Nodup
  outer : ∀ b ∈ scope,
    b.node.length < node.length ∨ b.node.length = node.length ∧ b.index < index

namespace Expr

section

variable {P : Token → Prop} {Q : List Nat → Nat → List Binder → Prop} {e : Expr}
  {scope : List Binder} {node : List Nat} {index : Nat}

/-- A condition on scopes that goes from a node to its children, and that one more binder with `P`
keeps. -/
structure Inherited (P : Token → Prop) (Q : List Nat → Nat → List Binder → Prop) : Prop where
  child : ∀ node index scope i, Q node index scope → Q (i :: node) 0 scope
  push : ∀ node index scope t, P t → Q node index scope →
    Q node (index + 1) (⟨t, node, index⟩ :: scope)

theorem Inherited.enter (inherited : Inherited P Q) {ts : List Token} (tokens : ∀ t ∈ ts, P t)
    (here : Q node index scope) :
    Q node (index + ts.length) (Binder.enter scope node index ts) := by
  induction ts generalizing index scope with
  | nil => exact here
  | cons t ts ih =>
    obtain ⟨first, rest⟩ := List.forall_mem_cons.mp tokens
    rw [Binder.enter, List.length_cons, Nat.add_comm ts.length, ← Nat.add_assoc]
    exact ih rest (inherited.push node index scope t first here)

def UsesHave (P : Token → Prop) (Q : List Nat → Nat → List Binder → Prop) (e : Expr) : Prop :=
  ∀ node scope, Q node 0 scope → (∀ t ∈ e.tokens, P t) →
    ∀ u ∈ e.uses node scope, P u.name ∧ Q u.node 0 u.scope

theorem Inherited.usesOfBindings (inherited : Inherited P Q) {bs : List (Token × Expr)}
    (each : ∀ b ∈ bs, UsesHave P Q b.2) (here : Q node index scope)
    (tokens : ∀ t ∈ tokensOfBindings bs, P t) :
    ∀ u ∈ usesOfBindings node index scope bs, P u.name ∧ Q u.node 0 u.scope := by
  induction bs generalizing index scope with
  | nil => exact fun _ absent => nomatch absent
  | cons b bs ih =>
    obtain ⟨t, e⟩ := b
    obtain ⟨first, rest⟩ := List.forall_mem_cons.mp each
    simp only [tokensOfBindings, List.forall_mem_cons, List.forall_mem_append] at tokens
    obtain ⟨binder, value, others⟩ := tokens
    rw [Expr.usesOfBindings, List.forall_mem_append]
    exact ⟨first _ _ (inherited.child _ _ _ index here) value,
      ih rest (inherited.push _ _ _ t binder here) others⟩

theorem Inherited.usesOfArgs (inherited : Inherited P Q) {es : List Expr}
    (each : ∀ e ∈ es, UsesHave P Q e) (here : Q node 0 scope)
    (tokens : ∀ t ∈ tokensOfArgs es, P t) :
    ∀ u ∈ usesOfArgs node index scope es, P u.name ∧ Q u.node 0 u.scope := by
  induction es generalizing index with
  | nil => exact fun _ absent => nomatch absent
  | cons e es ih =>
    obtain ⟨first, rest⟩ := List.forall_mem_cons.mp each
    simp only [tokensOfArgs, List.forall_mem_append] at tokens
    rw [Expr.usesOfArgs, List.forall_mem_append]
    exact ⟨first _ _ (inherited.child _ _ _ index here) tokens.1, ih rest tokens.2⟩

theorem Inherited.uses (inherited : Inherited P Q) (e : Expr) : UsesHave P Q e := by
  induction e using Expr.induction with
  | literal v => exact fun _ _ _ _ _ absent => nomatch absent
  | unary op t e operand =>
    intro node scope here tokens
    simp only [Expr.tokens, List.forall_mem_cons] at tokens
    exact operand _ _ (inherited.child _ _ _ 0 here) tokens.2
  | binary op t l r left right =>
    intro node scope here tokens
    simp only [Expr.tokens, List.forall_mem_cons, List.forall_mem_append] at tokens
    rw [Expr.uses, List.forall_mem_append]
    exact ⟨left _ _ (inherited.child _ _ _ 0 here) tokens.2.1,
      right _ _ (inherited.child _ _ _ 1 here) tokens.2.2⟩
  | cond c y n i j condition yes no =>
    intro node scope here tokens
    simp only [Expr.tokens, List.forall_mem_append] at tokens
    rw [Expr.uses, List.forall_mem_append, List.forall_mem_append]
    exact ⟨condition _ _ (inherited.child _ _ _ 0 here) tokens.1,
      yes _ _ (inherited.child _ _ _ 1 here) tokens.2.1,
      no _ _ (inherited.child _ _ _ 2 here) tokens.2.2⟩
  | letIn bs e bindings body =>
    intro node scope here tokens
    simp only [Expr.tokens, List.forall_mem_append] at tokens
    have binders := forall_fst tokens.1
    rw [Expr.uses, List.forall_mem_append]
    exact ⟨inherited.usesOfBindings bindings here tokens.1,
      body _ _ (inherited.child _ _ _ _ (inherited.enter binders here)) tokens.2⟩
  | var t =>
    intro node scope here tokens u member
    obtain rfl := List.mem_singleton.mp member
    exact ⟨tokens t List.mem_cons_self, here⟩
  | function t ps e body =>
    intro node scope here tokens
    simp only [Expr.tokens, List.forall_mem_cons, List.forall_mem_append] at tokens
    exact body _ _ (inherited.child _ _ _ 0 (inherited.enter tokens.2.1 here)) tokens.2.2
  | call t es args =>
    intro node scope here tokens
    simp only [Expr.tokens, List.forall_mem_cons] at tokens
    exact inherited.usesOfArgs args here tokens.2

end

theorem inherited (P : Token → Prop) : Inherited P fun node index scope =>
    (∀ b ∈ scope, P b.token) ∧ Binder.Before scope node index where
  child node index scope i here := by
    refine ⟨here.1, here.2.distinct, fun b member => .inl ?_⟩
    have outer := here.2.outer b member
    rw [List.length_cons]
    omega
  push node index scope t binder here := by
    obtain ⟨tokens, distinct, outer⟩ := here
    refine ⟨List.forall_mem_cons.mpr ⟨binder, tokens⟩, List.nodup_cons.mpr ⟨?_, distinct⟩, ?_⟩
    · intro again
      obtain ⟨b, member, same⟩ := List.mem_map.mp again
      obtain ⟨node', index'⟩ : b.node = node ∧ b.index = index := Prod.mk.inj same
      have before := outer b member
      have length := congrArg List.length node'
      omega
    · refine List.forall_mem_cons.mpr ⟨.inr ⟨rfl, Nat.lt_succ_self index⟩, fun b member => ?_⟩
      have before := outer b member
      omega

end Expr

end LetLang
