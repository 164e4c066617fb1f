import LetLang.Proofs.Renaming.Simultaneous

/-!
# What variables stand for

A variable stands for the nearest binder of its name that has it in its scope, for a parameter, or
for nothing. Renaming all parameters at once changes none of this.
-/

namespace LetLang

/-- A binder is known by the way to its node, last step first, and its number there. -/
inductive Target where
  | binder (node : List Nat) (index : Nat)
  | parameter (index : Nat)
  | free (name : Token)
deriving DecidableEq

abbrev Names := String → Option Target

namespace Names

def bind (names : Names) (node : List Nat) (index : Nat) (t : Token) : Names := fun name =>
  if name = t.lexeme then some (.binder node index) else names name

def bindAll (names : Names) (node : List Nat) (index : Nat) : List Token → Names
  | [] => names
  | t :: ts => bindAll (names.bind node index t) node (index + 1) ts

def parameters (index : Nat) : List Token → Names
  | [] => fun _ => none
  | p :: ps => fun name =>
    if name = p.lexeme then some (.parameter index) else parameters (index + 1) ps name

def target (names : Names) (t : Token) : Target := (names t.lexeme).getD (.free t)

theorem parameters_of_eq (index : Nat) (p : Token) (ps : List Token) :
    parameters index (p :: ps) p.lexeme = some (.parameter index) := if_pos rfl

theorem parameters_of_ne {name : String} {p : Token} (other : name ≠ p.lexeme) (index : Nat)
    (ps : List Token) : parameters index (p :: ps) name = parameters (index + 1) ps name :=
  if_neg other

end Names

namespace Expr

mutual

/-- The variables of a tree, each with the way to it, and what they stand for. -/
def referents (node : List Nat) (names : Names) : Expr → List (List Nat × Target)
  | literal _ => []
  | unary _ _ e => referents (0 :: node) names e
  | binary _ _ l r => referents (0 :: node) names l ++ referents (1 :: node) names r
  | cond c y n _ _ =>
    referents (0 :: node) names c ++
      (referents (1 :: node) names y ++ referents (2 :: node) names n)
  | letIn bs e =>
    referentsOfBindings node 0 names bs ++
      referents (bs.length :: node) (names.bindAll node 0 (bs.map Prod.fst)) e
  | var t => [(node, names.target t)]
  | function _ ps e => referents (0 :: node) (names.bindAll node 0 ps) e
  | call _ es => referentsOfArgs node 0 names es
termination_by structural e => e

def referentsOfBindings (node : List Nat) (index : Nat) (names : Names) :
    List (Token × Expr) → List (List Nat × Target)
  | [] => []
  | (t, e) :: bs =>
    referents (index :: node) names e ++
      referentsOfBindings node (index + 1) (names.bind node index t) bs
termination_by structural bs => bs

def referentsOfArgs (node : List Nat) (index : Nat) (names : Names) :
    List Expr → List (List Nat × Target)
  | [] => []
  | e :: es => referents (index :: node) names e ++ referentsOfArgs node (index + 1) names es
termination_by structural es => es

end

mutual

/-- All of a tree but its variables. -/
def outline : Expr → Expr
  | literal v => literal v
  | unary op t e => unary op t e.outline
  | binary op t l r => binary op t l.outline r.outline
  | cond c y n i j => cond c.outline y.outline n.outline i j
  | letIn bs e => letIn (outlineBindings bs) e.outline
  | var _ => var default
  | function t ps e => function t ps e.outline
  | call t es => call t (outlineArgs es)
termination_by structural e => e

def outlineBindings : List (Token × Expr) → List (Token × Expr)
  | [] => []
  | (t, e) :: bs => (t, e.outline) :: outlineBindings bs
termination_by structural bs => bs

def outlineArgs : List Expr → List Expr
  | [] => []
  | e :: es => e.outline :: outlineArgs es
termination_by structural es => es

end

end Expr

def Declaration.referents (d : Declaration) : List (List Nat × Target) :=
  d.body.referents [] (.parameters 0 d.params)

open Token (standIn?)

/-- By a name of the program and by what takes its place, the same is meant. -/
structure Names.Agree (visible : List (Token × Token)) (names renamed : Names) : Prop where
  same : ∀ name, Plain name →
    names name = renamed (((standIn? visible name).map Token.lexeme).getD name)
  known : ∀ pair ∈ visible, (renamed pair.2.lexeme).isSome
  marked : ∀ pair ∈ visible, ¬ Plain pair.2.lexeme

namespace Names.Agree

variable {handles visible : List (Token × Token)} {names renamed : Names} {t : Token}

theorem target (agree : Agree visible names renamed) (ordinary : t.Ordinary handles) :
    renamed.target (t.renamedBy handles visible) = names.target t := by
  have same := agree.same t.lexeme ordinary.plain
  rw [ordinary.renamedBy, Names.target, Names.target, same]
  cases found : standIn? visible t.lexeme with
  | none => rfl
  | some f =>
    obtain ⟨pair, member, _, rfl⟩ := Token.standIn?_mem found
    obtain ⟨meant, bound⟩ := Option.isSome_iff_exists.mp (agree.known pair member)
    simp [bound]

theorem bind (agree : Agree visible names renamed) (sub : visible ⊆ handles)
    (ordinary : t.Ordinary handles) (node : List Nat) (index : Nat) :
    Agree (Token.remaining visible [t]) (names.bind node index t) (renamed.bind node index t) := by
  have other : ∀ pair ∈ visible, pair.2.lexeme ≠ t.lexeme := fun pair member same =>
    agree.marked pair member (same ▸ ordinary.plain)
  refine ⟨?_, ?_, fun pair member => agree.marked pair (Token.remaining_subset _ _ member)⟩
  · intro name plain
    rw [ordinary.standIn?_remaining sub]
    by_cases hit : name = t.lexeme
    · simp [Names.bind, hit]
    · rw [Names.bind, if_neg hit, if_neg hit, agree.same name plain, Names.bind, if_neg]
      cases found : standIn? visible name with
      | none => exact hit
      | some f =>
        obtain ⟨pair, member, _, rfl⟩ := Token.standIn?_mem found
        exact other pair member
  · intro pair member
    have member := Token.remaining_subset _ _ member
    rw [Names.bind, if_neg (other pair member)]
    exact agree.known pair member

theorem bindAll (agree : Agree visible names renamed) (sub : visible ⊆ handles) {ts : List Token}
    (ordinary : ∀ t ∈ ts, t.Ordinary handles) (node : List Nat) (index : Nat) :
    Agree (Token.remaining visible ts) (names.bindAll node index ts)
      (renamed.bindAll node index ts) := by
  induction ts generalizing visible names renamed index with
  | nil =>
    rw [Token.remaining_nil]
    exact agree
  | cons t ts ih =>
    obtain ⟨first, rest⟩ := List.forall_mem_cons.mp ordinary
    have sub' := Token.remaining_subset_of sub [t]
    rw [Token.remaining_cons]
    exact ih (agree.bind sub first node index) sub' rest (index + 1)

theorem parameters {pairs : List (Token × Token)} (index : Nat)
    (distinct : (pairs.map fun pair => pair.2.lexeme).Nodup)
    (marked : ∀ pair ∈ pairs, ¬ Plain pair.2.lexeme) :
    Agree pairs (.parameters index (pairs.map Prod.fst))
      (.parameters index (pairs.map Prod.snd)) := by
  induction pairs generalizing index with
  | nil => exact ⟨fun _ _ => rfl, (fun _ member => nomatch member), marked⟩
  | cons pair pairs ih =>
    obtain ⟨head, distinct⟩ := List.nodup_cons.mp distinct
    obtain ⟨here, others⟩ := List.forall_mem_cons.mp marked
    have rest := ih (index + 1) distinct others
    have other : ∀ next ∈ pairs, next.2.lexeme ≠ pair.2.lexeme := fun next member same =>
      head (List.mem_map.mpr ⟨next, member, same⟩)
    refine ⟨?_, ?_, marked⟩
    · intro name plain
      have next := rest.same name plain
      by_cases hit : name = pair.1.lexeme
      · have found : standIn? (pair :: pairs) name = some pair.2 := by simp [standIn?, hit]
        rw [found, hit, List.map_cons, List.map_cons, Names.parameters_of_eq]
        exact (Names.parameters_of_eq _ _ _).symm
      · have skipped : standIn? (pair :: pairs) name = standIn? pairs name := by
          simp [standIn?, hit]
        rw [List.map_cons, List.map_cons, Names.parameters_of_ne hit, next, skipped,
          Names.parameters_of_ne]
        cases found : standIn? pairs name with
        | none => exact fun same => here (same ▸ plain)
        | some f =>
          obtain ⟨next, member, _, rfl⟩ := Token.standIn?_mem found
          exact other next member
    · intro next member
      rcases List.mem_cons.mp member with rfl | later
      · rw [List.map_cons, Names.parameters_of_eq]
        rfl
      · rw [List.map_cons, Names.parameters_of_ne (other next later)]
        exact rest.known next later

end Names.Agree

namespace Expr

variable {handles visible : List (Token × Token)} {names renamed : Names}

theorem map_fst_renameBindings {bs : List (Token × Expr)}
    (ordinary : ∀ t ∈ tokensOfBindings bs, t.Ordinary handles) :
    (renameBindings handles visible bs).map Prod.fst = bs.map Prod.fst := by
  induction bs generalizing visible with
  | nil => rfl
  | cons b bs ih =>
    obtain ⟨t, e⟩ := b
    simp only [tokensOfBindings, List.forall_mem_cons, List.forall_mem_append] at ordinary
    obtain ⟨binder, _, others⟩ := ordinary
    rw [renameBindings, List.map_cons, List.map_cons, ih others, binder.reboundBy]

theorem length_renameBindings (bs : List (Token × Expr)) :
    (renameBindings handles visible bs).length = bs.length := by
  induction bs generalizing visible with
  | nil => rfl
  | cons b bs ih =>
    obtain ⟨t, e⟩ := b
    exact congrArg Nat.succ ih

theorem length_renameArgs (es : List Expr) :
    (renameArgs handles visible es).length = es.length := by
  induction es with
  | nil => rfl
  | cons e es ih => exact congrArg Nat.succ ih

theorem forall_fst {P : Token → Prop} {bs : List (Token × Expr)}
    (tokens : ∀ t ∈ tokensOfBindings bs, P t) : ∀ t ∈ bs.map Prod.fst, P t := by
  induction bs with
  | nil => exact fun _ member => nomatch member
  | cons b bs ih =>
    obtain ⟨t, e⟩ := b
    simp only [tokensOfBindings, List.forall_mem_cons, List.forall_mem_append] at tokens
    exact List.forall_mem_cons.mpr ⟨tokens.1, ih tokens.2.2⟩

def KeepsReferents (handles : List (Token × Token)) (e : Expr) : Prop :=
  ∀ visible names renamed node, visible ⊆ handles → Names.Agree visible names renamed →
    (∀ t ∈ e.tokens, t.Ordinary handles) →
      (renameIn handles visible e).referents node renamed = e.referents node names

theorem referents_renameBindings {bs : List (Token × Expr)}
    (each : ∀ b ∈ bs, KeepsReferents handles b.2) (sub : visible ⊆ handles)
    (agree : Names.Agree visible names renamed)
    (ordinary : ∀ t ∈ tokensOfBindings bs, t.Ordinary handles) (node : List Nat) (index : Nat) :
    referentsOfBindings node index renamed (renameBindings handles visible bs) =
      referentsOfBindings node index names bs := by
  induction bs generalizing visible names renamed index with
  | nil => rfl
  | cons b bs ih =>
    obtain ⟨t, e⟩ := b
    obtain ⟨first, rest⟩ := List.forall_mem_cons.mp each
    simp only [tokensOfBindings, List.forall_mem_cons, List.forall_mem_append] at ordinary
    obtain ⟨binder, value, others⟩ := ordinary
    have sub' := Token.remaining_subset_of sub [t]
    simp only [renameBindings, referentsOfBindings, binder.reboundBy,
      first visible names renamed (index :: node) sub agree value,
      ih rest sub' (agree.bind sub binder node index) others (index + 1)]

theorem referents_renameArgs {es : List Expr} (each : ∀ e ∈ es, KeepsReferents handles e)
    (sub : visible ⊆ handles) (agree : Names.Agree visible names renamed)
    (ordinary : ∀ t ∈ tokensOfArgs es, t.Ordinary handles) (node : List Nat) (index : Nat) :
    referentsOfArgs node index renamed (renameArgs handles visible es) =
      referentsOfArgs node index names es := by
  induction es generalizing index with
  | nil => rfl
  | cons e es ih =>
    obtain ⟨first, rest⟩ := List.forall_mem_cons.mp each
    simp only [tokensOfArgs, List.forall_mem_append] at ordinary
    simp only [renameArgs, referentsOfArgs,
      first visible names renamed (index :: node) sub agree ordinary.1,
      ih rest ordinary.2 (index + 1)]

theorem keepsReferents (e : Expr) : KeepsReferents handles e := by
  induction e using Expr.induction with
  | literal v => exact fun _ _ _ _ _ _ _ => rfl
  | unary op t e operand =>
    intro visible names renamed node sub agree ordinary
    simp only [tokens, List.forall_mem_cons] at ordinary
    exact operand visible names renamed (0 :: node) sub agree ordinary.2
  | binary op t l r left right =>
    intro visible names renamed node sub agree ordinary
    simp only [tokens, List.forall_mem_cons, List.forall_mem_append] at ordinary
    simp only [renameIn, referents, left visible names renamed (0 :: node) sub agree ordinary.2.1,
      right visible names renamed (1 :: node) sub agree ordinary.2.2]
  | cond c y n i j condition yes no =>
    intro visible names renamed node sub agree ordinary
    simp only [tokens, List.forall_mem_append] at ordinary
    simp only [renameIn, referents, condition visible names renamed (0 :: node) sub agree ordinary.1,
      yes visible names renamed (1 :: node) sub agree ordinary.2.1,
      no visible names renamed (2 :: node) sub agree ordinary.2.2]
  | letIn bs e bindings body =>
    intro visible names renamed node sub agree ordinary
    simp only [tokens, List.forall_mem_append] at ordinary
    -- The values see the names from outside, each with the bindings in front of it.
    have sub' := Token.remaining_subset_of sub (bs.map Prod.fst)
    have inner := agree.bindAll sub (forall_fst ordinary.1) node 0
    simp only [renameIn, referents, map_fst_renameBindings ordinary.1, length_renameBindings,
      referents_renameBindings bindings sub agree ordinary.1 node 0,
      body _ _ _ (bs.length :: node) sub' inner ordinary.2]
  | var t =>
    intro visible names renamed node _ agree ordinary
    rw [renameIn, referents, referents, agree.target (ordinary t List.mem_cons_self)]
  | function t ps e body =>
    intro visible names renamed node sub agree ordinary
    simp only [tokens, List.forall_mem_cons, List.forall_mem_append] at ordinary
    have sub' := Token.remaining_subset_of sub ps
    have inner := agree.bindAll sub ordinary.2.1 node 0
    simp only [renameIn, referents, map_reboundBy ordinary.2.1,
      body _ _ _ (0 :: node) sub' inner ordinary.2.2]
  | call t es args =>
    intro visible names renamed node sub agree ordinary
    simp only [tokens, List.forall_mem_cons] at ordinary
    exact referents_renameArgs args sub agree ordinary.2 node 0

theorem outline_renameBindings {bs : List (Token × Expr)}
    (each : ∀ b ∈ bs, ∀ visible, (∀ t ∈ b.2.tokens, t.Ordinary handles) →
      (renameIn handles visible b.2).outline = b.2.outline)
    (ordinary : ∀ t ∈ tokensOfBindings bs, t.Ordinary handles) (visible : List (Token × Token)) :
    outlineBindings (renameBindings handles visible bs) = outlineBindings bs := by
  induction bs generalizing visible with
  | nil => rfl
  | cons b bs ih =>
    obtain ⟨t, e⟩ := b
    obtain ⟨first, rest⟩ := List.forall_mem_cons.mp each
    simp only [tokensOfBindings, List.forall_mem_cons, List.forall_mem_append] at ordinary
    obtain ⟨binder, value, others⟩ := ordinary
    simp only [renameBindings, outlineBindings, binder.reboundBy, first visible value,
      ih rest others]

theorem outline_renameArgs {es : List Expr}
    (each : ∀ e ∈ es, ∀ visible, (∀ t ∈ e.tokens, t.Ordinary handles) →
      (renameIn handles visible e).outline = e.outline)
    (ordinary : ∀ t ∈ tokensOfArgs es, t.Ordinary handles) (visible : List (Token × Token)) :
    outlineArgs (renameArgs handles visible es) = outlineArgs es := by
  induction es with
  | nil => rfl
  | cons e es ih =>
    obtain ⟨first, rest⟩ := List.forall_mem_cons.mp each
    simp only [tokensOfArgs, List.forall_mem_append] at ordinary
    simp only [renameArgs, outlineArgs, first visible ordinary.1, ih rest ordinary.2]

theorem outline_renameIn (e : Expr) (visible : List (Token × Token))
    (ordinary : ∀ t ∈ e.tokens, t.Ordinary handles) :
    (renameIn handles visible e).outline = e.outline := by
  induction e using Expr.induction generalizing visible with
  | literal v => rfl
  | unary op t e operand =>
    simp only [tokens, List.forall_mem_cons] at ordinary
    simp only [renameIn, outline, operand visible ordinary.2]
  | binary op t l r left right =>
    simp only [tokens, List.forall_mem_cons, List.forall_mem_append] at ordinary
    simp only [renameIn, outline, left visible ordinary.2.1, right visible ordinary.2.2]
  | cond c y n i j condition yes no =>
    simp only [tokens, List.forall_mem_append] at ordinary
    simp only [renameIn, outline, condition visible ordinary.1, yes visible ordinary.2.1,
      no visible ordinary.2.2]
  | letIn bs e bindings body =>
    simp only [tokens, List.forall_mem_append] at ordinary
    have values : ∀ b ∈ bs, ∀ visible, (∀ t ∈ b.2.tokens, t.Ordinary handles) →
        (renameIn handles visible b.2).outline = b.2.outline :=
      fun b member visible => bindings b member visible
    simp only [renameIn, outline, outline_renameBindings values ordinary.1,
      body _ ordinary.2]
  | var t => rfl
  | function t ps e body =>
    simp only [tokens, List.forall_mem_cons, List.forall_mem_append] at ordinary
    simp only [renameIn, outline, map_reboundBy ordinary.2.1, body _ ordinary.2.2]
  | call t es args =>
    simp only [tokens, List.forall_mem_cons] at ordinary
    have each : ∀ e ∈ es, ∀ visible, (∀ t ∈ e.tokens, t.Ordinary handles) →
        (renameIn handles visible e).outline = e.outline :=
      fun e member visible => args e member visible
    simp only [renameIn, outline, outline_renameArgs each ordinary.2]

end Expr

end LetLang
