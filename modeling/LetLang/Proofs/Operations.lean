import LetLang.Environment

/-!
# Operations on an environment

An environment is worked on from outside, while a scanner takes tokens from the same supply. A name
that is bound when it is registered is declared and bound at once, and there is no other way to it.
-/

namespace LetLang

namespace Environment

inductive Operation where
  | set (t : Token) (v : Value)
  | remove (t : Token)
  | register (d : Declaration)
  | scan (names : Interner) (tokens : Nat)

def perform (env : Environment) : Operation → Environment
  | .set t v => (env.set t v).2
  | .remove t => (env.remove t).2
  | .register d => (env.register d).2
  | .scan names tokens =>
    { env with renamer := { env.renamer with
        symbols := ⟨names, env.renamer.symbols.nextSite + .ofNat tokens⟩ } }

def performAll (env : Environment) (ops : List Operation) : Environment := ops.foldl perform env

variable {env after : Environment} {d stored : Declaration}

theorem perform_set_of_free {t : Token} (free : env.isFunction t.lexeme = false) (v : Value) :
    env.perform (.set t v) = { env with bindings := env.bindings.push t.lexeme v } :=
  congrArg Prod.snd (set_of_free free v)

theorem perform_set_of_declared {t : Token} (declared : env.isFunction t.lexeme = true) (v : Value) :
    env.perform (.set t v) = env :=
  congrArg Prod.snd (set_of_declared declared v)

theorem bindings_perform_register (env : Environment) (d : Declaration) :
    (env.perform (.register d)).bindings = env.bindings := by
  rw [perform]
  rcases env.register_cases d with ⟨_, _, same⟩ | ⟨_, _, _, _, same⟩ | ⟨_, _, _, _, same⟩ <;> rw [same]

theorem functions_perform_register_of_error {f : Failure} (failed : (env.register d).1 = .error f) :
    (env.perform (.register d)).functions = env.functions := by
  rw [perform]
  rcases env.register_cases d with ⟨_, _, same⟩ | ⟨_, _, _, _, same⟩ | ⟨_, _, _, _, same⟩
  · rw [same]
  · rw [same]
  · rw [same] at failed
    cases failed

theorem functions_perform_register_of_ok (done : (env.register d).1 = .ok stored) :
    (env.perform (.register d)).functions = env.functions.insert d.key stored := by
  obtain ⟨_, renamer, _, same⟩ := register_eq_ok_iff.mp (Prod.ext done rfl)
  exact congrArg Environment.functions same

theorem perform_remove (env : Environment) (t : Token) :
    env.perform (.remove t) = env ∨ ∃ bindings, env.bindings.pop? t.lexeme = some bindings ∧
      env.perform (.remove t) = { env with bindings } := by
  cases popped : env.bindings.pop? t.lexeme with
  | none => exact .inl (congrArg Prod.snd (remove_of_unbound popped))
  | some bindings => exact .inr ⟨bindings, rfl, congrArg Prod.snd (remove_of_bound popped)⟩

def Clashes (env : Environment) (name : String) : Prop :=
  env.isFunction name = true ∧ 0 < env.bindingDepth name

theorem bindingDepth_pos_iff {name : String} :
    0 < env.bindingDepth name ↔ env.bindings.stack? name ≠ none := by
  unfold bindingDepth Variables.depth
  cases env.bindings.stack? name <;> simp [Stack.size]

theorem clashes_of_set {t : Token} {v : Value} {name : String}
    (clash : (env.perform (.set t v)).Clashes name) : env.Clashes name := by
  cases declared : env.isFunction t.lexeme with
  | true => rwa [perform_set_of_declared declared] at clash
  | false =>
    rw [perform_set_of_free declared] at clash
    obtain ⟨called, bound⟩ := clash
    have called : env.isFunction name = true := called
    have other : name ≠ t.lexeme := by
      rintro rfl
      exact Bool.false_ne_true (declared.symm.trans called)
    rw [bindingDepth_pos_iff, Variables.stack?_push, if_neg other] at bound
    exact ⟨called, bindingDepth_pos_iff.mpr bound⟩

theorem clashes_of_remove {t : Token} {name : String}
    (clash : (env.perform (.remove t)).Clashes name) : env.Clashes name := by
  rcases env.perform_remove t with same | ⟨bindings, popped, same⟩
  · rwa [same] at clash
  · rw [same] at clash
    refine ⟨clash.1, bindingDepth_pos_iff.mpr ?_⟩
    by_cases hit : name = t.lexeme
    · subst hit
      intro unbound
      exact nomatch (Variables.pop?_eq_none_iff.mpr unbound).symm.trans popped
    · rw [← Variables.stack?_pop?_of_ne popped hit]
      exact bindingDepth_pos_iff.mp clash.2

theorem clashes_perform_register (done : (env.register d).1 = .ok stored) {name : String} :
    (env.perform (.register d)).Clashes name ↔
      env.Clashes name ∨ name = d.name.lexeme ∧ 0 < env.bindingDepth name := by
  have declared : (env.perform (.register d)).isFunction name =
      (env.isFunction name || d.name.lexeme == name) := by
    rw [isFunction, functions_perform_register_of_ok done]
    exact Functions.declares_insert _ _ _ _
  have bound : (env.perform (.register d)).bindingDepth name = env.bindingDepth name := by
    rw [bindingDepth, bindings_perform_register, bindingDepth]
  rw [Clashes, Clashes, declared, bound, Bool.or_eq_true_iff, beq_iff_eq, or_and_right,
    eq_comm (a := name)]

theorem clashes_of_perform {op : Operation} {name : String} (clash : (env.perform op).Clashes name) :
    env.Clashes name ∨ ∃ d stored, op = .register d ∧ (env.register d).1 = .ok stored ∧
      name = d.name.lexeme ∧ 0 < env.bindingDepth name := by
  cases op with
  | set t v => exact .inl (clashes_of_set clash)
  | remove t => exact .inl (clashes_of_remove clash)
  | scan names tokens => exact .inl clash
  | register d =>
    cases outcome : (env.register d).1 with
    | error f =>
      rw [Clashes, isFunction, bindingDepth, functions_perform_register_of_error outcome,
        bindings_perform_register] at clash
      exact .inl clash
    | ok stored =>
      rcases (clashes_perform_register outcome).mp clash with before | ⟨named, bound⟩
      · exact .inl before
      · exact .inr ⟨d, stored, rfl, outcome, named, bound⟩

theorem clashFree_perform {op : Operation} (before : ∀ name, ¬ env.Clashes name) :
    (∀ name, ¬ (env.perform op).Clashes name) ↔
      ∀ d stored, op = .register d → (env.register d).1 = .ok stored →
        env.bindingDepth d.name.lexeme = 0 := by
  constructor
  · rintro apart d stored rfl done
    refine Nat.eq_zero_of_not_pos fun bound => apart d.name.lexeme ?_
    exact (clashes_perform_register done).mpr (.inr ⟨rfl, bound⟩)
  · intro unbound name clash
    rcases clashes_of_perform clash with clash | ⟨d, stored, registered, done, rfl, bound⟩
    · exact before name clash
    · have depth := unbound d stored registered done
      omega

theorem clashFree_performAll (ops : List Operation) (before : ∀ name, ¬ env.Clashes name) :
    (∀ past, past <+: ops → ∀ name, ¬ (env.performAll past).Clashes name) ↔
      ∀ past d stored, past ++ [.register d] <+: ops →
        ((env.performAll past).register d).1 = .ok stored →
          (env.performAll past).bindingDepth d.name.lexeme = 0 := by
  -- both sides are about a state in front of an operation: the first or, by induction, a later one
  induction ops generalizing env with
  | nil =>
    refine iff_of_true (fun past front => ?_) fun past d _ front => ?_
    · rw [List.prefix_nil.mp front]
      exact before
    · exact absurd (List.prefix_nil.mp front) (by simp)
  | cons op ops ih =>
    constructor
    · intro apart past d stored front
      have next : ∀ name, ¬ (env.perform op).Clashes name :=
        apart [op] (List.prefix_append [op] ops)
      cases past with
      | nil =>
        obtain ⟨_, same, _⟩ := (List.prefix_cons_iff.mp front).resolve_left (by simp)
        exact (clashFree_perform before).mp next d stored (List.cons.inj same).1.symm
      | cons first past =>
        obtain ⟨_, same, front⟩ := (List.prefix_cons_iff.mp front).resolve_left (by simp)
        obtain ⟨rfl, rfl⟩ := List.cons.inj same
        refine (ih next).mp (fun past front => ?_) past d stored front
        exact apart (first :: past) (List.cons_prefix_cons.mpr ⟨rfl, front⟩)
    · intro unbound past front
      rcases List.prefix_cons_iff.mp front with rfl | ⟨later, rfl, behind⟩
      · exact before
      · have next : ∀ name, ¬ (env.perform op).Clashes name := by
          refine (clashFree_perform before).mpr ?_
          rintro d stored rfl
          exact unbound [] d stored (List.cons_prefix_cons.mpr ⟨rfl, List.nil_prefix⟩)
        refine (ih next).mpr (fun past d stored front => ?_) later behind
        exact unbound (op :: past) d stored (List.cons_prefix_cons.mpr ⟨rfl, front⟩)

/-- In no state of a history is a name both declared and bound, exactly if no name is registered
while it is bound. Binding looks at the declared functions, registering does not look at the
bindings. -/
theorem declared_never_bound_iff (symbols : Symbols) (ops : List Operation) :
    (∀ past, past <+: ops → ∀ name, ¬ ((ofSymbols symbols).performAll past).Clashes name) ↔
      ∀ past d stored, past ++ [.register d] <+: ops →
        (((ofSymbols symbols).performAll past).register d).1 = .ok stored →
          ((ofSymbols symbols).performAll past).bindingDepth d.name.lexeme = 0 := by
  refine clashFree_performAll ops fun name clash => ?_
  have called : false = true := clash.1
  exact Bool.false_ne_true called

/-- A variable is bound, then a function of its name is registered. -/
theorem declared_and_bound : ¬ ∀ (ops : List Operation) (name : String),
    ¬ (initial.performAll ops).Clashes name := by
  intro apart
  let x : Token := ⟨.identifier, "x", none, 0, 0⟩
  refine apart [.set x (.boolean true), .register ⟨x, [], .literal (.boolean true)⟩] "x" ⟨rfl, ?_⟩
  decide

end Environment

end LetLang
