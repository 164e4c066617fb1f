import LetLang.Proofs.DepthLimit
import LetLang.Proofs.LexicalScope
import LetLang.Proofs.Operations

/-!
# The table of functions

Whatever is done to an environment, its table tells the stored declarations apart by name and number
of parameters, and no two of its parameters share a name or, while numbers for sites last, a site.
So a call of a declared function finds a parameter for each argument, and can bind them all.
-/

namespace LetLang

/-- `stored` has the name of `d`, and for each of its parameters one of the same name with a
number. -/
structure Declaration.Derives (d stored : Declaration) : Prop where
  name : stored.name = d.name
  params : List.Forall₂ (fun p q => ∃ n, q.lexeme = Renamer.freshLexeme p.lexeme n)
    d.params stored.params

theorem Declaration.Derives.key (d stored : Declaration) (derives : d.Derives stored) :
    stored.key = d.key :=
  Prod.ext (congrArg Token.lexeme derives.name) derives.params.length_eq.symm

theorem Declaration.derives_renamed (d : Declaration) (r : Renamer) : d.Derives (d.renamed r) where
  name := rfl
  params := by
    refine List.forall₂_iff_get.mpr ⟨(Renamer.length_freshTokens r d.params).symm, fun i _ _ => ?_⟩
    refine ⟨r.issued.toNat + i, ?_⟩
    simp only [renamed, withParams, Renamer.freshTokens, List.get_eq_getElem, List.getElem_mapIdx,
      Renamer.derive]

def Functions.parameters (fs : Functions) : List Token := fs.declarations.flatMap Declaration.params

theorem Functions.parameters_insert (fs : Functions) (key : String × Nat) (d : Declaration) :
    (fs.insert key d).parameters = fs.parameters ++ d.params := by
  simp [parameters, declarations_insert]

namespace Environment

def accepts (env : Environment) : Operation → List Declaration
  | .register d =>
    match (env.register d).1 with
    | .ok _ => [d]
    | .error _ => []
  | _ => []

def acceptsAll (env : Environment) : List Operation → List Declaration
  | [] => []
  | op :: ops => env.accepts op ++ (env.perform op).acceptsAll ops

def Operation.scanned : Operation → Nat
  | scan _ tokens => tokens
  | _ => 0

def Operation.scannedAll : List Operation → Nat
  | [] => 0
  | op :: ops => op.scanned + scannedAll ops

structure Stores (env : Environment) (d : Declaration) (after : Environment) : Prop where
  free : env.refusal d = none
  room : env.renamer.HasRoom d.params
  accepted : env.accepts (.register d) = [d]
  functions : after.functions = env.functions.insert d.key (d.renamed env.renamer)
  renamer : after.renamer = env.renamer.nextAll d.params

theorem register_of_room {env : Environment} {d : Declaration} (free : env.refusal d = none)
    (room : env.renamer.HasRoom d.params) :
    env.register d = (.ok (d.renamed env.renamer), { env with
      functions := env.functions.insert d.key (d.renamed env.renamer)
      renamer := env.renamer.nextAll d.params }) :=
  register_of_free free (Declaration.hygienic_eq_ok_iff.mpr ⟨room, rfl, rfl⟩)

theorem stores_of_register {env : Environment} {d stored : Declaration}
    (done : (env.register d).1 = .ok stored) :
    stored = d.renamed env.renamer ∧ env.Stores d (env.perform (.register d)) := by
  obtain ⟨free, renamer, made, after⟩ := register_eq_ok_iff.mp (Prod.ext done rfl)
  obtain ⟨room, rfl, rfl⟩ := Declaration.hygienic_eq_ok_iff.mp made
  have accepted : env.accepts (.register d) = [d] := by rw [accepts, done]
  exact ⟨rfl, free, room, accepted, congrArg Environment.functions after,
    congrArg Environment.renamer after⟩

theorem perform_cases (env : Environment) (op : Operation) :
    (∃ d, op = .register d ∧ env.Stores d (env.perform op)) ∨
    (env.accepts op = [] ∧ (env.perform op).functions = env.functions ∧
      env.renamer.issued.toNat ≤ (env.perform op).renamer.issued.toNat ∧
      ∃ drawn, env.renamer.issued.toNat + drawn ≤ (env.perform op).renamer.issued.toNat + op.scanned ∧
        (env.perform op).renamer.symbols.nextSite = env.renamer.symbols.nextSite + .ofNat drawn) := by
  have still : env.renamer.symbols.nextSite = env.renamer.symbols.nextSite + .ofNat 0 :=
    (UInt32.add_zero _).symm
  cases op with
  | set t v =>
    refine .inr ?_
    cases declared : env.isFunction t.lexeme with
    | true =>
      rw [perform_set_of_declared declared]
      exact ⟨rfl, rfl, Nat.le_refl _, 0, Nat.le_refl _, still⟩
    | false =>
      rw [perform_set_of_free declared]
      exact ⟨rfl, rfl, Nat.le_refl _, 0, Nat.le_refl _, still⟩
  | remove t =>
    refine .inr ?_
    rcases env.perform_remove t with same | ⟨bindings, _, same⟩
    · rw [same]
      exact ⟨rfl, rfl, Nat.le_refl _, 0, Nat.le_refl _, still⟩
    · rw [same]
      exact ⟨rfl, rfl, Nat.le_refl _, 0, Nat.le_refl _, still⟩
  | scan names tokens => exact .inr ⟨rfl, rfl, Nat.le_refl _, tokens, Nat.le_refl _, rfl⟩
  | register d =>
    rcases env.register_cases d with ⟨e, _, same⟩ | ⟨f, r, _, full, same⟩ | ⟨stored, r, _, _, same⟩
    · refine .inr ⟨by rw [accepts, same], ?_⟩
      rw [perform, same]
      exact ⟨rfl, Nat.le_refl _, 0, Nat.le_refl _, still⟩
    · -- The fresh tokens in front of the fault are lost, but their numbers and sites are taken.
      obtain ⟨drawn, _, counted, site⟩ := env.renamer.freshAll_advances d.params
      have after : (env.renamer.freshAll d.params).2 = r := congrArg Prod.snd full
      rw [after] at counted site
      refine .inr ⟨by rw [accepts, same], ?_⟩
      rw [perform, same]
      exact ⟨rfl, Nat.le_of_add_right_le counted, drawn, counted, site⟩
    · exact .inl ⟨d, rfl, (stores_of_register (congrArg Prod.fst same)).2⟩

/-- The table holds `sources` under fresh names and under the keys that they were written with. -/
structure Tabled (env : Environment) (sources : List Declaration) : Prop where
  derived : Functions.Related Declaration.Derives (.ofDeclarations sources) env.functions
  distinct : env.functions.keys.Nodup
  reserved : ∀ key ∈ env.functions.keys, isBuiltin key.1 key.2 = false

namespace Tabled

variable {env : Environment} {sources : List Declaration}

theorem ofSymbols (symbols : Symbols) : (Environment.ofSymbols symbols).Tabled [] where
  derived := .empty
  distinct := List.nodup_nil
  reserved := List.forall_mem_nil _

theorem register (tabled : env.Tabled sources) {d : Declaration} {after : Environment}
    (stores : env.Stores d after) : after.Tabled (sources ++ [d]) := by
  obtain ⟨own, missing⟩ := refusal_eq_none_iff.mp stores.free
  have new : d.key ∉ env.functions.keys := Functions.find?_eq_none_iff.mp missing
  refine ⟨?_, ?_, ?_⟩
  · rw [stores.functions, Functions.ofDeclarations_append]
    exact tabled.derived.insert (d.derives_renamed env.renamer) _
  · rw [stores.functions, Functions.keys_insert]
    exact List.nodup_append_comm.mp (List.nodup_cons.mpr ⟨new, tabled.distinct⟩)
  · rw [stores.functions, Functions.keys_insert]
    exact List.forall_mem_append.mpr ⟨tabled.reserved, List.forall_mem_singleton.mpr own⟩

theorem perform (tabled : env.Tabled sources) (op : Operation) :
    (env.perform op).Tabled (sources ++ env.accepts op) := by
  rcases env.perform_cases op with ⟨d, rfl, stores⟩ | ⟨none, functions, _⟩
  · rw [stores.accepted]
    exact tabled.register stores
  · rw [none, List.append_nil]
    exact ⟨functions ▸ tabled.derived, functions ▸ tabled.distinct, functions ▸ tabled.reserved⟩

theorem performAll (tabled : env.Tabled sources) (ops : List Operation) :
    (env.performAll ops).Tabled (sources ++ env.acceptsAll ops) := by
  induction ops generalizing env sources with
  | nil =>
    rw [acceptsAll, List.append_nil]
    exact tabled
  | cons op ops ih =>
    have later := ih (tabled.perform op)
    rwa [List.append_assoc] at later

theorem keyed (tabled : env.Tabled sources) : env.functions.Keyed :=
  tabled.derived.keyed Declaration.Derives.key (Functions.keyed_ofDeclarations sources)

theorem not_plain (tabled : env.Tabled sources) {p : Token} (member : p ∈ env.functions.parameters) :
    ¬ Plain p.lexeme := by
  have derived := tabled.derived.declarations
  rw [Functions.declarations_ofDeclarations] at derived
  obtain ⟨stored, there, here⟩ := List.mem_flatMap.mp member
  obtain ⟨i, below, rfl⟩ := List.getElem_of_mem there
  have params := (derived.get (derived.length_eq ▸ below) below).params
  obtain ⟨j, within, rfl⟩ := List.getElem_of_mem here
  obtain ⟨n, named⟩ := params.get (params.length_eq ▸ within) within
  exact named ▸ Renamer.not_plain_freshLexeme _ n

end Tabled

/-! ### Names and sites of parameters -/

/-- The parameters have different names, and the next numbers come behind theirs. -/
structure Numbered (env : Environment) : Prop where
  lexemes : (env.functions.parameters.map Token.lexeme).Nodup
  below : ∀ p ∈ env.functions.parameters, ∃ lexeme n, n < env.renamer.issued.toNat ∧
    p.lexeme = Renamer.freshLexeme lexeme n

/-- Of the sites from `start` on, `drawn` were taken, and the ones with the given numbers by the
parameters. -/
structure Placed (env : Environment) (start : UInt32) (drawn : Nat) (numbers : List Nat) : Prop where
  nextSite : env.renamer.symbols.nextSite = start + .ofNat drawn
  distinct : numbers.Nodup
  below : ∀ n ∈ numbers, n < drawn
  sites : env.functions.parameters.map Token.site = numbers.map fun n => start + .ofNat n

section

variable {env after : Environment} {d : Declaration} {start : UInt32} {drawn : Nat}
  {numbers : List Nat}

theorem Numbered.register (numbered : env.Numbered) (stores : env.Stores d after) :
    after.Numbered := by
  have issued : after.renamer.issued.toNat = env.renamer.issued.toNat + d.params.length := by
    rw [stores.renamer, Renamer.issued_nextAll stores.room.counter]
  have fresh : ∀ q ∈ (d.renamed env.renamer).params, ∃ lexeme n, env.renamer.issued.toNat ≤ n ∧
      n < after.renamer.issued.toNat ∧ q.lexeme = Renamer.freshLexeme lexeme n := by
    intro q member
    obtain ⟨p, _, n, less, rfl⟩ := Renamer.mem_freshTokens member
    exact ⟨p.lexeme, env.renamer.issued.toNat + n, by omega, by omega, rfl⟩
  constructor
  · rw [stores.functions, Functions.parameters_insert, List.map_append]
    refine List.nodup_append.mpr
      ⟨numbered.lexemes, Renamer.nodup_lexemes_freshTokens env.renamer d.params, ?_⟩
    intro a old b new same
    obtain ⟨p, here, rfl⟩ := List.mem_map.mp old
    obtain ⟨q, there, rfl⟩ := List.mem_map.mp new
    obtain ⟨_, m, less, named⟩ := numbered.below p here
    obtain ⟨_, n, above, _, named'⟩ := fresh q there
    have number := (Renamer.freshLexeme_inj.mp (named.symm.trans (same.trans named'))).2
    omega
  · rw [stores.functions, Functions.parameters_insert]
    refine List.forall_mem_append.mpr ⟨fun p old => ?_, fun q new => ?_⟩
    · obtain ⟨lexeme, n, less, named⟩ := numbered.below p old
      exact ⟨lexeme, n, by omega, named⟩
    · obtain ⟨lexeme, n, _, less, named⟩ := fresh q new
      exact ⟨lexeme, n, less, named⟩

theorem Placed.register (placed : env.Placed start drawn numbers) (stores : env.Stores d after) :
    after.Placed start (drawn + d.params.length)
      (numbers ++ (List.range d.params.length).map (drawn + ·)) where
  nextSite := by
    rw [stores.renamer, Renamer.nextSite_nextAll, placed.nextSite, UInt32.ofNat_add,
      UInt32.add_assoc]
  distinct := by
    have new : ((List.range d.params.length).map (drawn + ·)).Nodup :=
      List.nodup_range.map fun _ _ => Nat.add_left_cancel
    refine List.nodup_append.mpr ⟨placed.distinct, new, ?_⟩
    intro m old n added same
    obtain ⟨k, _, rfl⟩ := List.mem_map.mp added
    have less := placed.below m old
    omega
  below := by
    refine List.forall_mem_append.mpr ⟨fun n old => ?_, fun n new => ?_⟩
    · have less := placed.below n old
      omega
    · obtain ⟨k, member, rfl⟩ := List.mem_map.mp new
      exact Nat.add_lt_add_left (List.mem_range.mp member) drawn
  sites := by
    rw [stores.functions, Functions.parameters_insert, List.map_append, List.map_append,
      placed.sites, List.map_map]
    refine congrArg (_ ++ ·) ((Renamer.sites_freshTokens env.renamer d.params).trans ?_)
    refine List.map_congr_left fun n _ => ?_
    rw [Function.comp, placed.nextSite, UInt32.ofNat_add, UInt32.add_assoc]

theorem Placed.nodup_iff (placed : env.Placed start drawn numbers) :
    (env.functions.parameters.map Token.site).Nodup ↔ (numbers.map (· % UInt32.size)).Nodup := by
  rw [placed.sites]
  simp only [List.Nodup, List.pairwise_map, ne_eq, Renamer.site_eq_iff]

theorem Placed.nodup (placed : env.Placed start drawn numbers) (few : drawn ≤ UInt32.size) :
    (env.functions.parameters.map Token.site).Nodup := by
  refine placed.nodup_iff.mpr (placed.distinct.map_on fun m first n last same => ?_)
  have less := placed.below m first
  have less' := placed.below n last
  rwa [Nat.mod_eq_of_lt (by omega), Nat.mod_eq_of_lt (by omega)] at same

theorem Numbered.perform (numbered : env.Numbered) (op : Operation) : (env.perform op).Numbered := by
  rcases env.perform_cases op with ⟨d, rfl, stores⟩ | ⟨_, functions, counted, _⟩
  · exact numbered.register stores
  · refine ⟨functions ▸ numbered.lexemes, functions ▸ fun p member => ?_⟩
    obtain ⟨lexeme, n, less, named⟩ := numbered.below p member
    exact ⟨lexeme, n, by omega, named⟩

theorem Placed.perform (placed : env.Placed start drawn numbers) (op : Operation) :
    ∃ more new, (env.perform op).Placed start (drawn + more) (numbers ++ new) ∧
      env.renamer.issued.toNat + more ≤ (env.perform op).renamer.issued.toNat + op.scanned := by
  rcases env.perform_cases op with ⟨d, rfl, stores⟩ | ⟨_, functions, _, more, bounded, site⟩
  · refine ⟨_, _, placed.register stores, ?_⟩
    rw [stores.renamer, Renamer.issued_nextAll stores.room.counter]
    exact Nat.le_add_right _ _
  · refine ⟨more, [], ⟨?_, ?_, ?_, ?_⟩, bounded⟩
    · rw [site, placed.nextSite, UInt32.ofNat_add, UInt32.add_assoc]
    · rw [List.append_nil]
      exact placed.distinct
    · rw [List.append_nil]
      exact fun n member => Nat.lt_of_lt_of_le (placed.below n member) (Nat.le_add_right _ _)
    · rw [functions, List.append_nil]
      exact placed.sites

theorem numbered_performAll (numbered : env.Numbered) (ops : List Operation) :
    (env.performAll ops).Numbered := by
  induction ops generalizing env with
  | nil => exact numbered
  | cons op ops ih => exact ih (numbered.perform op)

theorem placed_performAll (placed : env.Placed start drawn numbers) (ops : List Operation) :
    ∃ more new, (env.performAll ops).Placed start (drawn + more) (numbers ++ new) ∧
      env.renamer.issued.toNat + more ≤
        (env.performAll ops).renamer.issued.toNat + Operation.scannedAll ops := by
  induction ops generalizing env drawn numbers with
  | nil => exact ⟨0, [], by rwa [Nat.add_zero, List.append_nil], Nat.le_refl _⟩
  | cons op ops ih =>
    obtain ⟨more, new, next, bounded⟩ := placed.perform op
    obtain ⟨more', new', last, bounded'⟩ := ih next
    rw [Nat.add_assoc, List.append_assoc] at last
    refine ⟨more + more', new ++ new', last, ?_⟩
    rw [Operation.scannedAll]
    change _ ≤ ((env.perform op).performAll ops).renamer.issued.toNat + _
    omega

end

end Environment

/-! ### Calls of declared functions -/

theorem Undoes.functions {ts : List Token} {now before : Environment} (undone : Undoes ts now before) :
    now.functions = before.functions := by
  induction undone with
  | nothing => rfl
  | @removal t _ now next _ removed _ ih =>
    rw [← ih]
    cases popped : now.bindings.pop? t.lexeme with
    | none => cases (Environment.remove_of_unbound popped).symm.trans removed
    | some bindings =>
      cases (Environment.remove_of_bound popped).symm.trans removed
      rfl

namespace Expr

variable {e e' : Expr} {m m' : Machine}

inductive LeadsTo : Expr → Machine → Expr → Machine → Prop where
  | here (e : Expr) (m : Machine) : LeadsTo e m e m
  | part {e e' last : Expr} {m m' after : Machine} (starts : Starts e m e' m')
      (rest : LeadsTo e' m' last after) : LeadsTo e m last after

theorem Enters.environment {t : Token} {es : List Expr} {d : Declaration} {vs : List Value}
    (entered : Enters t es m d vs m') : m'.environment = m.environment := by
  obtain ⟨middle, calls, evaluated, _, rfl⟩ := entered.entered
  exact (restores_evalArgs_eval es _ _ _ evaluated).1

theorem Starts.functions (starts : Starts e m e' m') :
    m'.environment.functions = m.environment.functions := by
  cases starts with
  | operand | left | condition => rfl
  | right first | branch first => rw [(Run.restores_eval _ _ _ _ first).1]
  | value first | body first =>
    obtain ⟨⟨_, _, undone⟩, _⟩ := undoable_evalBindings_eval _ _ _ _ _ _ first
    exact undone.functions
  | argument first =>
    rw [(restores_evalArgs_eval _ _ _ _ first).1]
    rfl
  | callee entered bound =>
    obtain ⟨⟨_, _, undone⟩, _⟩ := Scoped.Undoable.bindAll _ _ _ _ _ _ bound
    rw [undone.functions, entered.environment]

theorem LeadsTo.functions (leads : LeadsTo e m e' m') :
    m'.environment.functions = m.environment.functions := by
  induction leads with
  | here => rfl
  | part starts _ ih => rw [ih, starts.functions]

theorem length_evalArgs {callee : Expr → Run Value} {es : List Expr} {vs : List Value}
    (h : evalArgs callee es m = (.ok vs, m')) : vs.length = es.length := by
  induction es generalizing m vs with
  | nil =>
    cases h
    rfl
  | cons e es ih =>
    obtain ⟨v, middle, _, h⟩ := Stateful.bind_eq_ok h
    obtain ⟨rest, last, others, h⟩ := Stateful.bind_eq_ok h
    cases h
    exact congrArg Nat.succ (ih others)

end Expr

theorem Valuation.setAll_of_mem {bindings : List (Token × Value)}
    (distinct : (bindings.map fun b => b.1.lexeme).Nodup) (values : Valuation) {b : Token × Value}
    (member : b ∈ bindings) : values.setAll bindings b.1.lexeme = some b.2 := by
  induction bindings generalizing values with
  | nil => cases member
  | cons first bindings ih =>
    obtain ⟨new, distinct⟩ := List.nodup_cons.mp distinct
    rcases List.mem_cons.mp member with rfl | later
    · rw [setAll, setAll_of_notMem fun c there same => new (List.mem_map.mpr ⟨c, there, same.symm⟩)]
      exact set_of_eq values _ _
    · exact ih distinct _ later

theorem Scoped.bindAll_of_free {bindings : List (Token × Value)} {g : Guard} {m : Machine}
    (free : ∀ b ∈ bindings, m.environment.isFunction b.1.lexeme = false)
    (distinct : (bindings.map fun b => b.1.lexeme).Nodup) :
    ∃ g' after, Scoped.bindAll bindings (g, m) = (.ok (), g', after) ∧
      ∀ b ∈ bindings, after.environment.get b.1 = .ok b.2 := by
  rcases called : Scoped.bindAll bindings (g, m) with ⟨outcome, g', after⟩
  have extends' := Scoped.Extends.bindAll bindings g m outcome g' after ⟨rfl, rfl, rfl, rfl⟩ called
  rw [Valuation.bindAll_of_free free] at extends'
  rcases extends' with ⟨inner, rfl, passed, shown⟩ | ⟨f, _, passed⟩
  · obtain ⟨set, _⟩ := Prod.mk.inj passed
    obtain rfl := Except.ok.inj set
    refine ⟨g', after, rfl, fun b member => ?_⟩
    have read : after.environment.get b.1 =
        Valuation.read after.environment.functions after.environment.value? b.1 := rfl
    have undeclared : m.environment.functions.declares b.1.lexeme = false := free b member
    rw [read, shown.functions, shown.values, Valuation.read, undeclared,
      Valuation.setAll_of_mem distinct _ member]
    rfl
  · cases (Prod.mk.inj passed).1

/-- The arguments of a call and the parameters pair up, and inside of the call each parameter is
bound to its argument. -/
structure Declaration.Takes (d : Declaration) (vs : List Value) (inside : Machine) : Prop where
  params : (d.params.zip vs).map Prod.fst = d.params
  args : (d.params.zip vs).map Prod.snd = vs
  bound : ∃ g after, Scoped.bindAll (d.params.zip vs) (⟨[], true⟩, inside) = (.ok (), g, after) ∧
    ∀ b ∈ d.params.zip vs, after.environment.get b.1 = .ok b.2

namespace Environment

/-- What holds of the table after a history in which so many tokens were scanned. -/
structure Orderly (env : Environment) (sources : List Declaration) (scanned : Nat) : Prop where
  keyed : ∀ entry ∈ env.functions.entries, entry.2.name.lexeme = entry.1.1 ∧
    entry.2.params.length = entry.1.2
  found : ∀ name arity d, env.declaration? name arity = some d ↔
    d ∈ env.functions.declarations ∧ d.name.lexeme = name ∧ d.params.length = arity
  reserved : ∀ name arity, env.isFunctionWithArity name arity = true → isBuiltin name arity = false
  lexemes : (env.functions.parameters.map Token.lexeme).Nodup
  /-- The counter of the renamer tells how many parameters were renamed. -/
  sites : env.renamer.issued.toNat + scanned < UInt32.size →
    (env.functions.parameters.map Token.site).Nodup
  /-- Two parameters have one site exactly if `2 ^ 32` tokens, or a multiple of it, lie between. -/
  recurs : ∃ start drawn numbers, env.Placed start drawn numbers ∧
    ((env.functions.parameters.map Token.site).Nodup ↔ (numbers.map (· % UInt32.size)).Nodup)
  derived : List.Forall₂ Declaration.Derives sources env.functions.declarations
  undeclared : ∀ p ∈ env.functions.parameters, env.isFunction p.lexeme = false

namespace Tabled

variable {env : Environment} {sources : List Declaration}

theorem undeclared (tabled : env.Tabled sources) (plain : ∀ d ∈ sources, Plain d.name.lexeme)
    {p : Token} (member : p ∈ env.functions.parameters) : env.isFunction p.lexeme = false := by
  refine (tabled.derived.declares p.lexeme).trans ?_
  rw [Functions.declares, Functions.keys_ofDeclarations, List.any_map]
  refine List.any_eq_false.mpr fun d source same => tabled.not_plain member ?_
  exact beq_iff_eq.mp same ▸ plain d source

theorem reserved_of_declared (tabled : env.Tabled sources) {name : String} {arity : Nat}
    (declared : env.isFunctionWithArity name arity = true) : isBuiltin name arity = false := by
  obtain ⟨d, found⟩ := Option.isSome_iff_exists.mp declared
  exact tabled.reserved _ (List.mem_map_of_mem (Functions.mem_of_find? found))

end Tabled

theorem mem_acceptsAll {env : Environment} {ops : List Operation} {d : Declaration}
    (member : d ∈ env.acceptsAll ops) : .register d ∈ ops := by
  induction ops generalizing env with
  | nil => cases member
  | cons op ops ih =>
    rcases List.mem_append.mp member with here | later
    · rcases env.perform_cases op with ⟨d', rfl, stores⟩ | ⟨refused, _⟩
      · rw [stores.accepted] at here
        obtain rfl := List.mem_singleton.mp here
        exact List.mem_cons_self
      · rw [refused] at here
        cases here
    · exact List.mem_cons_of_mem _ (ih later)

theorem orderly_performAll (symbols : Symbols) {ops : List Operation}
    (plain : ∀ d, .register d ∈ ops → Plain d.name.lexeme) :
    ((ofSymbols symbols).performAll ops).Orderly ((ofSymbols symbols).acceptsAll ops)
      (Operation.scannedAll ops) := by
  have tabled := (Tabled.ofSymbols symbols).performAll ops
  have numbered : (ofSymbols symbols).Numbered := ⟨List.nodup_nil, List.forall_mem_nil _⟩
  have placed : (ofSymbols symbols).Placed symbols.nextSite 0 [] :=
    ⟨(UInt32.add_zero _).symm, List.nodup_nil, List.forall_mem_nil _, rfl⟩
  obtain ⟨drawn, numbers, after, bounded⟩ := placed_performAll placed ops
  rw [List.nil_append] at tabled
  exact {
    keyed := fun entry member => Prod.mk.inj (tabled.keyed entry member)
    found := fun name arity d =>
      (tabled.keyed.find?_eq_some_iff tabled.distinct).trans (and_congr_right fun _ => Prod.mk_inj)
    reserved := fun _ _ => tabled.reserved_of_declared
    lexemes := (numbered_performAll numbered ops).lexemes
    sites := fun few => by
      have nothing : (ofSymbols symbols).renamer.issued.toNat = 0 := rfl
      exact after.nodup (by omega)
    recurs := ⟨_, _, _, after, after.nodup_iff⟩
    derived := by
      have derived := tabled.derived.declarations
      rwa [Functions.declarations_ofDeclarations] at derived
    undeclared := fun _ => tabled.undeclared fun d member => plain d (mem_acceptsAll member) }

theorem Orderly.takes {env : Environment} {sources : List Declaration} {scanned : Nat}
    (orderly : env.Orderly sources scanned) {t : Token} {es : List Expr} {d : Declaration}
    {vs : List Value} {m inside : Machine} (functions : m.environment.functions = env.functions)
    (entered : Expr.Enters t es m d vs inside) : d.Takes vs inside := by
  have declared : env.declaration? t.lexeme es.length = some d := by
    rw [declaration?, ← functions]
    exact entered.declared
  obtain ⟨stored, _, arity⟩ := (orderly.found _ _ d).mp declared
  have among : d.params ⊆ env.functions.parameters := fun p member =>
    List.mem_flatMap.mpr ⟨d, stored, member⟩
  have length : vs.length = d.params.length := by
    obtain ⟨_, _, evaluated, _⟩ := entered.entered
    rw [Expr.length_evalArgs evaluated, arity]
  have params : (d.params.zip vs).map Prod.fst = d.params := List.map_fst_zip (Nat.le_of_eq length.symm)
  have args : (d.params.zip vs).map Prod.snd = vs := List.map_snd_zip (Nat.le_of_eq length)
  have free : ∀ b ∈ d.params.zip vs, inside.environment.isFunction b.1.lexeme = false := by
    intro b member
    rw [entered.environment, isFunction, functions]
    exact orderly.undeclared b.1 (among (List.of_mem_zip member).1)
  have distinct : ((d.params.zip vs).map fun b => b.1.lexeme).Nodup := by
    have names : (d.params.map Token.lexeme).Nodup :=
      orderly.lexemes.sublist ((List.sublist_flatten_of_mem (List.mem_map_of_mem stored)).map _)
    rwa [← params, List.map_map] at names
  exact ⟨params, args, Scoped.bindAll_of_free free distinct⟩

theorem scannedAll_of_registers {ops : List Operation} (registers : ∀ op ∈ ops, ∃ d, op = .register d) :
    Operation.scannedAll ops = 0 := by
  induction ops with
  | nil => rfl
  | cons op ops ih =>
    obtain ⟨⟨d, rfl⟩, rest⟩ := List.forall_mem_cons.mp registers
    rw [Operation.scannedAll, ih rest]
    rfl

/-- After every history of operations the table is orderly, and after registrations alone no two
parameters have one site. So wherever an evaluation calls a declared function, arguments and
parameters pair up and no parameter is refused. -/
theorem table_orderly (symbols : Symbols) {ops : List Operation}
    (plain : ∀ d, .register d ∈ ops → Plain d.name.lexeme) :
    ((ofSymbols symbols).performAll ops).Orderly ((ofSymbols symbols).acceptsAll ops)
        (Operation.scannedAll ops) ∧
      ((∀ op ∈ ops, ∃ d, op = .register d) →
        (((ofSymbols symbols).performAll ops).functions.parameters.map Token.site).Nodup) ∧
      ∀ (e : Expr) (m : Machine),
        m.environment.functions = ((ofSymbols symbols).performAll ops).functions →
          ∀ t es m' d vs inside, e.LeadsTo m (.call t es) m' →
            Expr.Enters t es m' d vs inside → d.Takes vs inside := by
  have orderly := orderly_performAll symbols plain
  refine ⟨orderly, fun registers => orderly.sites ?_, fun e m functions t es m' d vs inside leads
    entered => orderly.takes (leads.functions.trans functions) entered⟩
  rw [scannedAll_of_registers registers]
  exact UInt32.toNat_lt_size _

/-- A parameter has the name of a function that is declared later, and two registrations fail. -/
theorem table_orderly_later :
    let f : Declaration := ⟨⟨.identifier, "f", none, 9, 0⟩, [⟨.identifier, "g", none, 11, 1⟩],
      .var ⟨.identifier, "g", none, 17, 2⟩⟩
    let g : Declaration := ⟨⟨.identifier, "g", none, 28, 3⟩,
      [⟨.identifier, "x", none, 30, 4⟩, ⟨.identifier, "g", none, 33, 5⟩],
      .var ⟨.identifier, "x", none, 39, 6⟩⟩
    let print : Declaration := ⟨⟨.identifier, "print", none, 51, 7⟩,
      [⟨.identifier, "x", none, 57, 8⟩], .var ⟨.identifier, "x", none, 63, 9⟩⟩
    let ops : List Operation :=
      [.register f, .register print, .register f, .scan .initial 2, .register g]
    let env := (ofSymbols ⟨.initial, 10⟩).performAll ops
    let m : Machine := .ofSettings .testRun env []
    let t : Token := ⟨.identifier, "f", none, 66, 11⟩
    env.functions.parameters.map Token.lexeme = ["g#0", "x#1", "g#2"] ∧
      env.isFunction "g" = true ∧ env.Orderly [f, g] 2 ∧
      ∃ d inside, Expr.Enters t [.literal (.boolean true)] m d [.boolean true] inside ∧
        d.Takes [.boolean true] inside := by
  intro f g print ops env m t
  have plain : ∀ d, .register d ∈ ops → Plain d.name.lexeme := by
    intro d member
    simp only [ops, List.mem_cons, Operation.register.injEq, List.not_mem_nil, reduceCtorEq,
      or_false, false_or] at member
    rcases member with rfl | rfl | rfl | rfl <;> decide
  obtain ⟨orderly, _, takes⟩ := table_orderly ⟨.initial, 10⟩ plain
  have entered : Expr.Enters t [.literal (.boolean true)] m (f.renamed ⟨0, ⟨.initial, 10⟩⟩)
      [.boolean true] { m.note (.beginCall "f" 1) with calls := ⟨some 500, [⟨"f", 1, 66⟩]⟩ } :=
    ⟨rfl, rfl, m.note (.beginCall "f" 1), ⟨some 500, [⟨"f", 1, 66⟩]⟩, rfl, rfl, rfl⟩
  exact ⟨by decide +kernel, rfl, orderly, _, _, entered,
    takes _ m rfl t _ m _ _ _ (.here _ m) entered⟩

/-- Between the two registrations so many tokens are scanned that the sites start again. -/
theorem table_repeats_site : ¬ ∀ (symbols : Symbols) (ops : List Operation),
    (∀ d, .register d ∈ ops → Plain d.name.lexeme) →
      ((ofSymbols symbols).performAll ops).functions.parameters.length < UInt32.size →
        (((ofSymbols symbols).performAll ops).functions.parameters.map Token.site).Nodup := by
  intro distinct
  let f : Declaration := ⟨⟨.identifier, "f", none, 9, 0⟩, [⟨.identifier, "x", none, 11, 1⟩],
    .literal (.boolean true)⟩
  let g : Declaration := ⟨⟨.identifier, "g", none, 28, 2⟩, [⟨.identifier, "y", none, 30, 3⟩],
    .literal (.boolean true)⟩
  let ops : List Operation := [.register f, .scan .initial (UInt32.size - 1), .register g]
  have plain : ∀ d, .register d ∈ ops → Plain d.name.lexeme := by
    intro d member
    simp only [ops, List.mem_cons, Operation.register.injEq, List.not_mem_nil, reduceCtorEq,
      or_false, false_or] at member
    rcases member with rfl | rfl <;> decide
  have sites : ((ofSymbols ⟨.initial, 4⟩).performAll ops).functions.parameters.map Token.site =
      [4, 4] := by
    decide +kernel
  have apart := distinct ⟨.initial, 4⟩ ops plain (by decide +kernel)
  rw [sites] at apart
  exact absurd apart (by decide)

end Environment

end LetLang
