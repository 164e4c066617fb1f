import LetLang.Proofs.FunctionTable

/-!
# The history of bindings

What a name stands for can be told from the history of an environment alone: each binding that was
made is pending until a removal of its name cancels it. A `Record` keeps these books without any
stacks or declarations, and the environment answers as the books say.
-/

namespace LetLang

structure Record where
  /-- The bindings that are not cancelled, the latest first. -/
  pending : List (String × Value)
  registered : List (String × Nat)
  renamer : Renamer

namespace Record

def ofSymbols (symbols : Symbols) : Record := ⟨[], [], ⟨0, symbols⟩⟩

def declares (r : Record) (name : String) : Bool := r.registered.any (fun key => key.1 == name)

def values (r : Record) (name : String) : List Value :=
  (r.pending.filter (fun b => b.1 == name)).map Prod.snd

open Environment (Operation)

def perform (r : Record) : Operation → Record
  | .set t v =>
    if r.declares t.lexeme then r else { r with pending := (t.lexeme, v) :: r.pending }
  | .remove t => { r with pending := r.pending.eraseP (fun b => b.1 == t.lexeme) }
  | .register d =>
    if Environment.isBuiltin d.name.lexeme d.arity ∨ d.key ∈ r.registered then r
    else { r with
      registered := if r.renamer.HasRoom d.params then r.registered ++ [d.key] else r.registered
      renamer := (d.hygienic r.renamer).2 }
  | .scan names tokens =>
    { r with renamer := { r.renamer with
        symbols := ⟨names, r.renamer.symbols.nextSite + .ofNat tokens⟩ } }

def performAll (r : Record) (ops : List Operation) : Record := ops.foldl perform r

variable {r : Record}

theorem values_cons (r : Record) (name other : String) (v : Value) :
    values { r with pending := (name, v) :: r.pending } other =
      if other = name then v :: r.values other else r.values other := by
  unfold values
  by_cases hit : other = name
  · simp [hit]
  · simp [hit, Ne.symm hit]

theorem values_eraseP (r : Record) (name other : String) :
    values { r with pending := r.pending.eraseP (fun b => b.1 == name) } other =
      if other = name then (r.values other).tail else r.values other := by
  obtain ⟨pending, registered, renamer⟩ := r
  unfold values
  induction pending with
  | nil => simp
  | cons b pending ih =>
    obtain ⟨key, v⟩ := b
    by_cases latest : key = name
    · subst latest
      by_cases hit : other = key
      · simp [hit]
      · simp [hit, Ne.symm hit]
    · have kept : (key == name) = false := beq_false_of_ne latest
      by_cases hit : other = key
      · subst hit
        simpa [List.eraseP_cons, kept, latest] using ih
      · simpa [List.eraseP_cons, kept, Ne.symm hit] using ih

theorem pending_eq_nil_iff : r.pending = [] ↔ ∀ name, r.values name = [] := by
  unfold values
  cases pending : r.pending with
  | nil => simp
  | cons b rest =>
    refine iff_of_false (by simp) fun none => ?_
    have absent := none b.1
    simp at absent

end Record

namespace Environment

variable {env : Environment} {r : Record}

structure Records (env : Environment) (r : Record) : Prop where
  registered : env.functions.keys = r.registered
  renamer : env.renamer = r.renamer
  distinct : env.bindings.Distinct
  values : ∀ name, env.bindings.values name = r.values name

namespace Records

theorem ofSymbols (symbols : Symbols) :
    (Environment.ofSymbols symbols).Records (.ofSymbols symbols) :=
  ⟨rfl, rfl, List.nodup_nil, fun _ => rfl⟩

theorem isFunction (records : env.Records r) (name : String) :
    env.isFunction name = r.declares name := by
  rw [Environment.isFunction, Functions.declares, records.registered, Record.declares]

theorem refusal_eq_none_iff (records : env.Records r) {d : Declaration} :
    env.refusal d = none ↔
      ¬ (isBuiltin d.name.lexeme d.arity = true ∨ d.key ∈ r.registered) := by
  rw [Environment.refusal_eq_none_iff, Functions.find?_eq_none_iff, records.registered, not_or,
    Bool.not_eq_true]
  rfl

theorem set (records : env.Records r) (t : Token) (v : Value) :
    (env.perform (.set t v)).Records (r.perform (.set t v)) := by
  rw [Record.perform, ← records.isFunction]
  cases declared : env.isFunction t.lexeme with
  | true =>
    rw [perform_set_of_declared declared]
    exact records
  | false =>
    rw [perform_set_of_free declared]
    refine ⟨records.registered, records.renamer, records.distinct.push _ _, fun name => ?_⟩
    rw [Variables.values_push, records.values]
    exact (Record.values_cons r t.lexeme name v).symm

theorem remove (records : env.Records r) (t : Token) :
    (env.perform (.remove t)).Records (r.perform (.remove t)) := by
  have cancelled := fun name => Record.values_eraseP r t.lexeme name
  cases popped : env.bindings.pop? t.lexeme with
  | none =>
    have unbound : r.values t.lexeme = [] := by
      rw [← records.values, Variables.values_eq_nil_iff]
      exact Variables.pop?_eq_none_iff.mp popped
    have same : env.perform (.remove t) = env := congrArg Prod.snd (remove_of_unbound popped)
    rw [same]
    refine ⟨records.registered, records.renamer, records.distinct, fun name => ?_⟩
    refine (records.values name).trans (Eq.trans ?_ (cancelled name).symm)
    split
    next hit => rw [hit, unbound, List.tail_nil]
    next => rfl
  | some bindings =>
    have same : env.perform (.remove t) = { env with bindings } :=
      congrArg Prod.snd (remove_of_bound popped)
    rw [same]
    refine ⟨records.registered, records.renamer, records.distinct.pop? popped, fun name => ?_⟩
    rw [Variables.values_pop? records.distinct popped, records.values]
    exact (cancelled name).symm

theorem register (records : env.Records r) (d : Declaration) :
    (env.perform (.register d)).Records (r.perform (.register d)) := by
  rw [Record.perform, ← records.renamer]
  rcases env.register_cases d with ⟨e, refused, same⟩ | ⟨f, renamer, free, full, same⟩ |
    ⟨stored, renamer, free, made, same⟩
  · have known := (not_congr records.refusal_eq_none_iff).mp (by rw [refused]; exact nofun)
    rw [if_pos (not_not.mp known), Environment.perform, same]
    exact records
  · have room := Declaration.not_hasRoom_of_hygienic full
    rw [if_neg (records.refusal_eq_none_iff.mp free), if_neg room, full, Environment.perform, same]
    exact ⟨records.registered, rfl, records.distinct, records.values⟩
  · obtain ⟨room, _, _⟩ := Declaration.hygienic_eq_ok_iff.mp made
    rw [if_neg (records.refusal_eq_none_iff.mp free), if_pos room, made, Environment.perform, same]
    refine ⟨?_, rfl, records.distinct, records.values⟩
    rw [Functions.keys_insert, records.registered]

theorem perform (records : env.Records r) (op : Operation) :
    (env.perform op).Records (r.perform op) := by
  cases op with
  | set t v => exact records.set t v
  | remove t => exact records.remove t
  | register d => exact records.register d
  | scan names tokens =>
    refine ⟨records.registered, ?_, records.distinct, records.values⟩
    rw [Record.perform, Environment.perform, records.renamer]

theorem performAll (records : env.Records r) (ops : List Operation) :
    (env.performAll ops).Records (r.performAll ops) := by
  induction ops generalizing env r with
  | nil => exact records
  | cons op ops ih => exact ih (records.perform op)

end Records

/-- An environment answers as a record says: first the functions, then the latest pending value. -/
structure Follows (env : Environment) (r : Record) : Prop where
  declared : ∀ t, r.declares t.lexeme = true → ∃ place : UInt32,
    env.get t = .error ⟨.missingCallParens t.lexeme, some place⟩ ∧
      place.toNat = min (t.offset.toNat + t.lexeme.length) (UInt32.size - 1)
  bound : ∀ t v, r.declares t.lexeme = false → (r.values t.lexeme).head? = some v →
    env.get t = .ok v
  unbound : ∀ t, r.declares t.lexeme = false → r.values t.lexeme = [] →
    env.get t = .error ⟨.undeclaredVariable t.lexeme, some t.offset⟩
  depth : ∀ name, env.bindingDepth name = (r.values name).length
  isUnbound : env.isUnbound = true ↔ r.pending = []
  /-- A binding is made and a removal is done where the record notes it; others change nothing. -/
  setFree : ∀ t v, r.declares t.lexeme = false →
    env.set t v = (.ok (), env.perform (.set t v))
  setDeclared : ∀ t v, r.declares t.lexeme = true →
    env.set t v = (.error (.functionNameAsVariable t.lexeme t.offset), env)
  removeBound : ∀ t, r.values t.lexeme ≠ [] → env.remove t = (.ok (), env.perform (.remove t))
  removeUnbound : ∀ t, r.values t.lexeme = [] →
    env.remove t = (.error (.unboundRemoval t.lexeme), env)
  registers : ∀ d, (∃ stored, (env.register d).1 = .ok stored) ↔
    ¬ (isBuiltin d.name.lexeme d.arity = true ∨ d.key ∈ r.registered) ∧ r.renamer.HasRoom d.params

theorem toNat_endOf (name : String) (offset : UInt32) :
    (Error.endOf name offset).toNat = min (offset.toNat + name.length) (UInt32.size - 1) := by
  have last : min (offset.toNat + name.length) (UInt32.size - 1) < UInt32.size := by
    have positive : 0 < UInt32.size := by decide
    omega
  exact Nat.mod_eq_of_lt last

theorem Records.follows (records : env.Records r) : env.Follows r where
  declared t called := by
    rw [← records.isFunction] at called
    exact ⟨Error.endOf t.lexeme t.offset, by rw [get, if_pos called, Error.missingCallParens],
      toNat_endOf _ _⟩
  bound t v free latest := by
    rw [← records.isFunction] at free
    rw [← records.values, ← Variables.value?_eq_head?] at latest
    simp [get, free, value?, latest]
  unbound t free cancelled := by
    rw [← records.isFunction] at free
    have none : env.value? t.lexeme = none := by
      rw [value?, Variables.value?_eq_head?, records.values, cancelled, List.head?_nil]
    simp [get, free, none, Error.undeclaredVariable]
  depth name := by rw [bindingDepth, Variables.depth_eq_length, records.values]
  isUnbound := by
    rw [Environment.isUnbound, Variables.isEmpty_iff, Record.pending_eq_nil_iff]
    exact forall_congr' fun name => by rw [records.values]
  setFree t v free := by
    rw [← records.isFunction] at free
    rw [perform_set_of_free free, set_of_free free]
  setDeclared t v called := by
    rw [← records.isFunction] at called
    exact set_of_declared called v
  removeBound t pending := by
    cases popped : env.bindings.pop? t.lexeme with
    | some bindings => rw [Environment.perform, remove_of_bound popped]
    | none =>
      have empty := pop?_eq_none_iff_bindingDepth.mp popped
      rw [bindingDepth, Variables.depth_eq_length, records.values] at empty
      exact absurd (List.eq_nil_of_length_eq_zero empty) pending
  removeUnbound t cancelled := by
    refine remove_eq_error_iff.mpr ⟨?_, rfl, rfl⟩
    rw [bindingDepth, Variables.depth_eq_length, records.values, cancelled, List.length_nil]
  registers d := by
    rw [← records.refusal_eq_none_iff, ← records.renamer]
    constructor
    · rintro ⟨stored, done⟩
      obtain ⟨_, stores⟩ := stores_of_register done
      exact ⟨stores.free, stores.room⟩
    · rintro ⟨free, room⟩
      exact ⟨_, congrArg Prod.fst (register_of_room free room)⟩

/-- After every history of operations, successful or not and in whatever order of names, the
environment answers as the record of the history says. -/
theorem lookups_follow_history (symbols : Symbols) (ops : List Operation) :
    ((ofSymbols symbols).performAll ops).Follows ((Record.ofSymbols symbols).performAll ops) :=
  ((Records.ofSymbols symbols).performAll ops).follows

/-- Removals that do not nest, one too many, and a name that is registered while it is bound. -/
example :
    let x : Token := ⟨.identifier, "x", none, 0, 0⟩
    let y : Token := ⟨.identifier, "y", none, 1, 1⟩
    let env := initial.performAll [.set x (.boolean true), .set y (.string "a"),
      .set x (.string "b"), .remove y, .remove y, .set y (.string "c"), .remove x,
      .register ⟨y, [], .var x⟩]
    env.get x = .ok (.boolean true) ∧ env.bindingDepth "x" = 1 ∧ env.bindingDepth "y" = 1 ∧
      env.get y = .error (.missingCallParens "y" 1) := by
  decide +kernel

end Environment

end LetLang
