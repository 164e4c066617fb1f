import LetLang.Value

/-!
# Variables

Each name has a stack of values, as long as it has a value.
-/

namespace LetLang

/-- The innermost value and those it hides, the nearest first. -/
structure Stack where
  top : Value
  hidden : List Value
deriving DecidableEq

namespace Stack

def size (s : Stack) : Nat := s.hidden.length + 1

def push (s : Stack) (v : Value) : Stack := ⟨v, s.top :: s.hidden⟩

def pop? (s : Stack) : Option Stack :=
  match s.hidden with
  | [] => none
  | v :: hidden => some ⟨v, hidden⟩

end Stack

structure Variables where
  entries : List (String × Stack)
deriving DecidableEq

namespace Variables

def empty : Variables := ⟨[]⟩

def isEmpty (vars : Variables) : Bool := vars.entries.isEmpty

def stack? (vars : Variables) (name : String) : Option Stack := vars.entries.lookup name

def value? (vars : Variables) (name : String) : Option Value := (vars.stack? name).map Stack.top

def depth (vars : Variables) (name : String) : Nat := ((vars.stack? name).map Stack.size).getD 0

def pushOn (name : String) (v : Value) : List (String × Stack) → List (String × Stack)
  | [] => [(name, ⟨v, []⟩)]
  | (other, s) :: rest =>
    if other = name then (name, s.push v) :: rest else (other, s) :: pushOn name v rest

def push (vars : Variables) (name : String) (v : Value) : Variables :=
  ⟨pushOn name v vars.entries⟩

def popFrom (name : String) : List (String × Stack) → Option (List (String × Stack))
  | [] => none
  | (other, s) :: rest =>
    if other = name then
      match s.pop? with
      | some s => some ((name, s) :: rest)
      | none => some rest
    else (popFrom name rest).map ((other, s) :: ·)

/-- Takes the innermost value of a name away, and the name with its last value. -/
def pop? (vars : Variables) (name : String) : Option Variables :=
  (popFrom name vars.entries).map Variables.mk

theorem pop?_push (vars : Variables) (name : String) (v : Value) :
    (vars.push name v).pop? name = some vars := by
  have popped : ∀ entries, popFrom name (pushOn name v entries) = some entries := by
    intro entries
    induction entries with
    | nil => simp [pushOn, popFrom, Stack.pop?]
    | cons entry rest ih =>
      obtain ⟨other, s⟩ := entry
      by_cases same : other = name
      · subst same
        simp [pushOn, popFrom, Stack.push, Stack.pop?]
      · simp [pushOn, popFrom, same, ih]
  simp [pop?, push, popped]

theorem stack?_push (vars : Variables) (name other : String) (v : Value) :
    (vars.push name v).stack? other =
      if other = name then some (((vars.stack? name).map (·.push v)).getD ⟨v, []⟩)
      else vars.stack? other := by
  have found : ∀ entries, (pushOn name v entries).lookup other =
      if other = name then some (((entries.lookup name).map (·.push v)).getD ⟨v, []⟩)
      else entries.lookup other := by
    intro entries
    induction entries with
    | nil =>
      by_cases hit : other = name
      · simp [pushOn, hit]
      · have miss : (other == name) = false := beq_false_of_ne hit
        simp [pushOn, List.lookup_cons, hit, miss]
    | cons entry rest ih =>
      obtain ⟨key, s⟩ := entry
      by_cases same : key = name
      · subst same
        by_cases hit : other = key
        · simp [pushOn, hit]
        · have miss : (other == key) = false := beq_false_of_ne hit
          simp [pushOn, List.lookup_cons, hit, miss]
      · have apart : (name == key) = false := beq_false_of_ne (Ne.symm same)
        by_cases hit : other = key
        · subst hit
          simp [pushOn, same]
        · have miss : (other == key) = false := beq_false_of_ne hit
          simp [pushOn, List.lookup_cons, same, ih, apart, miss]
  exact found vars.entries

theorem value?_push (vars : Variables) (name other : String) (v : Value) :
    (vars.push name v).value? other = if other = name then some v else vars.value? other := by
  unfold value?
  rw [stack?_push]
  split
  next => cases vars.stack? name <;> rfl
  next => rfl

theorem pop?_eq_none_iff {vars : Variables} {name : String} :
    vars.pop? name = none ↔ vars.stack? name = none := by
  have absent : ∀ entries, popFrom name entries = none ↔ entries.lookup name = none := by
    intro entries
    induction entries with
    | nil => simp [popFrom]
    | cons entry rest ih =>
      obtain ⟨other, s⟩ := entry
      by_cases same : other = name
      · subst same
        cases popped : s.pop? <;> simp [popFrom, popped]
      · have miss : (name == other) = false := beq_false_of_ne (Ne.symm same)
        simp [popFrom, List.lookup_cons, same, ih, miss]
  simp [pop?, stack?, absent]

theorem stack?_pop?_of_ne {vars after : Variables} {name other : String}
    (popped : vars.pop? name = some after) (apart : other ≠ name) :
    after.stack? other = vars.stack? other := by
  have kept : ∀ entries rest, popFrom name entries = some rest →
      rest.lookup other = entries.lookup other := by
    have miss : (other == name) = false := beq_false_of_ne apart
    intro entries
    induction entries with
    | nil =>
      intro rest popped
      cases popped
    | cons entry entries ih =>
      obtain ⟨key, s⟩ := entry
      intro rest popped
      rw [popFrom] at popped
      by_cases same : key = name
      · subst same
        cases shorter : s.pop? with
        | some s' =>
          simp only [if_true, shorter, Option.some.injEq] at popped
          subst popped
          simp only [List.lookup_cons, miss]
        | none =>
          simp only [if_true, shorter, Option.some.injEq] at popped
          subst popped
          simp only [List.lookup_cons, miss]
      · rw [if_neg same] at popped
        obtain ⟨behind, found, rfl⟩ := Option.map_eq_some_iff.mp popped
        simp only [List.lookup_cons, ih behind found]
  obtain ⟨entries, found, rfl⟩ := Option.map_eq_some_iff.mp popped
  exact kept vars.entries entries found

def values (vars : Variables) (name : String) : List Value :=
  match vars.stack? name with
  | some s => s.top :: s.hidden
  | none => []

def Distinct (vars : Variables) : Prop := (vars.entries.map Prod.fst).Nodup

theorem value?_eq_head? (vars : Variables) (name : String) :
    vars.value? name = (vars.values name).head? := by
  unfold value? values
  cases vars.stack? name <;> rfl

theorem depth_eq_length (vars : Variables) (name : String) :
    vars.depth name = (vars.values name).length := by
  unfold depth values
  cases vars.stack? name <;> rfl

theorem values_eq_nil_iff {vars : Variables} {name : String} :
    vars.values name = [] ↔ vars.stack? name = none := by
  unfold values
  cases vars.stack? name <;> simp

theorem isEmpty_iff {vars : Variables} :
    vars.isEmpty = true ↔ ∀ name, vars.values name = [] := by
  obtain ⟨entries⟩ := vars
  cases entries with
  | nil => exact iff_of_true rfl fun _ => rfl
  | cons entry rest =>
    refine iff_of_false (by simp [isEmpty]) fun unbound => ?_
    have found := values_eq_nil_iff.mp (unbound entry.1)
    simp [stack?] at found

theorem values_push (vars : Variables) (name other : String) (v : Value) :
    (vars.push name v).values other =
      if other = name then v :: vars.values other else vars.values other := by
  unfold values
  rw [stack?_push]
  by_cases hit : other = name
  · subst hit
    cases vars.stack? other <;> simp [Stack.push]
  · simp [hit]

theorem mem_keys_pushOn {name key : String} {v : Value} {entries : List (String × Stack)}
    (member : key ∈ (pushOn name v entries).map Prod.fst) :
    key = name ∨ key ∈ entries.map Prod.fst := by
  induction entries with
  | nil => exact .inl (List.mem_singleton.mp member)
  | cons entry rest ih =>
    obtain ⟨other, s⟩ := entry
    rw [pushOn] at member
    split at member
    next same =>
      subst same
      exact .inr member
    next =>
      rcases List.mem_cons.mp member with rfl | later
      · exact .inr List.mem_cons_self
      · exact (ih later).imp id (List.mem_cons_of_mem _)

theorem Distinct.push {vars : Variables} (distinct : vars.Distinct) (name : String) (v : Value) :
    (vars.push name v).Distinct := by
  have kept : ∀ entries : List (String × Stack), (entries.map Prod.fst).Nodup →
      ((pushOn name v entries).map Prod.fst).Nodup := by
    intro entries
    induction entries with
    | nil => exact fun _ => by simp [pushOn]
    | cons entry rest ih =>
      obtain ⟨other, s⟩ := entry
      intro distinct
      obtain ⟨new, behind⟩ := List.nodup_cons.mp distinct
      rw [pushOn]
      split
      next same =>
        subst same
        exact distinct
      next apart =>
        refine List.nodup_cons.mpr ⟨fun again => ?_, ih behind⟩
        exact (mem_keys_pushOn again).elim apart new
  exact kept vars.entries distinct

theorem keys_popFrom {name : String} {entries rest : List (String × Stack)}
    (popped : popFrom name entries = some rest) :
    (rest.map Prod.fst).Sublist (entries.map Prod.fst) := by
  induction entries generalizing rest with
  | nil => cases popped
  | cons entry entries ih =>
    obtain ⟨other, s⟩ := entry
    rw [popFrom] at popped
    split at popped
    next same =>
      subst same
      split at popped
      · cases popped
        exact List.Sublist.refl _
      · cases popped
        exact List.sublist_cons_self _ _
    next =>
      obtain ⟨behind, found, rfl⟩ := Option.map_eq_some_iff.mp popped
      exact (ih found).cons_cons other

theorem Distinct.pop? {vars after : Variables} (distinct : vars.Distinct) {name : String}
    (popped : vars.pop? name = some after) : after.Distinct := by
  obtain ⟨entries, found, rfl⟩ := Option.map_eq_some_iff.mp popped
  exact List.Nodup.sublist (keys_popFrom found) distinct

theorem stack?_pop?_self {vars after : Variables} (distinct : vars.Distinct) {name : String}
    (popped : vars.pop? name = some after) :
    after.stack? name = (vars.stack? name).bind Stack.pop? := by
  have uncovered : ∀ entries rest, (entries.map Prod.fst).Nodup →
      popFrom name entries = some rest →
        rest.lookup name = (entries.lookup name).bind Stack.pop? := by
    intro entries
    induction entries with
    | nil =>
      intro rest _ popped
      cases popped
    | cons entry entries ih =>
      obtain ⟨other, s⟩ := entry
      intro rest distinct popped
      obtain ⟨new, behind⟩ := List.nodup_cons.mp distinct
      rw [popFrom] at popped
      split at popped
      next same =>
        subst same
        -- the name leaves the table with its last value, and it has no second stack
        split at popped
        next s' shorter =>
          cases popped
          simp [shorter]
        next last =>
          cases popped
          have gone : entries.lookup other = none := by
            refine List.lookup_eq_none_iff.mpr fun entry member => ?_
            have apart : other ≠ entry.1 := fun same =>
              new (List.mem_map.mpr ⟨entry, member, same.symm⟩)
            simp [apart]
          simp [last, gone]
      next apart =>
        have miss : (name == other) = false := beq_false_of_ne (Ne.symm apart)
        obtain ⟨later, found, rfl⟩ := Option.map_eq_some_iff.mp popped
        simp only [List.lookup_cons, miss, ih later behind found]
  obtain ⟨entries, found, rfl⟩ := Option.map_eq_some_iff.mp popped
  exact uncovered vars.entries entries distinct found

theorem values_pop? {vars after : Variables} (distinct : vars.Distinct) {name : String}
    (popped : vars.pop? name = some after) (other : String) :
    after.values other =
      if other = name then (vars.values other).tail else vars.values other := by
  by_cases hit : other = name
  · subst hit
    rw [if_pos rfl, values, stack?_pop?_self distinct popped, values]
    cases vars.stack? other with
    | none => rfl
    | some s =>
      obtain ⟨top, hidden⟩ := s
      cases hidden <;> rfl
  · rw [if_neg hit, values, stack?_pop?_of_ne popped hit, values]

end Variables

end LetLang
