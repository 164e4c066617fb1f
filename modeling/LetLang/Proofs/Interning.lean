import LetLang.Interner.Shared

/-!
# Numbers of strings

A new interner numbers strings by their first appearance, and a number stays with its string. Calls
through several handles answer as calls one after another do, in the order in which they end.
-/

namespace LetLang

namespace Interner

variable {names : Interner} {s t : String} {n : UInt32}

theorem number?_of_getElem? {i : Nat} (there : names.strings[i]? = some s) :
    names.number? s = some (.ofNat i) ∧ (UInt32.ofNat i).toNat = i := by
  have below : i < UInt32.size :=
    Nat.lt_of_lt_of_le (List.getElem?_eq_some_iff.mp there).1 names.bounded
  have position : (UInt32.ofNat i).toNat = i := UInt32.toNat_ofNat_of_lt' below
  rw [number?_eq_some_iff, position]
  exact ⟨there, rfl⟩

theorem number?_of_mem (known : s ∈ names.strings) :
    ∃ n, names.number? s = some n ∧ n.toNat = names.strings.idxOf s := by
  have place : names.strings[names.strings.idxOf s]? = some s := by
    rw [List.getElem?_eq_getElem (List.idxOf_lt_length_iff.mpr known), List.getElem_idxOf]
  exact ⟨_, number?_of_getElem? place⟩

theorem number?_eq_none_iff : names.number? s = none ↔ s ∉ names.strings := by
  constructor
  · intro new known
    obtain ⟨n, found, _⟩ := number?_of_mem known
    simp [new] at found
  · intro absent
    cases found : names.number? s with
    | none => rfl
    | some n => exact absurd (List.mem_of_getElem? (number?_eq_some_iff.mp found)) absent

theorem lookup_of_number? (known : names.number? s = some n) : names.lookup n = s := by
  rw [lookup, number?_eq_some_iff.mp known, Option.getD_some]

theorem number?_lookup (issued : n.toNat < names.size) :
    names.number? (names.lookup n) = some n := by
  rw [number?_eq_some_iff, lookup, List.getElem?_eq_getElem issued, Option.getD_some]

theorem lookup_of_size_le (unissued : names.size ≤ n.toNat) : names.lookup n = "" := by
  rw [lookup, List.getElem?_eq_none unissued, Option.getD_none]

theorem intern_of_new (new : names.number? s = none) (room : names.size < UInt32.size) :
    names.intern s = (.ok (.ofNat names.size), names.push s new room) := by
  rw [intern_eq_enter, enter_of_new new room]

theorem intern_cases (names : Interner) (s : String) :
    (∃ n, names.number? s = some n ∧ names.intern s = (.ok n, names)) ∨
      (∃ new room, names.intern s = (.ok (.ofNat names.size), names.push s new room)) ∨
      ¬ names.size < UInt32.size ∧ names.intern s = (.error .namesExhausted, names) := by
  by_cases new : names.number? s = none
  · by_cases room : names.size < UInt32.size
    · exact .inr (.inl ⟨new, room, intern_of_new new room⟩)
    · exact .inr (.inr ⟨room, by rw [intern_eq_enter, enter_of_full new room]⟩)
  · obtain ⟨n, known⟩ := Option.ne_none_iff_exists'.mp new
    exact .inl ⟨n, known, intern_of_known known⟩

theorem intern_ok (s : String) (room : names.size < UInt32.size) :
    ∃ n, (names.intern s).1 = .ok n := by
  rcases names.intern_cases s with ⟨n, _, called⟩ | ⟨_, _, called⟩ | ⟨full, _⟩
  · exact ⟨n, by rw [called]⟩
  · exact ⟨_, by rw [called]⟩
  · exact absurd room full

theorem size_push (new : names.number? s = none) (room : names.size < UInt32.size) :
    (names.push s new room).size = names.size + 1 := List.length_append

theorem size_intern_le (names : Interner) (s : String) :
    (names.intern s).2.size ≤ names.size + 1 := by
  rcases names.intern_cases s with ⟨_, _, called⟩ | ⟨new, room, called⟩ | ⟨_, called⟩
  · rw [called]
    exact Nat.le_succ _
  · rw [called]
    exact Nat.le_of_eq (size_push new room)
  · rw [called]
    exact Nat.le_succ _

theorem number?_push (new : names.number? t = none) (room : names.size < UInt32.size)
    (known : names.number? s = some n) : (names.push t new room).number? s = some n := by
  rw [number?_eq_some_iff] at known ⊢
  exact getElem?_concat_eq_some_iff.mpr (.inl known)

theorem number?_push_self (new : names.number? s = none) (room : names.size < UInt32.size) :
    (names.push s new room).number? s = some (.ofNat names.size) := by
  rw [number?_eq_some_iff, toNat_ofNat_size room]
  exact getElem?_concat_eq_some_iff.mpr (.inr ⟨rfl, rfl⟩)

theorem number?_intern_of_ne (other : s ≠ t) : (names.intern t).2.number? s = names.number? s := by
  rcases names.intern_cases t with ⟨_, _, called⟩ | ⟨new, room, called⟩ | ⟨_, called⟩
  · rw [called]
  · have miss : (s == t) = false := beq_false_of_ne other
    simp [called, push, number?, List.lookup_cons, miss]
  · rw [called]

/-- What a call with `s` returns, now and whenever it is made again. -/
def Settled (names : Interner) (s : String) (answer : Except Fault UInt32) : Prop :=
  names.intern s = (answer, names)

theorem settled_intern (names : Interner) (s : String) :
    (names.intern s).2.Settled s (names.intern s).1 := by
  rcases names.intern_cases s with ⟨n, _, called⟩ | ⟨new, room, called⟩ | ⟨_, called⟩
  · rwa [called]
  · rw [called]
    exact intern_of_known (number?_push_self new room)
  · rwa [called]

theorem Settled.intern {answer : Except Fault UInt32} (settled : names.Settled s answer)
    (t : String) : (names.intern t).2.Settled s answer := by
  rcases names.intern_cases t with ⟨_, _, called⟩ | ⟨new, room, called⟩ | ⟨_, called⟩
  · rwa [called]
  · -- where there is room for `t`, a call with `s` changes nothing only if `s` is known
    rw [called]
    rcases names.intern_cases s with ⟨n, known, same⟩ | ⟨_, _, same⟩ | ⟨full, _⟩
    · obtain ⟨rfl, _⟩ := Prod.mk.inj (settled.symm.trans same)
      exact intern_of_known (number?_push new room known)
    · have size := congrArg size (Prod.mk.inj (settled.symm.trans same)).2
      rw [size_push] at size
      omega
    · exact absurd room full
  · rwa [called]

theorem Settled.internAll {answer : Except Fault UInt32} (settled : names.Settled s answer)
    (texts : List String) : (names.internAll texts).Settled s answer := by
  induction texts generalizing names with
  | nil => exact settled
  | cons t texts ih => exact ih (settled.intern t)

/-- What a new interner has seen after `texts`: each string once, by its first appearance. -/
def appearances (texts : List String) : List String := ("" :: reserved ++ texts).eraseDups

theorem mem_appearances {texts : List String} :
    s ∈ appearances texts ↔ s ∈ "" :: reserved ++ texts := List.mem_eraseDups

theorem eraseDups_concat (seen : List String) (s : String) :
    (seen ++ [s]).eraseDups = if s ∈ seen then seen.eraseDups else seen.eraseDups ++ [s] := by
  rw [List.eraseDups_append]
  by_cases again : s ∈ seen <;> simp [List.removeAll, List.eraseDups_cons, again]

theorem strings_intern {seen : List String} (strings : names.strings = seen.eraseDups)
    (few : (seen ++ [s]).eraseDups.length ≤ UInt32.size) :
    (names.intern s).2.strings = (seen ++ [s]).eraseDups := by
  rw [eraseDups_concat] at few ⊢
  have known_iff : s ∈ names.strings ↔ s ∈ seen := by rw [strings, List.mem_eraseDups]
  by_cases again : s ∈ seen
  · obtain ⟨n, known, _⟩ := number?_of_mem (known_iff.mpr again)
    rw [intern_of_known known, if_pos again, strings]
  · have new : names.number? s = none := number?_eq_none_iff.mpr (mt known_iff.mp again)
    rw [if_neg again, ← strings, List.length_append] at few
    rw [intern_of_new new few, if_neg again, ← strings]
    rfl

theorem strings_internAll {seen texts : List String} (strings : names.strings = seen.eraseDups)
    (few : (seen ++ texts).eraseDups.length ≤ UInt32.size) :
    (names.internAll texts).strings = (seen ++ texts).eraseDups := by
  induction texts generalizing names seen with
  | nil => rwa [List.append_nil]
  | cons s texts ih =>
    rw [List.append_cons] at few ⊢
    have shorter : (seen ++ [s]).eraseDups.length ≤ UInt32.size := by
      rw [List.eraseDups_append, List.length_append] at few
      omega
    exact ih (strings_intern strings shorter) few

theorem strings_initial : initial.strings = ("" :: reserved).eraseDups := by decide +kernel

/-! ### Calls through several handles -/

namespace Shared

variable {shared : Shared}

theorem perform_cases (shared : Shared) (step : Step) :
    (shared.perform step).1 = [] ∧ (shared.perform step).2.names = shared.names ∨
      ∃ s, (shared.perform step).1 = [(s, (shared.names.intern s).1)] ∧
        (shared.perform step).2.names = (shared.names.intern s).2 := by
  cases step with
  | clone h => cases held : shared.handles[h]? <;> exact .inl (by simp only [perform, held, and_self])
  | look h s =>
    rcases held : shared.handles[h]? with _ | _ | waiting
    · exact .inl (by simp only [perform, held, and_self])
    · cases known : shared.names.number? s with
      | some n =>
        rw [perform_look_of_known held known]
        exact .inr ⟨s, by rw [intern_of_known known], by rw [intern_of_known known]⟩
      | none => exact .inl (by simp only [perform, held, known, and_self])
    · exact .inl (by simp only [perform, held, and_self])
  | enter h =>
    rcases held : shared.handles[h]? with _ | _ | s
    · exact .inl (by simp only [perform, held, and_self])
    · exact .inl (by simp only [perform, held, and_self])
    · rw [perform_enter_of_waiting held, ← intern_eq_enter]
      exact .inr ⟨s, rfl, rfl⟩

/-- The interner has seen the strings of the calls in the order in which these ended, and it still
answers as it did. -/
theorem performAll_spec (shared : Shared) (steps : List Step) :
    (shared.performAll steps).2.names =
        shared.names.internAll ((shared.performAll steps).1.map Prod.fst) ∧
      ∀ entry ∈ (shared.performAll steps).1,
        (shared.performAll steps).2.names.Settled entry.1 entry.2 := by
  induction steps generalizing shared with
  | nil => exact ⟨rfl, List.forall_mem_nil _⟩
  | cons step steps ih =>
    obtain ⟨names, settled⟩ := ih (shared.perform step).2
    rw [performAll_cons]
    rcases shared.perform_cases step with ⟨silent, kept⟩ | ⟨s, answered, interned⟩
    · rw [silent, List.nil_append, ← kept]
      exact ⟨names, settled⟩
    · rw [answered]
      refine ⟨?_, List.forall_mem_cons.mpr ⟨?_, settled⟩⟩
      · rw [names, interned]
        rfl
      · rw [names, interned]
        exact (settled_intern shared.names s).internAll _

theorem performAll_append (shared : Shared) (steps more : List Step) :
    shared.performAll (steps ++ more) =
      ((shared.performAll steps).1 ++ ((shared.performAll steps).2.performAll more).1,
        ((shared.performAll steps).2.performAll more).2) := by
  induction steps generalizing shared with
  | nil => rfl
  | cons step steps ih => simp only [List.cons_append, performAll_cons, ih, List.append_assoc]

theorem call_of_idle {h : Nat} (idle : shared.handles[h]? = some none) (s : String) :
    shared.call h s =
      ([(s, (shared.names.intern s).1)], { shared with names := (shared.names.intern s).2 }) := by
  rw [call, performAll_cons, performAll_cons]
  cases known : shared.names.number? s with
  | some n =>
    rw [perform_look_of_known idle known, perform_enter_of_idle idle, intern_of_known known]
    rfl
  | none =>
    obtain ⟨present, held⟩ := List.getElem?_eq_some_iff.mp idle
    have waiting : (shared.handles.set h (some s))[h]? = some (some s) := by simp [present]
    have idle_again : (shared.handles.set h (some s)).set h none = shared.handles := by
      rw [List.set_set, ← held, List.set_getElem_self]
    rw [perform_look_of_new idle known, perform_enter_of_waiting waiting, idle_again,
      intern_eq_enter]
    rfl

def inTurn (calls : List (Nat × String)) : List Step :=
  calls.flatMap fun call => [.look call.1 call.2, .enter call.1]

theorem strings_inTurn {calls : List (Nat × String)}
    (idle : ∀ call ∈ calls, shared.handles[call.1]? = some none) :
    (shared.performAll (inTurn calls)).1.map Prod.fst = calls.map Prod.snd := by
  induction calls generalizing shared with
  | nil => rfl
  | cons call calls ih =>
    obtain ⟨first, rest⟩ := List.forall_mem_cons.mp idle
    have called := call_of_idle first call.2
    have next : ((shared.call call.1 call.2).2.performAll (inTurn calls)).1.map Prod.fst =
        calls.map Prod.snd := ih (by rwa [called])
    have split : inTurn (call :: calls) = [.look call.1 call.2, .enter call.1] ++ inTurn calls := rfl
    rw [split, performAll_append, ← Shared.call, List.map_append, next, called]
    rfl

/-- The calls of a history were answered as `answered` tells and left `names`, where `seen` are the
strings in the order of their first appearance. -/
structure Numbers (seen : List String) (answered : List Answer) (names : Interner) : Prop where
  answers : ∀ s answer, (s, answer) ∈ answered → ∃ n, answer = .ok n ∧ n.toNat = seen.idxOf s
  distinct : ∀ s t m n, (s, .ok m) ∈ answered → (t, .ok n) ∈ answered → (m = n ↔ s = t)
  /-- However long ago the call was, its number stands for its string. -/
  kept : ∀ s n, (s, .ok n) ∈ answered → names.lookup n = s
  /-- This includes the strings that are known from the start. -/
  known : ∀ s ∈ seen, ∃ n, names.intern s = (.ok n, names) ∧ n.toNat = seen.idxOf s
  issued : ∀ n : UInt32, n.toNat < seen.length → names.intern (names.lookup n) = (.ok n, names)
  unissued : ∀ n : UInt32, seen.length ≤ n.toNat → names.lookup n = ""
  size : names.size = seen.length
  grows : ∀ s, (names.intern s).2.size = if s ∈ seen then names.size else names.size + 1

theorem numbers_of_settled {answered : List Answer} (room : names.size < UInt32.size)
    (called : ∀ entry ∈ answered, entry.1 ∈ names.strings)
    (settled : ∀ entry ∈ answered, names.Settled entry.1 entry.2) :
    Numbers names.strings answered names := by
  have number : ∀ {s answer}, (s, answer) ∈ answered →
      ∃ n, answer = .ok n ∧ names.number? s = some n ∧ n.toNat = names.strings.idxOf s := by
    intro s answer member
    obtain ⟨n, known, position⟩ := number?_of_mem (called _ member)
    have same : names.intern s = (answer, names) := settled _ member
    rw [intern_of_known known, Prod.mk.injEq] at same
    exact ⟨n, same.1.symm, known, position⟩
  have number_ok : ∀ {s n}, (s, .ok n) ∈ answered → names.number? s = some n := by
    intro s n member
    obtain ⟨_, same, known, _⟩ := number member
    rwa [Except.ok.inj same]
  exact {
    answers := fun s answer member => by
      obtain ⟨n, same, _, position⟩ := number member
      exact ⟨n, same, position⟩
    distinct := fun s t m n first next => by
      constructor
      · rintro rfl
        rw [← lookup_of_number? (number_ok first), lookup_of_number? (number_ok next)]
      · rintro rfl
        exact Option.some.inj ((number_ok first).symm.trans (number_ok next))
    kept := fun s n member => lookup_of_number? (number_ok member)
    known := fun s member => by
      obtain ⟨n, known, position⟩ := number?_of_mem member
      exact ⟨n, intern_of_known known, position⟩
    issued := fun n below => intern_of_known (number?_lookup below)
    unissued := fun n above => lookup_of_size_le above
    size := rfl
    grows := fun s => by
      split
      next member =>
        obtain ⟨n, known, _⟩ := number?_of_mem member
        rw [intern_of_known known]
      next absent =>
        have new := number?_eq_none_iff.mpr absent
        rw [intern_of_new new room, size_push] }

/-- Calls on a new interner through any of its handles number strings by their first appearance,
also when they interrupt each other, and calls in turn are answered in turn. -/
theorem numbers_never_move {history : List Step} {answered : List Answer} {after : Shared}
    (run : initial.performAll history = (answered, after))
    (few : (appearances (answered.map Prod.fst)).length < UInt32.size) :
    Numbers (appearances (answered.map Prod.fst)) answered after.names ∧
      ∀ calls : List (Nat × String), (∀ call ∈ calls, after.handles[call.1]? = some none) →
        (after.performAll (inTurn calls)).1.map Prod.fst = calls.map Prod.snd := by
  have spec := initial.performAll_spec history
  rw [run] at spec
  obtain ⟨names, settled⟩ := spec
  have strings : after.names.strings = appearances (answered.map Prod.fst) := by
    rw [names]
    exact strings_internAll strings_initial (Nat.le_of_lt few)
  have room : after.names.size < UInt32.size := by rwa [Interner.size, strings]
  have called : ∀ entry ∈ answered, entry.1 ∈ after.names.strings := by
    intro entry member
    rw [strings, mem_appearances]
    exact List.mem_append_right _ (List.mem_map_of_mem member)
  rw [← strings]
  exact ⟨numbers_of_settled room called settled, fun calls idle => strings_inTurn idle⟩

/-- Both handles look for a new string, and the one that was later to look is the first to enter it. -/
theorem numbers_never_move_raced :
    let history : List Step := [.clone 0, .look 0 "x", .look 1 "x", .enter 1, .look 1 "let",
      .enter 0, .look 0 "y", .enter 0, .look 1 "", .enter 1]
    let answered : List Answer :=
      [("x", .ok 15), ("let", .ok 1), ("x", .ok 15), ("y", .ok 16), ("", .ok 0)]
    let after := (initial.performAll history).2
    (initial.performAll history).1 = answered ∧
      (appearances (answered.map Prod.fst)).length = 17 ∧
      Numbers (appearances (answered.map Prod.fst)) answered after.names ∧
      (after.performAll (inTurn [(1, "z"), (0, "x")])).1.map Prod.fst = ["z", "x"] := by
  intro history answered after
  have given : (initial.performAll history).1 = answered := rfl
  have length : (appearances (answered.map Prod.fst)).length = 17 := by decide +kernel
  have idle : ∀ call ∈ [(1, "z"), (0, "x")], after.handles[call.1]? = some none := by decide +kernel
  obtain ⟨numbers, calls⟩ := numbers_never_move (Prod.ext given rfl) (by rw [length]; decide)
  exact ⟨given, length, numbers, calls _ idle⟩

end Shared

end Interner

end LetLang
