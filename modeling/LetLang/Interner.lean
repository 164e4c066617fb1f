import LetLang.Fault

/-!
# Interned strings

An interner numbers strings in the order in which it first sees them, with numbers of 32 bits.
-/

namespace LetLang

/-- The number of each string seen so far, and the strings in the order of their numbers. -/
structure Interner where
  numbers : List (String × UInt32)
  strings : List String
  inverse : ∀ s n, numbers.lookup s = some n ↔ strings[n.toNat]? = some s
  bounded : strings.length ≤ UInt32.size
deriving DecidableEq

namespace Interner

def number? (names : Interner) (s : String) : Option UInt32 := names.numbers.lookup s

def size (names : Interner) : Nat := names.strings.length

/-- Whether at most the empty string is known. -/
def isEmpty (names : Interner) : Bool := names.size ≤ 1

/-- The string numbered `n`; the empty string for a number that was not given out. -/
def lookup (names : Interner) (n : UInt32) : String := names.strings[n.toNat]?.getD ""

theorem number?_eq_some_iff {names : Interner} {s : String} {n : UInt32} :
    names.number? s = some n ↔ names.strings[n.toNat]? = some s := names.inverse s n

theorem getElem?_concat_eq_some_iff {strings : List String} {s t : String} {i : Nat} :
    (strings ++ [s])[i]? = some t ↔ strings[i]? = some t ∨ i = strings.length ∧ t = s := by
  rcases Nat.lt_trichotomy i strings.length with before | rfl | behind
  · rw [List.getElem?_append_left before]
    simp [Nat.ne_of_lt before]
  · simp [eq_comm]
  · rw [List.getElem?_eq_none (by simp; omega), List.getElem?_eq_none (by omega)]
    simp [Nat.ne_of_gt behind]

theorem toNat_ofNat_size {names : Interner} (room : names.size < UInt32.size) :
    (UInt32.ofNat names.size).toNat = names.size := UInt32.toNat_ofNat_of_lt' room

def push (names : Interner) (s : String) (new : names.number? s = none)
    (room : names.size < UInt32.size) : Interner where
  numbers := (s, .ofNat names.size) :: names.numbers
  strings := names.strings ++ [s]
  inverse t n := by
    have next : n.toNat = names.strings.length ↔ .ofNat names.size = n := by
      rw [← UInt32.toNat_inj, toNat_ofNat_size room, eq_comm, size]
    rw [getElem?_concat_eq_some_iff, ← number?_eq_some_iff, next]
    by_cases same : t = s
    · subst same
      simp [new]
    · have miss : (t == s) = false := beq_false_of_ne same
      simp [List.lookup_cons, miss, same, number?]
  bounded := by
    rw [List.length_append]
    exact room

def empty : Interner :=
  push ⟨[], [], by simp, by decide⟩ "" rfl (by decide)

/-- Numbers a string that was not found. It is looked up once more: another handle of the interner
may have been faster. -/
def enter (names : Interner) (s : String) : Except Fault UInt32 × Interner :=
  match new : names.number? s with
  | some n => (.ok n, names)
  | none =>
    if room : names.size < UInt32.size then (.ok (.ofNat names.size), names.push s new room)
    else (.error .namesExhausted, names)

def intern (names : Interner) (s : String) : Except Fault UInt32 × Interner :=
  match names.number? s with
  | some n => (.ok n, names)
  | none => names.enter s

def internAll (names : Interner) (strings : List String) : Interner :=
  strings.foldl (fun names s => (names.intern s).2) names

def reserved : List String :=
  ["let", "in", "if", "else", "function", "true", "false",
    "rand", "cos", "exp", "print", "sin", "sqrt", "log"]

def initial : Interner := empty.internAll reserved

theorem intern_of_known {names : Interner} {s : String} {n : UInt32}
    (known : names.number? s = some n) : names.intern s = (.ok n, names) := by
  simp only [intern, known]

theorem enter_of_known {names : Interner} {s : String} {n : UInt32}
    (known : names.number? s = some n) : names.enter s = (.ok n, names) := by
  unfold enter
  split
  next m found => rw [Option.some.inj (found.symm.trans known)]
  next new => simp [new] at known

theorem enter_of_new {names : Interner} {s : String} (new : names.number? s = none)
    (room : names.size < UInt32.size) :
    names.enter s = (.ok (.ofNat names.size), names.push s new room) := by
  unfold enter
  split
  next known => simp [new] at known
  next => rw [dif_pos room]

theorem enter_of_full {names : Interner} {s : String} (new : names.number? s = none)
    (full : ¬ names.size < UInt32.size) : names.enter s = (.error .namesExhausted, names) := by
  unfold enter
  split
  next known => simp [new] at known
  next => rw [dif_neg full]

theorem intern_eq_enter (names : Interner) (s : String) : names.intern s = names.enter s := by
  cases known : names.number? s with
  | some n => rw [intern_of_known known, enter_of_known known]
  | none => simp only [intern, known]

end Interner

end LetLang
