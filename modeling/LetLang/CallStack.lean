import LetLang.Error
import LetLang.Fault

/-!
# The call stack

The active calls of declared functions, of which there may be a limit.
-/

namespace LetLang

structure Frame where
  name : String
  arity : Nat
  offset : UInt32
deriving DecidableEq

/-- The active calls, the innermost first. Without a limit they may nest to any depth. -/
structure CallStack where
  limit : Option Nat
  frames : List Frame
deriving DecidableEq

namespace CallStack

def ofLimit (limit : Option Nat) : CallStack := ⟨limit, []⟩

def depth (s : CallStack) : Nat := s.frames.length

/-- Enters a call. A call beyond the limit is refused and changes nothing. -/
def push (s : CallStack) (f : Frame) : Except Error CallStack :=
  match s.limit with
  | some limit =>
    if limit ≤ s.depth then .error (.recursionLimitExceeded limit f.offset)
    else .ok { s with frames := f :: s.frames }
  | none => .ok { s with frames := f :: s.frames }

def pop (s : CallStack) : Except Fault CallStack :=
  match s.frames with
  | [] => .error .emptyCallStack
  | _ :: frames => .ok { s with frames }

def top? (s : CallStack) : Option Frame := s.frames.head?

theorem pop_push {s t : CallStack} {f : Frame} (h : s.push f = .ok t) : t.pop = .ok s := by
  unfold push at h
  split at h
  · split at h
    · cases h
    · cases h
      rfl
  · cases h
    rfl

theorem push_eq_error_iff {s : CallStack} {f : Frame} {e : Error} :
    s.push f = .error e ↔
      ∃ limit, s.limit = some limit ∧ limit ≤ s.depth ∧
        e = .recursionLimitExceeded limit f.offset := by
  unfold push
  split
  next limit eq =>
    split
    next full => simp [eq, full, eq_comm]
    next room => simp [eq, room]
  next eq => simp [eq]

end CallStack

end LetLang
