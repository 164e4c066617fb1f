import LetLang.Binary64

/-!
# Pseudorandom numbers

A generator draws numbers from 0, included, to 1, excluded. How it does so is a part of it; `WyRand`
is the one that programs run with.
-/

namespace LetLang

structure Generator where
  state : UInt64
  step : UInt64 → Binary64 × UInt64

namespace Generator

def uniform (g : Generator) : Binary64 × Generator :=
  let (number, state) := g.step g.state
  (number, { g with state })

end Generator

namespace WyRand

def increment : UInt64 := 0x2d358dccaa6c78a5

def mask : UInt64 := 0x8bb84b93962eacc9

def next (state : UInt64) : UInt64 × UInt64 :=
  let state := state + increment
  let product := state.toNat * (state ^^^ mask).toNat
  (product.toUInt64 ^^^ (product >>> 64).toUInt64, state)

/-- The upper 63 bits of `r` as a fraction of `2 ^ 63`, rounded; 1 if they are close to it. -/
def fraction (r : UInt64) : Binary64 :=
  Binary64.mul (.ofFloat (r >>> 1).toFloat) ⟨0x3c00000000000000⟩

def one : Binary64 := ⟨0x3ff0000000000000⟩

/-- The first of at most `draws + 1` fractions that is not 1. -/
def stepWithin : Nat → UInt64 → Binary64 × UInt64
  | 0, state => (fraction (next state).1, (next state).2)
  | draws + 1, state =>
    let (r, state) := next state
    if fraction r = one then stepWithin draws state else (fraction r, state)

/-- The bound is the number of states, so every state is tried. -/
def step (state : UInt64) : Binary64 × UInt64 := stepWithin 0xffffffffffffffff state

end WyRand

end LetLang
