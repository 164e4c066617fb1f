import LetLang.Decimal.Positional

/-!
# Digits of numbers

The text of a finite number without its sign has digits and at most one point, which a digit stands
in front of.
-/

namespace LetLang

namespace Decimal

theorem isDigit_toDigits (n : Nat) : ∀ c ∈ Nat.toDigits 10 n, c.isDigit = true :=
  fun _ member => Nat.isDigit_of_mem_toDigits (by decide) (by decide) member

theorem isDigit_zeros (n : Nat) : ∀ c ∈ List.replicate n '0', c.isDigit = true := by
  intro c member
  rw [List.eq_of_mem_replicate member]
  decide

def padded (d : Decimal) : List Char :=
  List.replicate ((-d.exponent).toNat + 1 - (Nat.toDigits 10 d.digits).length) '0' ++
    Nat.toDigits 10 d.digits

theorem length_padded (d : Decimal) : (-d.exponent).toNat < d.padded.length := by
  simp only [padded, List.length_append, List.length_replicate]
  omega

theorem isDigit_padded (d : Decimal) : ∀ c ∈ d.padded, c.isDigit = true :=
  List.forall_mem_append.mpr ⟨isDigit_zeros _, isDigit_toDigits _⟩

theorem positional_of_negative {d : Decimal} (negative : ¬ 0 ≤ d.exponent) :
    d.positional = d.padded.take (d.padded.length - (-d.exponent).toNat) ++
      '.' :: d.padded.drop (d.padded.length - (-d.exponent).toNat) := if_neg negative

theorem positional_of_nonneg {d : Decimal} (nonneg : 0 ≤ d.exponent) :
    d.positional = Nat.toDigits 10 d.digits ++ List.replicate d.exponent.toNat '0' := if_pos nonneg

theorem numeric_positional (d : Decimal) : ∀ c ∈ d.positional, (c.isDigit || c = '.') = true := by
  have numeric : ∀ {cs : List Char}, (∀ c ∈ cs, c.isDigit = true) →
      ∀ c ∈ cs, (c.isDigit || c = '.') = true := fun digits c member => by simp [digits c member]
  by_cases nonneg : 0 ≤ d.exponent
  · rw [positional_of_nonneg nonneg]
    exact List.forall_mem_append.mpr ⟨numeric (isDigit_toDigits _), numeric (isDigit_zeros _)⟩
  · have padded := numeric d.isDigit_padded
    rw [positional_of_negative nonneg]
    exact List.forall_mem_append.mpr ⟨fun c member => padded c (List.mem_of_mem_take member),
      List.forall_mem_cons.mpr ⟨rfl, fun c member => padded c (List.mem_of_mem_drop member)⟩⟩

theorem head_positional (d : Decimal) : ∃ c, d.positional.head? = some c ∧ c.isDigit = true := by
  have first : ∀ {cs : List Char} (more : List Char), cs ≠ [] → (∀ c ∈ cs, c.isDigit = true) →
      ∃ c, (cs ++ more).head? = some c ∧ c.isDigit = true := by
    intro cs more nonempty digits
    obtain ⟨c, rest, rfl⟩ := List.exists_cons_of_ne_nil nonempty
    exact ⟨c, rfl, digits c List.mem_cons_self⟩
  by_cases nonneg : 0 ≤ d.exponent
  · rw [positional_of_nonneg nonneg]
    exact first _ Nat.toDigits_ne_nil (isDigit_toDigits _)
  · have length := d.length_padded
    rw [positional_of_negative nonneg]
    refine first _ ?_ fun c member => d.isDigit_padded c (List.mem_of_mem_take member)
    exact List.ne_nil_of_length_pos (by rw [List.length_take]; omega)

end Decimal

namespace Binary64

def shown (x : Binary64) : Decimal := if x.isZero then ⟨0, 0⟩ else Decimal.shortest x

theorem unsigned_eq {x : Binary64} (finite : x.isFinite = true) : x.unsigned = x.shown.positional := by
  have less : x.magnitude < infinite := of_decide_eq_true finite
  have notInfinite : x.isInfinite = false := decide_eq_false (Nat.ne_of_lt less)
  rw [unsigned, notInfinite, if_neg Bool.false_ne_true, shown]
  split
  · rfl
  · rfl

end Binary64

end LetLang
