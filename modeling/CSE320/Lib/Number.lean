import Mathlib.Order.Defs.LinearOrder

namespace CSE320.Lib

-- A floating-point number is one of the values of an order, or none of them. No comparison
-- with nan holds.
inductive Number (α : Type) where
  | nan
  | value (x : α)

namespace Number

variable {α : Type}

def beq [BEq α] : Number α → Number α → Bool
  | value x, value y => x == y
  | value _, nan => false
  | nan, _ => false

def lt [LT α] : Number α → Number α → Prop
  | value x, value y => x < y
  | value _, nan => False
  | nan, _ => False

def le [LE α] : Number α → Number α → Prop
  | value x, value y => x ≤ y
  | value _, nan => False
  | nan, _ => False

instance instBEq [BEq α] : BEq (Number α) := ⟨beq⟩

instance instLT [LT α] : LT (Number α) := ⟨lt⟩

instance instLE [LE α] : LE (Number α) := ⟨le⟩

instance instZero [Zero α] : Zero (Number α) := ⟨value 0⟩

instance instDecidableLT [LT α] [DecidableLT α] : DecidableLT (Number α)
  | value x, value y => inferInstanceAs (Decidable (x < y))
  | value _, nan => .isFalse id
  | nan, _ => .isFalse id

instance instDecidableLE [LE α] [DecidableLE α] : DecidableLE (Number α)
  | value x, value y => inferInstanceAs (Decidable (x ≤ y))
  | value _, nan => .isFalse id
  | nan, _ => .isFalse id

section

variable (x y : α) (z : Number α)

@[simp] theorem value_beq_value [BEq α] : (value x == value y) = (x == y) := rfl

@[simp] theorem nan_beq [BEq α] : (nan == z) = false := rfl

@[simp] theorem beq_nan [BEq α] : (z == nan) = false := by cases z <;> rfl

@[simp] theorem value_lt_value [LT α] : value x < value y ↔ x < y := Iff.rfl

@[simp] theorem not_nan_lt [LT α] : ¬nan < z := id

@[simp] theorem not_lt_nan [LT α] : ¬z < nan := by cases z <;> exact id

@[simp] theorem value_le_value [LE α] : value x ≤ value y ↔ x ≤ y := Iff.rfl

@[simp] theorem not_nan_le [LE α] : ¬nan ≤ z := id

@[simp] theorem not_le_nan [LE α] : ¬z ≤ nan := by cases z <;> exact id

theorem zero_eq [Zero α] : (0 : Number α) = value 0 := rfl

theorem value_injective : Function.Injective (@value α) := fun _ _ h => value.inj h

-- Nothing is below itself, as in an order.
theorem not_lt_self [Preorder α] : ¬z < z := by
  cases z with
  | nan => exact id
  | value x => exact lt_irrefl x

end

-- The numbers of a list are values, or nan is one of them.
theorem values_or_nan (list : List (Number α)) :
    (∃ xs : List α, list = xs.map value) ↔ ∀ z ∈ list, z ≠ nan := by
  constructor
  · rintro ⟨xs, rfl⟩ z hz rfl
    obtain ⟨x, -, hx⟩ := List.mem_map.mp hz
    cases hx
  · intro h
    induction list with
    | nil => exact ⟨[], rfl⟩
    | cons z rest ih =>
        obtain ⟨hz, hrest⟩ := List.forall_mem_cons.mp h
        obtain ⟨xs, rfl⟩ := ih hrest
        cases z with
        | nan => exact absurd rfl hz
        | value x => exact ⟨x :: xs, rfl⟩

end Number

end CSE320.Lib
