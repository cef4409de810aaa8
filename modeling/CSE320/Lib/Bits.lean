import Mathlib.Data.List.Count
import Mathlib.Data.Nat.Bitwise

namespace CSE320.Lib

variable {α : Type} {w : Nat} (bit : α → Nat)

-- The bits of the elements of a list are flipped in turn.
def flipped (l : List α) (set : BitVec w) : BitVec w :=
  l.foldl (fun set a => set ^^^ BitVec.twoPow w (bit a)) set

theorem flipped_cons (a : α) (l : List α) (set : BitVec w) :
    flipped bit (a :: l) set = flipped bit l (set ^^^ BitVec.twoPow w (bit a)) := rfl

theorem getLsbD_flipped (l : List α) (set : BitVec w) {i : Nat} (hi : i < w) :
    (flipped bit l set).getLsbD i =
      (set.getLsbD i ^^ decide (l.countP (fun a => bit a = i) % 2 = 1)) := by
  induction l generalizing set with
  | nil => simp [flipped]
  | cons a l ih =>
      rw [flipped_cons, ih, BitVec.getLsbD_xor, BitVec.getLsbD_twoPow, List.countP_cons,
        Bool.xor_assoc]
      congr 1
      by_cases h : bit a = i
      · simp only [h, hi, decide_true, Bool.and_self, if_true, Bool.true_xor]
        rw [← decide_not, decide_eq_decide]
        omega
      · simp [h]

-- The bits of a list are exactly those that are set when each is flipped an odd number of times.
theorem flipped_iff {l : List α} (hbits : ∀ a ∈ l, bit a < w) :
    (∀ i < w, (flipped bit l 0#w).getLsbD i = true ↔ ∃ a ∈ l, bit a = i) ↔
      ∀ a ∈ l, l.countP (fun b => bit b = bit a) % 2 = 1 := by
  constructor
  · intro h a ha
    have hbit := (h (bit a) (hbits a ha)).mpr ⟨a, ha, rfl⟩
    simpa [getLsbD_flipped bit l 0#w (hbits a ha)] using hbit
  · intro h i hi
    rw [getLsbD_flipped bit l 0#w hi]
    constructor
    · intro hodd
      have hpos : 0 < l.countP (fun a => bit a = i) := by
        simp at hodd
        omega
      simpa using List.countP_pos_iff.mp hpos
    · rintro ⟨a, ha, rfl⟩
      simpa using h a ha

end CSE320.Lib
