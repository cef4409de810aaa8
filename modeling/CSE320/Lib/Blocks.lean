import Mathlib.Data.List.Basic

namespace CSE320.Lib

variable {α : Type}

theorem flatMap_range_two (f : Nat → List α) (n : Nat) :
    (List.range (n * 2)).flatMap f = (List.range n).flatMap fun i =>
      f (2 * i) ++ f (2 * i + 1) := by
  induction n with
  | zero => rfl
  | succ n ih =>
      have htwice : (n + 1) * 2 = n * 2 + 1 + 1 := by omega
      rw [htwice, List.range_succ, List.range_succ, @List.range_succ n]
      simp only [List.flatMap_append, List.flatMap_singleton, List.append_assoc]
      rw [ih, Nat.mul_comm n 2]

theorem flatMap_range_eq_iff {f g : Nat → List α} {n : Nat}
    (h : ∀ i < n, (f i).length = (g i).length) :
    (List.range n).flatMap f = (List.range n).flatMap g ↔ ∀ i < n, f i = g i := by
  induction n with
  | zero => simp
  | succ n ih =>
      have hlast := h n (Nat.lt_succ_self n)
      rw [List.range_succ, List.flatMap_append, List.flatMap_append, List.flatMap_singleton,
        List.flatMap_singleton, Nat.forall_lt_succ_right,
        ← ih fun i hi => h i (Nat.lt_succ_of_lt hi)]
      constructor
      · exact fun heq => List.append_inj' heq hlast
      · rintro ⟨hfront, hback⟩
        rw [hfront, hback]

theorem length_flatMap_range {f : Nat → List α} {n size : Nat} (h : ∀ i < n, (f i).length = size) :
    ((List.range n).flatMap f).length = n * size := by
  induction n with
  | zero => simp
  | succ n ih =>
      rw [List.range_succ, List.flatMap_append, List.flatMap_singleton, List.length_append,
        ih fun i hi => h i (Nat.lt_succ_of_lt hi), h n (Nat.lt_succ_self n), Nat.succ_mul]

-- Blocks of one size are equal exactly when they are as many and each is equal.
theorem flatMap_range_eq_iff_of_length {f g : Nat → List α} {m n size : Nat} (hsize : 0 < size)
    (hf : ∀ i < m, (f i).length = size) (hg : ∀ i < n, (g i).length = size) :
    (List.range m).flatMap f = (List.range n).flatMap g ↔ m = n ∧ ∀ i < n, f i = g i := by
  constructor
  · intro h
    have hlength := congrArg List.length h
    rw [length_flatMap_range hf, length_flatMap_range hg] at hlength
    obtain rfl := Nat.eq_of_mul_eq_mul_right hsize hlength
    exact ⟨rfl, (flatMap_range_eq_iff fun i hi => (hf i hi).trans (hg i hi).symm).mp h⟩
  · rintro ⟨rfl, h⟩
    exact (flatMap_range_eq_iff fun i hi => (hf i hi).trans (hg i hi).symm).mpr h

end CSE320.Lib
