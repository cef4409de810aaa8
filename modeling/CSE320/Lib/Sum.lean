import Mathlib.Algebra.BigOperators.Group.Finset.Basic

namespace CSE320.Lib

-- Two summands that differ at one place only.
theorem sum_range_change (f g : Nat → Nat) {n q : Nat} (hq : q < n)
    (hsame : ∀ r, r ≠ q → f r = g r) :
    ∑ r ∈ Finset.range n, f r + g q = ∑ r ∈ Finset.range n, g r + f q := by
  induction n with
  | zero => omega
  | succ n ih =>
      rw [Finset.sum_range_succ, Finset.sum_range_succ]
      by_cases he : q = n
      · subst q
        have hrest : ∑ r ∈ Finset.range n, f r = ∑ r ∈ Finset.range n, g r := by
          apply Finset.sum_congr rfl
          intro r hr
          exact hsame r (Nat.ne_of_lt (Finset.mem_range.mp hr))
        omega
      · have hlast := hsame n (Ne.symm he)
        have hrest := ih (by omega)
        omega

end CSE320.Lib
