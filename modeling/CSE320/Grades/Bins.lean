import CSE320.Grades.Stats
import CSE320.Lib.Arithmetic
import Mathlib.Algebra.BigOperators.Fin

namespace CSE320.Grades

open Lib (Number Binary)
open Lib.Binary (single)

variable {n : Nat}

-- A float.
abbrev Single := Number single.Extended

abbrev Bins := Fin 50 → Nat

def noTallies : Bins := fun _ => 0

-- The loop that tallies entries into the bins. An index that is outside of the array fails, and
-- so does a conversion without a result.
def tallyBins : List (Option Int × Nat) → Bins → Option Bins
  | [], bins => some bins
  | (none, _) :: _, _ => none
  | (some pct, count) :: rest, bins =>
    if h : 0 ≤ pct ∧ pct < 50 then
      let col : Fin 50 := ⟨pct.toNat, by omega⟩
      tallyBins rest (Function.update bins col (bins col + count))
    else
      none

-- The loop of reporthistos for the least and the greatest composite score.
def compositeBounds (composites : List Single) : Single × Single :=
  composites.foldl (fun (min, max) x => (if x < min then x else min, if x > max then x else max))
    (0, 0)

def compositeHisto (composites : List Single) : Option Bins :=
  let (min, max) := compositeBounds composites
  let diff := if max - min == 0 then single.ofInt 1 else max - min
  tallyBins (composites.map fun x => (Binary.toInt (single.ofInt 49 * (x - min) / diff), 1))
    noTallies

-- The maximum of an assignment is the declared one, or else the actual one.
def histoMax (declared actual : Single) : Single :=
  if declared == 0 then (if actual == 0 then single.ofInt 1 else actual) else declared

def binOf (max score : Single) : Option Int :=
  if score > max then some 49 else Binary.toInt (single.ofInt 49 * score / max)

def assignmentHisto (max : Single) (freqs : List (Freqs Single)) : Option Bins :=
  tallyBins (freqs.map fun f => (binOf max f.score, f.count)) noTallies

def assignmentHistos (asgts : Fin n → Assignment Single) (stats : Stats Single n) :
    List (Fin n) → Option (List Bins)
  | [] => some []
  | a :: rest => do
    let bins ← assignmentHisto (histoMax (asgts a).max (stats.cstats a).max) (stats.cstats a).freqs
    let others ← assignmentHistos asgts stats rest
    return bins :: others

-- The bins for the composite scores and for each assignment.
def reporthistos (roster : List (Student Single n)) (asgts : Fin n → Assignment Single)
    (stats : Stats Single n) : Option (Bins × List Bins) := do
  let first ← compositeHisto (roster.map Student.composite)
  let rest ← assignmentHistos asgts stats (List.finRange n)
  return (first, rest)

-- The least product that is rounded to an infinity.
def overflow : ℚ := 2 ^ 128 - 2 ^ 103

-- The entries that the loop accepts.
def Binned (pct : Option Int) : Prop := ∃ i, pct = some i ∧ 0 ≤ i ∧ i < 50

-- The loop comes to its end with every index in range, and then each entry is counted.
theorem tallyBins_spec (entries : List (Option Int × Nat)) (bins : Bins) :
    ((∀ e ∈ entries, Binned e.1) → ∃ bins', tallyBins entries bins = some bins' ∧
      ∑ col, bins' col = ∑ col, bins col + (entries.map Prod.snd).sum) ∧
    ((∃ bins', tallyBins entries bins = some bins') → ∀ e ∈ entries, Binned e.1) := by
  induction entries generalizing bins with
  | nil => exact ⟨fun _ => ⟨bins, rfl, by simp⟩, fun _ => by simp⟩
  | cons e rest ih =>
      obtain ⟨pct, count⟩ := e
      cases pct with
      | none =>
          refine ⟨fun h => ?_, fun ⟨_, h⟩ => nomatch h⟩
          obtain ⟨i, hi, -⟩ := h _ List.mem_cons_self
          cases hi
      | some pct =>
          by_cases hrange : 0 ≤ pct ∧ pct < 50
          · rw [tallyBins, dif_pos hrange]
            obtain ⟨hall, hsome⟩ :=
              ih (Function.update bins ⟨pct.toNat, by omega⟩ (bins ⟨pct.toNat, by omega⟩ + count))
            constructor
            · intro h
              obtain ⟨bins', hrun, hsum⟩ := hall fun e he => h e (List.mem_cons_of_mem _ he)
              refine ⟨bins', hrun, ?_⟩
              have hupdate := Finset.sum_update_of_mem
                (Finset.mem_univ (⟨pct.toNat, by omega⟩ : Fin 50)) bins
                (bins ⟨pct.toNat, by omega⟩ + count)
              have hwhole := Finset.add_sum_erase Finset.univ bins
                (Finset.mem_univ (⟨pct.toNat, by omega⟩ : Fin 50))
              rw [Finset.sdiff_singleton_eq_erase] at hupdate
              rw [hsum, hupdate, ← hwhole, List.map_cons, List.sum_cons]
              omega
            · intro h e he
              rcases List.mem_cons.mp he with rfl | he
              · exact ⟨pct, rfl, hrange⟩
              · exact hsome h e he
          · rw [tallyBins, dif_neg hrange]
            refine ⟨fun h => ?_, fun ⟨_, h⟩ => nomatch h⟩
            obtain ⟨i, hi, hrange'⟩ := h _ List.mem_cons_self
            rw [← Option.some.inj hi] at hrange'
            exact absurd hrange' hrange

section

variable {q : ℚ}

theorem overflow_iff : single.nearest q < single.bound ↔ q < overflow := by
  have h := single.nearest_lt_two_zpow_iff (q := q) (e := 128) (by decide)
  have hbound : single.bound = 2 ^ (128 : ℤ) := rfl
  have hoverflow : (2 : ℚ) ^ (128 : ℤ) - 2 ^ (128 - (single.digits : ℤ) - 1) = overflow := by
    rw [overflow]
    norm_num [single]
  rw [hbound, h, hoverflow]

theorem abs_overflow_iff : |single.nearest q| < single.bound ↔ |q| < overflow := by
  have hneg := overflow_iff (q := -q)
  rw [single.nearest_neg] at hneg
  rw [abs_eq_max_neg, abs_eq_max_neg, max_lt_iff, max_lt_iff, overflow_iff, hneg]

theorem overflow_lt_bound : overflow < single.bound := by
  have hbound : single.bound = 2 ^ 128 := by
    rw [Binary.bound]
    norm_num [single]
  rw [hbound, overflow]
  norm_num

theorem nearest_lt_fifty_iff : single.nearest q < 50 ↔ q < 50 - 1 / 2 ^ 19 := by
  have h := single.nearest_lt_iff (q := q) (e := 5) (k := 13107200) (by decide) (by decide)
    (by decide) (by decide)
  have hunit : (2 : ℚ) ^ (5 + 1 - (single.digits : ℤ)) = 1 / 2 ^ 18 := by norm_num [single]
  rw [hunit] at h
  norm_num at h ⊢
  exact h

theorem exists_ofInt {k : ℤ} (hk : |k| ≤ 50) :
    ∃ x : single.Finite, single.ofInt k = .value (.finite x) ∧ x.val = k := by
  have hk' : |(k : ℚ)| ≤ 50 := by exact_mod_cast hk
  have hfifty : (50 : ℚ) < overflow := by norm_num [overflow]
  refine Binary.ofInt_of_digits (hk.trans (by decide)) (by decide) ?_
  exact hk'.trans_lt (hfifty.trans overflow_lt_bound)

end

section

variable {x y m : single.Finite} {z : Single}

theorem not_binned_of_none {pct : Option Int} (h : pct = none) : ¬Binned pct := by
  rintro ⟨i, hi, -⟩
  rw [h] at hi
  cases hi

theorem fortyNine_pos :
    ∃ c : single.Finite, single.ofInt 49 = .value (.finite c) ∧ c.val = 49 ∧
      (0 : single.Extended) < .finite c := by
  obtain ⟨c, hc, hval⟩ := exists_ofInt (k := 49) (by decide)
  refine ⟨c, hc, by exact_mod_cast hval, Binary.Extended.finite_lt_finite.mpr ?_⟩
  rw [hval, Binary.val_zero]
  norm_num

-- The product of the source, for each kind of factor.
theorem fortyNine_mul_pos : single.ofInt 49 * .value .pos = .value .pos := by
  obtain ⟨c, hc, -, hpos⟩ := fortyNine_pos
  have hpos' : (0 : single.Extended) < .pos := Binary.Extended.finite_lt_pos
  rw [hc]
  show (if _ then _ else if _ then _ else _ : Single) = _
  rw [if_neg (not_or.mpr ⟨hpos.ne', hpos'.ne'⟩),
    if_pos (iff_of_false hpos.not_gt hpos'.not_gt)]

theorem fortyNine_mul_neg : single.ofInt 49 * .value .neg = .value .neg := by
  obtain ⟨c, hc, -, hpos⟩ := fortyNine_pos
  have hneg : .neg < (0 : single.Extended) := Binary.Extended.neg_lt_finite
  rw [hc]
  show (if _ then _ else if _ then _ else _ : Single) = _
  rw [if_neg (not_or.mpr ⟨hpos.ne', hneg.ne⟩), if_neg fun h => hpos.not_gt (h.mpr hneg)]

theorem fortyNine_mul_finite :
    single.ofInt 49 * .value (.finite x) = .value (single.round (49 * x.val)) := by
  obtain ⟨c, hc, hval, -⟩ := fortyNine_pos
  rw [hc]
  show Number.value (single.round (c.val * x.val)) = _
  rw [hval]

theorem product_lt_iff :
    |single.nearest (49 * x.val)| < single.bound ↔ 49 * |x.val| < overflow := by
  have hpos : (0 : ℚ) ≤ 49 := by norm_num
  rw [abs_overflow_iff, abs_mul, abs_of_nonneg hpos]

-- A product that overflows leaves no index, whatever it is divided by.
theorem not_binned_of_overflow (h : overflow ≤ 49 * |x.val|) :
    ¬Binned (Binary.toInt (single.ofInt 49 * .value (.finite x) / z)) := by
  have hround : single.bound ≤ |single.nearest (49 * x.val)| := by
    rwa [← not_lt, product_lt_iff, not_lt]
  rw [fortyNine_mul_finite]
  exact not_binned_of_none (Binary.toInt_infinite_div z (Binary.round_infinite hround))

-- Otherwise it is a number, and its quotient is in range or not.
theorem binned_iff (h : 49 * |x.val| < overflow) (hm : m.val ≠ 0) :
    Binned (Binary.toInt (single.ofInt 49 * .value (.finite x) / .value (.finite m))) ↔
      -1 < single.nearest (single.nearest (49 * x.val) / m.val) ∧
      single.nearest (single.nearest (49 * x.val) / m.val) < 50 := by
  have hround := product_lt_iff.mpr h
  have hbound : ((50 : ℤ) : ℚ) ≤ single.bound := by
    refine le_trans ?_ overflow_lt_bound.le
    norm_num [overflow]
  rw [fortyNine_mul_finite, Binary.round_of_lt hround]
  exact_mod_cast Binary.div_range hm (by decide) (by decide) hbound

-- The quotient of a score by a maximum that is not smaller stays below 50, rounded as it is.
theorem nearest_quotient_lt (hx : x.val ≤ m.val) (hm : 0 < m.val) :
    single.nearest (single.nearest (49 * x.val) / m.val) < 50 := by
  have htiny : ∃ k : ℤ, 49 * m.val = k * single.tiny := by
    obtain ⟨k, hk⟩ := m.exact.tiny
    refine ⟨49 * k, ?_⟩
    push_cast
    rw [mul_assoc, ← hk]
  have herror := (abs_le.mp (single.abs_nearest_sub_le_of_tiny htiny)).2
  have hpow : (2 : ℚ) ^ single.digits = 16777216 := by norm_num [single]
  rw [hpow, abs_of_pos (by linarith)] at herror
  have hmono := single.nearest_mono (show 49 * x.val ≤ 49 * m.val by linarith)
  rw [nearest_lt_fifty_iff, div_lt_iff₀ hm]
  linarith

end

end CSE320.Grades
