import CSE320.Grades.Bins

namespace CSE320.Grades

open Lib (Number Binary)
open Lib.Binary (single)

-- Composite scores that are finite and not too far from each other and from zero.
def Spans (composites : List Single) : Prop :=
  ∃ xs : List single.Finite, composites = xs.map (fun x => .value (.finite x)) ∧
    ∀ x ∈ xs, ∀ y ∈ 0 :: xs, 49 * single.nearest (x.val - y.val) < overflow

section

-- The bounds are values as long as the scores are.
theorem compositeBounds_values (es : List single.Extended) (m₀ M₀ : single.Extended) :
    (es.map Number.value).foldl (fun ((min, max) : Single × Single) x =>
        (if x < min then x else min, if x > max then x else max)) (.value m₀, .value M₀) =
      (.value (es.foldl min m₀), .value (es.foldl max M₀)) := by
  induction es generalizing m₀ M₀ with
  | nil => rfl
  | cons x rest ih =>
      rw [List.foldl_cons, List.foldl_cons, ← ih, min_comm, max_def_lt, min_def_lt, List.map_cons,
        List.foldl_cons]
      simp only [gt_iff_lt, Number.value_lt_value, apply_ite Number.value]

variable {xs : List single.Finite} {m M x : single.Finite}

theorem sub_finite : (.value (.finite x) - .value (.finite m) : Single) =
    .value (single.round (x.val - m.val)) := rfl

-- The divisor, when the bounds are finite and not too far from each other.
theorem diff_eq (hle : m.val ≤ M.val) (hspan : single.nearest (M.val - m.val) < single.bound) :
    ∃ d : single.Finite, 0 < d.val ∧ single.nearest (M.val - m.val) ≤ d.val ∧
      (if (.value (.finite M) - .value (.finite m) : Single) == 0 then single.ofInt 1
        else .value (.finite M) - .value (.finite m)) = .value (.finite d) := by
  have hnonneg := single.nearest_nonneg (sub_nonneg.mpr hle)
  have hround : |single.nearest (M.val - m.val)| < single.bound := by
    rwa [abs_of_nonneg hnonneg]
  rw [sub_finite, Binary.round_of_lt hround, Number.zero_eq, Number.value_beq_value]
  obtain ⟨one, hone, hval⟩ := exists_ofInt (k := 1) (by decide)
  push_cast at hval
  rcases hnonneg.eq_or_lt with heq | hlt
  · refine ⟨one, ?_, ?_, ?_⟩
    · rw [hval]
      exact one_pos
    · rw [← heq, hval]
      exact zero_le_one
    · rw [if_pos, hone]
      exact beq_iff_eq.mpr (congrArg Binary.Extended.finite (Binary.Finite.ext heq.symm))
  · refine ⟨⟨_, single.exact_nearest _, hround⟩, hlt, le_rfl, ?_⟩
    rw [if_neg]
    intro h
    have hzero := Binary.Extended.finite.inj (beq_iff_eq.mp h)
    exact hlt.ne' (congrArg Binary.Finite.val hzero)

-- A score that is too far above the least one.
theorem not_binned_of_far {z : Single} (hle : m.val ≤ x.val)
    (hfar : overflow ≤ 49 * single.nearest (x.val - m.val)) :
    ¬Binned (Binary.toInt (single.ofInt 49 *
      (.value (.finite x) - .value (.finite m)) / z)) := by
  have hnonneg := single.nearest_nonneg (sub_nonneg.mpr hle)
  rw [sub_finite]
  by_cases hsmall : single.nearest (x.val - m.val) < single.bound
  · have hround : |single.nearest (x.val - m.val)| < single.bound := by
      rwa [abs_of_nonneg hnonneg]
    rw [Binary.round_of_lt hround]
    refine not_binned_of_overflow ?_
    rwa [abs_of_nonneg hnonneg]
  · rw [Binary.round_of_bound_le (not_lt.mp hsmall), fortyNine_mul_pos]
    exact not_binned_of_none (Binary.toInt_infinite_div _ (Or.inl rfl))

-- Finite scores have bins when no product overflows.
theorem spans_finite (hm : m ∈ 0 :: xs) (hM : M ∈ 0 :: xs) (hzero : m.val ≤ 0 ∧ 0 ≤ M.val)
    (hbetween : ∀ x ∈ xs, m.val ≤ x.val ∧ x.val ≤ M.val) :
    (∀ x ∈ xs, Binned (Binary.toInt (single.ofInt 49 *
        (.value (.finite x) - .value (.finite m)) /
        (if (.value (.finite M) - .value (.finite m) : Single) == 0 then single.ofInt 1
          else .value (.finite M) - .value (.finite m))))) ↔
      ∀ x ∈ xs, ∀ y ∈ 0 :: xs, 49 * single.nearest (x.val - y.val) < overflow := by
  constructor
  · intro h x hx y hy
    by_contra hnot
    have hmy : m.val ≤ y.val := by
      rcases List.mem_cons.mp hy with rfl | hy
      · exact hzero.1
      · exact (hbetween y hy).1
    have hmono := single.nearest_mono (sub_le_sub_left hmy x.val)
    have hfar : overflow ≤ 49 * single.nearest (x.val - m.val) := by linarith [not_lt.mp hnot]
    exact not_binned_of_far (hbetween x hx).1 hfar (h x hx)
  · intro h x hx
    obtain ⟨hlow, hhigh⟩ := hbetween x hx
    have hspan : single.nearest (M.val - m.val) < single.bound := by
      rcases List.mem_cons.mp hM with rfl | hM
      · rw [Binary.val_zero, zero_sub, single.nearest_neg, m.exact]
        exact (neg_le_abs _).trans_lt m.small
      · have hover := overflow_lt_bound
        have hnonneg := single.nearest_nonneg (sub_nonneg.mpr (hlow.trans hhigh))
        linarith [h M hM m hm]
    obtain ⟨d, hpos, hle, hdiff⟩ := diff_eq (hlow.trans hhigh) hspan
    have hmono := single.nearest_mono (sub_le_sub_right hhigh m.val)
    have hnonneg := single.nearest_nonneg (sub_nonneg.mpr hlow)
    have hround : |single.nearest (x.val - m.val)| < single.bound := by
      rw [abs_of_nonneg hnonneg]
      exact hmono.trans_lt hspan
    rw [hdiff, sub_finite, Binary.round_of_lt hround, binned_iff _ hpos.ne']
    · refine ⟨?_, nearest_quotient_lt (hmono.trans hle) hpos⟩
      have hproduct := single.nearest_nonneg (mul_nonneg (by norm_num : (0 : ℚ) ≤ 49) hnonneg)
      exact neg_one_lt_zero.trans_le (single.nearest_nonneg (div_nonneg hproduct hpos.le))
    · rw [abs_of_nonneg hnonneg]
      exact h x hx m hm

theorem finite_or_infinite (es : List single.Extended) :
    (∃ xs : List single.Finite, es = xs.map .finite) ∨ .pos ∈ es ∨ .neg ∈ es := by
  induction es with
  | nil => exact Or.inl ⟨[], rfl⟩
  | cons e rest ih =>
      cases e with
      | neg => exact Or.inr (Or.inr List.mem_cons_self)
      | pos => exact Or.inr (Or.inl List.mem_cons_self)
      | finite x =>
          rcases ih with ⟨xs, rfl⟩ | hpos | hneg
          · exact Or.inl ⟨x :: xs, rfl⟩
          · exact Or.inr (Or.inl (List.mem_cons_of_mem _ hpos))
          · exact Or.inr (Or.inr (List.mem_cons_of_mem _ hneg))

theorem spans_map (xs : List single.Finite) :
    Spans (xs.map (Number.value ∘ Binary.Extended.finite)) ↔
      ∀ x ∈ xs, ∀ y ∈ 0 :: xs, 49 * single.nearest (x.val - y.val) < overflow := by
  refine ⟨fun ⟨xs', hxs, h⟩ => ?_, fun h => ⟨xs, rfl, h⟩⟩
  have hinjective : Function.Injective (Number.value ∘ Binary.Extended.finite (f := single)) :=
    Number.value_injective.comp fun _ _ => Binary.Extended.finite.inj
  rwa [List.map_injective_iff.mpr hinjective hxs]

theorem Spans.finite {es : List single.Extended} {e : single.Extended}
    (h : Spans (es.map Number.value)) (he : e ∈ es) : ∃ x, e = .finite x := by
  obtain ⟨xs, hxs, -⟩ := h
  have hmem := List.mem_map_of_mem (f := Number.value) he
  rw [hxs] at hmem
  obtain ⟨x, -, hx⟩ := List.mem_map.mp hmem
  exact ⟨x, (Number.value_injective hx).symm⟩

-- The scores that are no finite numbers have no bins: the least score is not above them.
theorem not_binned_nan_sub {z z' : Single} :
    ¬Binned (Binary.toInt (single.ofInt 49 * (.nan - z) / z')) := by
  rw [Binary.nan_sub, Binary.mul_nan, Binary.nan_div]
  exact not_binned_of_none rfl

theorem not_binned_pos_sub {e : single.Extended} {z : Single} (he : e ≠ .pos) :
    ¬Binned (Binary.toInt (single.ofInt 49 * (.value .pos - .value e) / z)) := by
  have hsub : (.value .pos - .value e : Single) = .value .pos := by
    cases e with
    | neg => rfl
    | finite x => rfl
    | pos => exact absurd rfl he
  rw [hsub, fortyNine_mul_pos]
  exact not_binned_of_none (Binary.toInt_infinite_div _ (Or.inl rfl))

theorem not_binned_neg_sub {e : single.Extended} {z : Single} (he : e ≤ .neg) :
    ¬Binned (Binary.toInt (single.ofInt 49 * (.value .neg - .value e) / z)) := by
  have hsub : (.value .neg - .value e : Single) = .nan := by
    rw [le_antisymm he Binary.Extended.neg_le]
    rfl
  rw [hsub, Binary.mul_nan, Binary.nan_div]
  exact not_binned_of_none rfl

-- Every score has a bin exactly where they do not span too much, whatever kind they are of.
theorem spans_iff (composites : List Single) :
    (∀ x ∈ composites, Binned (Binary.toInt (single.ofInt 49 *
      (x - (compositeBounds composites).1) /
      (if (compositeBounds composites).2 - (compositeBounds composites).1 == 0 then single.ofInt 1
        else (compositeBounds composites).2 - (compositeBounds composites).1)))) ↔
    Spans composites := by
  by_cases hnan : ∀ z ∈ composites, z ≠ .nan
  · obtain ⟨es, rfl⟩ := (Number.values_or_nan composites).mpr hnan
    obtain ⟨hm, hleast⟩ : es.foldl min 0 ∈ 0 :: es ∧ ∀ e ∈ 0 :: es, es.foldl min 0 ≤ e :=
      List.min?_eq_some_iff.mp List.min?_cons'
    obtain ⟨hM, hgreatest⟩ : es.foldl max 0 ∈ 0 :: es ∧ ∀ e ∈ 0 :: es, e ≤ es.foldl max 0 :=
      List.max?_eq_some_iff.mp List.max?_cons'
    rw [compositeBounds, Number.zero_eq, compositeBounds_values]
    dsimp only
    generalize es.foldl min 0 = m at hm hleast ⊢
    generalize es.foldl max 0 = M at hM hgreatest ⊢
    have hmin := hleast 0 List.mem_cons_self
    have hmax := hgreatest 0 List.mem_cons_self
    have hbetween (e : single.Extended) (he : e ∈ es) : m ≤ e ∧ e ≤ M :=
      ⟨hleast e (List.mem_cons_of_mem _ he), hgreatest e (List.mem_cons_of_mem _ he)⟩
    rcases finite_or_infinite es with ⟨xs, rfl⟩ | hpos | hneg
    · obtain ⟨m', hm', rfl⟩ := List.mem_map.mp (show m ∈ (0 :: xs).map .finite from hm)
      obtain ⟨M', hM', rfl⟩ := List.mem_map.mp (show M ∈ (0 :: xs).map .finite from hM)
      rw [List.map_map, List.forall_mem_map, spans_map]
      refine spans_finite hm' hM' ⟨?_, ?_⟩ fun x hx => ?_
      · exact Binary.Extended.finite_le_finite.mp hmin
      · exact Binary.Extended.finite_le_finite.mp hmax
      · obtain ⟨hlow, hhigh⟩ := hbetween _ (List.mem_map_of_mem hx)
        exact ⟨Binary.Extended.finite_le_finite.mp hlow, Binary.Extended.finite_le_finite.mp hhigh⟩
    · refine iff_of_false (fun h => ?_) fun h => ?_
      · have hne : m ≠ .pos := (hmin.trans_lt Binary.Extended.finite_lt_pos).ne
        exact not_binned_pos_sub hne (h _ (List.mem_map_of_mem hpos))
      · obtain ⟨x, hx⟩ := h.finite hpos
        cases hx
    · refine iff_of_false (fun h => ?_) fun h => ?_
      · exact not_binned_neg_sub (hbetween _ hneg).1 (h _ (List.mem_map_of_mem hneg))
      · obtain ⟨x, hx⟩ := h.finite hneg
        cases hx
  · push Not at hnan
    obtain ⟨z, hz, rfl⟩ := hnan
    constructor
    · exact fun h => absurd (h _ hz) not_binned_nan_sub
    · rintro ⟨xs, rfl, -⟩
      obtain ⟨x, -, hx⟩ := List.mem_map.mp hz
      cases hx

-- The composite scores are tallied exactly when they do not span too much.
theorem compositeHisto_spec (composites : List Single) :
    (Spans composites → ∃ bins, compositeHisto composites = some bins ∧
      ∑ col, bins col = composites.length) ∧
    ((∃ bins, compositeHisto composites = some bins) → Spans composites) := by
  obtain ⟨hall, hsome⟩ := tallyBins_spec (composites.map fun x =>
    (Binary.toInt (single.ofInt 49 * (x - (compositeBounds composites).1) /
      (if (compositeBounds composites).2 - (compositeBounds composites).1 == 0 then single.ofInt 1
        else (compositeBounds composites).2 - (compositeBounds composites).1)), 1)) noTallies
  rw [List.forall_mem_map] at hall hsome
  refine ⟨fun h => ?_, fun h => (spans_iff composites).mp (hsome h)⟩
  obtain ⟨bins, hrun, hsum⟩ := hall ((spans_iff composites).mpr h)
  exact ⟨bins, hrun, by simpa [noTallies, Function.comp_def] using hsum⟩

end

end CSE320.Grades
