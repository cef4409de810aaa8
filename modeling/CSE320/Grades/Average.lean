import CSE320.Grades.Composite

namespace CSE320.Grades

variable {n : Nat}

section

variable (g : Grading n) (i : Nat) (scores : List (Score ℚ n))

-- The scores of a type that are averaged.
def likes (t : Text) : List (Score ℚ n) :=
  scores.filter fun sc => (g.assignments sc.asgt).atype = t ∧ counted sc

-- The normalized grade of a raw score.
def gradeOf (sc : Score ℚ n) : ℚ := (normal sc.grade sc.asgt i g).1

def weighted (sc : Score ℚ n) : Prop := (g.assignments sc.asgt).wpolicy = .weight

instance : DecidablePred (weighted g) :=
  fun sc => inferInstanceAs (Decidable ((g.assignments sc.asgt).wpolicy = .weight))

def gradeSum : ℚ := (scores.map fun sc => gradeOf g i sc * weightOf (g.assignments sc.asgt)).sum

def weightSum : ℚ :=
  (scores.map fun sc => if weighted g sc then (g.assignments sc.asgt).weight else 0).sum

-- With a weighting policy the specified weights are used, and otherwise all scores are
-- weighted equally. There is no average of no scores, or with weights that sum to zero.
def average : Option ℚ :=
  if scores = [] then none
  else if ∀ sc ∈ scores, ¬weighted g sc then some (gradeSum g i scores / scores.length)
  else if weightSum g scores = 0 then none
  else some (gradeSum g i scores / weightSum g scores)

-- What the average of these scores should be.
structure Averages (result : ℚ) : Prop where
  zero : result = 0 → scores = [] ∨ average g i scores = some 0
  mean : scores ≠ [] → (∀ sc ∈ scores, ¬weighted g sc) →
    result = (scores.map (gradeOf g i)).sum / scores.length
  weightedMean : scores ≠ [] → (∀ sc ∈ scores, weighted g sc) →
    (scores.map fun sc => (g.assignments sc.asgt).weight).sum ≠ 0 →
    result = (scores.map fun sc => gradeOf g i sc * (g.assignments sc.asgt).weight).sum /
      (scores.map fun sc => (g.assignments sc.asgt).weight).sum

end

variable {g : Grading n} {i : Nat} {scores : List (Score ℚ n)}

theorem weightOf_weighted {sc : Score ℚ n} (h : weighted g sc) :
    weightOf (g.assignments sc.asgt) = (g.assignments sc.asgt).weight := if_pos h

theorem weightOf_unweighted {sc : Score ℚ n} (h : ¬weighted g sc) :
    weightOf (g.assignments sc.asgt) = 1 := if_neg h

theorem gradeSum_unweighted (h : ∀ sc ∈ scores, ¬weighted g sc) :
    gradeSum g i scores = (scores.map (gradeOf g i)).sum := by
  rw [gradeSum, List.map_congr_left fun sc hsc => ?_]
  rw [weightOf_unweighted (h sc hsc), mul_one]

theorem weightSum_unweighted (h : ∀ sc ∈ scores, ¬weighted g sc) : weightSum g scores = 0 := by
  rw [weightSum, List.map_congr_left fun sc hsc => if_neg (h sc hsc)]
  simp

theorem gradeSum_weighted (h : ∀ sc ∈ scores, weighted g sc) :
    gradeSum g i scores =
      (scores.map fun sc => gradeOf g i sc * (g.assignments sc.asgt).weight).sum := by
  rw [gradeSum, List.map_congr_left fun sc hsc => ?_]
  rw [weightOf_weighted (h sc hsc)]

theorem weightSum_weighted (h : ∀ sc ∈ scores, weighted g sc) :
    weightSum g scores = (scores.map fun sc => (g.assignments sc.asgt).weight).sum := by
  rw [weightSum, List.map_congr_left fun sc hsc => if_pos (h sc hsc)]

theorem gradeOf_settle (sc : Score ℚ n) : gradeOf g i sc = valueIn (settle g) i sc.asgt sc.grade :=
  (normal_of rfl sc.grade sc.asgt i).1

-- The running values after some scores. The values that are clamped on the way change
-- no grade.
theorem adds_eq (g : Grading n) (i : Nat) (scores : List (Score ℚ n)) (r : Avg) :
    scores.foldl (fun (r : Avg) sc => r.add (gradeOf g i sc) (g.assignments sc.asgt)) r =
      { n := r.n + scores.length
        wp := r.wp || decide (∃ sc ∈ scores, weighted g sc)
        sum := r.sum + gradeSum g i scores
        w := r.w + weightSum g scores } := by
  induction scores generalizing r with
  | nil => simp [gradeSum, weightSum]
  | cons sc rest ih =>
      rw [List.foldl_cons, ih]
      by_cases hweight : weighted g sc
      · have hpolicy : (g.assignments sc.asgt).wpolicy = .weight := hweight
        simp only [Avg.add, if_pos hpolicy, Avg.mk.injEq, gradeSum, weightSum, List.map_cons,
          List.sum_cons, weightOf_weighted hweight, List.length_cons, List.exists_mem_cons_iff,
          hweight, true_or, decide_true, Bool.true_or, Bool.or_true, true_and]
        exact ⟨Nat.add_right_comm _ 1 _, add_assoc _ _ _, add_assoc _ _ _⟩
      · have hpolicy : ¬(g.assignments sc.asgt).wpolicy = .weight := hweight
        simp only [Avg.add, if_neg hpolicy, Avg.mk.injEq, gradeSum, weightSum, List.map_cons,
          List.sum_cons, if_false, weightOf_unweighted hweight, mul_one, zero_add, List.length_cons,
          List.exists_mem_cons_iff, hweight, false_or, true_and, and_true]
        exact ⟨Nat.add_right_comm _ 1 _, add_assoc _ _ _⟩

theorem studentavg_eq (st : Student ℚ n) (t : Text) (i : Nat) (g : Grading n) :
    (studentavg st t i g).1 = if likes g st.rawscores t = [] ∨
      weightSum g (likes g st.rawscores t) = 0 then 0
      else gradeSum g i (likes g st.rawscores t) / weightSum g (likes g st.rawscores t) := by
  have hloop := (likeScores_of (g := g) rfl t i st.rawscores ⟨0, false, 0, 0⟩).1
  have hlikes : (likeScores t i st.rawscores ⟨0, false, 0, 0⟩ g).1 =
      (likes g st.rawscores t).foldl
        (fun (r : Avg) sc => r.add (gradeOf g i sc) (g.assignments sc.asgt))
        ⟨0, false, 0, 0⟩ := by
    rw [hloop, likes, List.foldl_filter]
    simp only [gradeOf_settle, decide_eq_true_eq]
    rfl
  simp only [studentavg, hlikes, adds_eq, Avg.result, zero_add, List.length_eq_zero_iff,
    Bool.false_or, decide_eq_true_eq]
  by_cases hzero : likes g st.rawscores t = [] ∨ weightSum g (likes g st.rawscores t) = 0
  · rw [if_pos hzero, if_pos hzero]
  · have hweighted : ∃ sc ∈ likes g st.rawscores t, weighted g sc := by
      by_contra hnone
      push Not at hnone
      exact hzero (Or.inr (weightSum_unweighted hnone))
    rw [if_neg hzero, if_neg hzero, if_pos hweighted]

-- The average is right unless the weights sum to zero: then the function ends with 0.
theorem studentavg_averages_iff (st : Student ℚ n) (t : Text) (i : Nat) (g : Grading n) :
    Averages g i (likes g st.rawscores t) (studentavg st t i g).1 ↔
      likes g st.rawscores t = [] ∨ weightSum g (likes g st.rawscores t) ≠ 0 ∨
        (∀ sc ∈ likes g st.rawscores t, ¬weighted g sc) ∧
          ((likes g st.rawscores t).map (gradeOf g i)).sum = 0 := by
  rw [studentavg_eq]
  generalize likes g st.rawscores t = scores
  by_cases hnil : scores = []
  · rw [if_pos (Or.inl hnil)]
    exact ⟨fun _ => Or.inl hnil,
      fun _ => ⟨fun _ => Or.inl hnil, fun h => absurd hnil h, fun h => absurd hnil h⟩⟩
  · have hlength : (scores.length : ℚ) ≠ 0 := by simpa using hnil
    by_cases hw : weightSum g scores = 0
    · rw [if_pos (Or.inr hw)]
      constructor
      · intro h
        refine Or.inr (Or.inr ?_)
        have hzero := (h.zero rfl).resolve_left hnil
        by_cases hnone : ∀ sc ∈ scores, ¬weighted g sc
        · refine ⟨hnone, ?_⟩
          have hmean := h.mean hnil hnone
          exact (div_eq_zero_iff.mp hmean.symm).resolve_right hlength
        · rw [average, if_neg hnil, if_neg hnone, if_pos hw] at hzero
          cases hzero
      · rintro (h | h | ⟨hnone, hsum⟩)
        · exact absurd h hnil
        · exact absurd hw h
        · refine ⟨fun _ => Or.inr ?_, fun _ _ => by rw [hsum, zero_div], fun _ hall hsumw => ?_⟩
          · rw [average, if_neg hnil, if_pos hnone, gradeSum_unweighted hnone, hsum, zero_div]
          · exact absurd (weightSum_weighted hall ▸ hw) hsumw
    · rw [if_neg (not_or.mpr ⟨hnil, hw⟩)]
      have hsome : ¬∀ sc ∈ scores, ¬weighted g sc := fun hnone => hw (weightSum_unweighted hnone)
      refine ⟨fun _ => Or.inr (Or.inl hw),
        fun _ => ⟨fun hzero => Or.inr ?_, fun _ hnone => absurd hnone hsome, fun _ hall _ => ?_⟩⟩
      · rw [average, if_neg hnil, if_neg hsome, if_neg hw, hzero]
      · rw [gradeSum_weighted hall, weightSum_weighted hall]

-- A single valid score of an assignment without a weight.
theorem studentavg_averages_not :
    ¬Averages ⟨fun _ => { quiz with npolicy := .raw }, buildstats 1⟩ 0
      (likes ⟨fun _ => { quiz with npolicy := .raw },
        buildstats 1⟩ (quizStudent 1 [quizScore 4]).rawscores quiz.atype)
      (studentavg (quizStudent 1 [quizScore 4]) quiz.atype 0
        ⟨fun _ => { quiz with npolicy := .raw }, buildstats 1⟩).1 := by
  intro h
  have hmean := h.mean (by decide) (by decide)
  exact absurd hmean (by decide +kernel)

end CSE320.Grades
