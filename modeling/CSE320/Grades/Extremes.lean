import CSE320.Grades.Order
import Mathlib.Order.Bounds.Basic

namespace CSE320.Grades

variable {F α : Type} {n : Nat}

-- The bounds of a sample are the least and the greatest of these grades.
def Extremes [LinearOrder α] (grades : List α) (p : Sample α) : Prop :=
  grades ≠ [] → IsLeast {g | g ∈ grades} p.min ∧ IsGreatest {g | g ∈ grades} p.max

-- What holds of the sample of the class while its grades are summed up.
structure Bounded [LinearOrder α] (grades : List α) (p : Sample α) : Prop where
  valid : p.valid = grades.length
  bounds : Extremes grades p

-- What holds of the sample of a section: its bounds stay at the first score.
structure Opened (grades : List ℚ) (p : Sample ℚ) : Prop where
  valid : p.valid = grades.length
  first : ∀ g, grades.head? = some g → p.min = g ∧ p.max = g

section

variable [LT F] [DecidableLT F] (g : F) (p : Sample F)

theorem spread_min : (spread g p).min = if g < p.min then g else p.min := by
  simp only [spread]
  by_cases h : g < p.min
  · rw [if_pos h, if_pos h]
    split <;> rfl
  · rw [if_neg h, if_neg h]
    split <;> rfl

theorem spread_max : (spread g p).max = if p.max < g then g else p.max := by
  have hsame : (if g < p.min then { p with min := g } else p : Sample F).max = p.max := by
    split <;> rfl
  simp only [spread, gt_iff_lt, hsame]
  by_cases h : p.max < g
  · rw [if_pos h, if_pos h]
  · rw [if_neg h, if_neg h, hsame]

theorem spread_valid : (spread g p).valid = p.valid := by
  simp only [spread]
  split <;> split <;> rfl

end

section

variable [LT F] [DecidableLT F] (s : Stats F n) (i j : Nat) (sc : Score F n) (a : Fin n)

-- The second comparison with the bounds of the class finds nothing new.
theorem boundScore_class (hirrefl : ∀ x : F, ¬x < x) :
    ((boundScore s i sc).cstats sc.asgt).valid = (s.cstats sc.asgt).valid + 1 ∧
    ((boundScore s i sc).cstats sc.asgt).min =
      (if (s.cstats sc.asgt).valid = 0 then sc.grade
      else if sc.grade < (s.cstats sc.asgt).min then sc.grade else (s.cstats sc.asgt).min) ∧
    ((boundScore s i sc).cstats sc.asgt).max =
      (if (s.cstats sc.asgt).valid = 0 then sc.grade
      else if (s.cstats sc.asgt).max < sc.grade then sc.grade else (s.cstats sc.asgt).max) := by
  by_cases hclass : (s.cstats sc.asgt).valid = 0
    <;> by_cases hsection : (s.sstats sc.asgt i).valid = 0 <;>
    simp [boundScore, hclass, hsection, spread_min, spread_max, spread_valid, hirrefl]
  grind

theorem boundScore_class_other (h : sc.asgt ≠ a) : (boundScore s i sc).cstats a = s.cstats a := by
  by_cases hclass : (s.cstats sc.asgt).valid = 0
    <;> by_cases hsection : (s.sstats sc.asgt i).valid = 0 <;>
    simp [boundScore, hclass, hsection, h.symm]

-- Nothing but the first score moves the bounds of a section.
theorem boundScore_section :
    ((boundScore s i sc).sstats sc.asgt i).valid = (s.sstats sc.asgt i).valid + 1 ∧
    ((boundScore s i sc).sstats sc.asgt i).min =
      (if (s.sstats sc.asgt i).valid = 0 then sc.grade else (s.sstats sc.asgt i).min) ∧
    ((boundScore s i sc).sstats sc.asgt i).max =
      (if (s.sstats sc.asgt i).valid = 0 then sc.grade else (s.sstats sc.asgt i).max) := by
  by_cases hclass : (s.cstats sc.asgt).valid = 0
    <;> by_cases hsection : (s.sstats sc.asgt i).valid = 0 <;>
    simp [boundScore, hclass, hsection]

theorem boundScore_section_other (h : ¬(sc.asgt = a ∧ i = j)) :
    (boundScore s i sc).sstats a j = s.sstats a j := by
  have hne : ¬(a = sc.asgt ∧ j = i) := fun ⟨h₁, h₂⟩ => h ⟨h₁.symm, h₂.symm⟩
  by_cases hclass : (s.cstats sc.asgt).valid = 0
    <;> by_cases hsection : (s.sstats sc.asgt i).valid = 0 <;>
    simp [boundScore, hclass, hsection, hne]

end

section

variable (s : Stats ℚ n) (i j : Nat) (sc : Score ℚ n) (a : Fin n)

-- The sums leave the bounds as they are.
theorem sumScore_class :
    ((sumScore s i sc).cstats sc.asgt).valid = ((boundScore s i sc).cstats sc.asgt).valid ∧
    ((sumScore s i sc).cstats sc.asgt).min = ((boundScore s i sc).cstats sc.asgt).min ∧
    ((sumScore s i sc).cstats sc.asgt).max = ((boundScore s i sc).cstats sc.asgt).max := by
  simp [sumScore, addScore]

theorem sumScore_class_other (h : sc.asgt ≠ a) : (sumScore s i sc).cstats a = s.cstats a := by
  simpa [sumScore, h.symm] using boundScore_class_other s i sc a h

theorem sumScore_section :
    ((sumScore s i sc).sstats sc.asgt i).valid = ((boundScore s i sc).sstats sc.asgt i).valid ∧
    ((sumScore s i sc).sstats sc.asgt i).min = ((boundScore s i sc).sstats sc.asgt i).min ∧
    ((sumScore s i sc).sstats sc.asgt i).max = ((boundScore s i sc).sstats sc.asgt i).max := by
  simp [sumScore, addScore]

theorem sumScore_section_other (h : ¬(sc.asgt = a ∧ i = j)) :
    (sumScore s i sc).sstats a j = s.sstats a j := by
  have hne : ¬(a = sc.asgt ∧ j = i) := fun ⟨h₁, h₂⟩ => h ⟨h₁.symm, h₂.symm⟩
  simpa [sumScore, hne] using boundScore_section_other s i j sc a h

end

theorem Bounded.step [LinearOrder α] {grades : List α} {p p' : Sample α} {g : α}
    (h : Bounded grades p) (hvalid : p'.valid = p.valid + 1)
    (hmin : p'.min = if p.valid = 0 then g else if g < p.min then g else p.min)
    (hmax : p'.max = if p.valid = 0 then g else if p.max < g then g else p.max) :
    Bounded (grades ++ [g]) p' := by
  refine ⟨by simp [hvalid, h.valid], fun _ => ?_⟩
  by_cases hnil : grades = []
  · have hzero : p.valid = 0 := by simp [h.valid, hnil]
    rw [hmin, hmax, if_pos hzero, if_pos hzero, hnil]
    simp [isLeast_singleton, isGreatest_singleton]
  · have hpos : p.valid ≠ 0 := by simp [h.valid, hnil]
    have hset : {x | x ∈ grades ++ [g]} = insert g {x | x ∈ grades} := by
      ext x
      simp [or_comm]
    obtain ⟨hleast, hgreatest⟩ := h.bounds hnil
    rw [hmin, hmax, if_neg hpos, if_neg hpos, hset, ← min_def_lt, ← max_def_lt, max_comm]
    exact ⟨hleast.insert g, hgreatest.insert g⟩

variable {grades : List ℚ} {p p' : Sample ℚ} {g : ℚ}

theorem Opened.step (h : Opened grades p) (hvalid : p'.valid = p.valid + 1)
    (hmin : p'.min = if p.valid = 0 then g else p.min)
    (hmax : p'.max = if p.valid = 0 then g else p.max) :
    Opened (grades ++ [g]) p' := by
  refine ⟨by simp [hvalid, h.valid], fun x hx => ?_⟩
  cases grades with
  | nil =>
      have hzero : p.valid = 0 := h.valid
      obtain rfl : g = x := by simpa using hx
      rw [hmin, hmax, if_pos hzero, if_pos hzero]
      exact ⟨rfl, rfl⟩
  | cons y rest =>
      have hpos : p.valid ≠ 0 := by simp [h.valid]
      rw [hmin, hmax, if_neg hpos, if_neg hpos]
      exact h.first x (by simpa using hx)

-- A run of steps over the entries, seen from one sample: it gets its own grades in order.
theorem sums_sample {step : Stats F n → Nat → Score F n → Stats F n}
    (sample : Stats F n → Sample F) (own : Nat × Score F n → Bool)
    (holds : List F → Sample F → Prop)
    (hown : ∀ s e grades, own e = true → holds grades (sample s) →
      holds (grades ++ [e.2.grade]) (sample (step s e.1 e.2)))
    (hother : ∀ s e, own e = false → sample (step s e.1 e.2) = sample s)
    (list : List (Nat × Score F n)) {grades : List F} {s : Stats F n}
    (h : holds grades (sample s)) :
    holds (grades ++ (list.filter own).map fun e => e.2.grade)
      (sample (list.foldl (fun s e => step s e.1 e.2) s)) := by
  induction list generalizing grades s with
  | nil => simpa using h
  | cons e rest ih =>
      rw [List.foldl_cons]
      cases he : own e with
      | true =>
          rw [List.filter_cons_of_pos he, List.map_cons, List.append_cons]
          exact ih (hown s e grades he h)
      | false =>
          rw [List.filter_cons_of_neg (by simp [he])]
          apply ih
          rw [hother s e he]
          exact h

-- No grade is summed up yet when the sums begin.
theorem doFreqs_valid [Zero F] [BEq F] [LT F] [DecidableLT F] (roster : List (Nat × Student F n))
    (a : Fin n) (i : Nat) :
    ((doQuantiles (doFreqs roster (buildstats n))).cstats a).valid = 0 ∧
    ((doQuantiles (doFreqs roster (buildstats n))).sstats a i).valid = 0 := by
  have htally (list : List F) (p : Sample F) :
      (list.foldl (fun p g => tally g p) p).valid = p.valid := by
    induction list generalizing p with
    | nil => rfl
    | cons g rest ih => exact ih _
  simp only [doQuantiles, doFreqs, forScores_eq]
  constructor
  · exact (congrArg Sample.valid
      (follows_tally.fold_cstats (entries roster) (buildstats n) a)).trans (htally _ _)
  · exact (congrArg Sample.valid
      (follows_tally.fold_sstats (entries roster) (buildstats n) a i)).trans (htally _ _)

theorem moments_bounds (sqrt : ℚ → ℚ) (p : Sample ℚ) :
    (moments sqrt p).min = p.min ∧ (moments sqrt p).max = p.max := by
  by_cases hzero : p.valid = 0
  · simp [moments, hzero]
  · by_cases hone : p.valid = 1 <;> simp [moments, hzero, hone]

theorem statistics_class (sqrt : ℚ → ℚ) (c : Course ℚ n) (a : Fin n) :
    Extremes (gradesOf a (c.sections.flatMap scoresOf)) ((statistics sqrt c).cstats a) := by
  have hn : n ≠ 0 := fun hn => (hn ▸ a).elim0
  have hstart : Bounded [] ((doQuantiles (doFreqs (doLinks c) (buildstats n))).cstats a) :=
    ⟨(doFreqs_valid _ a 0).1, fun h => absurd rfl h⟩
  have hbounded := sums_sample (fun s => s.cstats a) (fun e => e.2.asgt = a) Bounded
    (fun s e grades he h => by
      obtain rfl : e.2.asgt = a := by simpa using he
      obtain ⟨hvalid, hmin, hmax⟩ := boundScore_class s e.1 e.2 lt_irrefl
      obtain ⟨hvalid', hmin', hmax'⟩ := sumScore_class s e.1 e.2
      exact h.step (hvalid'.trans hvalid) (hmin'.trans hmin) (hmax'.trans hmax))
    (fun s e he => sumScore_class_other s e.1 e.2 a (by simpa using he))
      (entries (doLinks c)) hstart
  rw [List.nil_append, ← forScores_eq] at hbounded
  rw [← class_grades 0, ← doLinks_eq c hn]
  intro hne
  obtain ⟨hmin, hmax⟩ :=
    moments_bounds sqrt
    ((doSums (doLinks c) (doQuantiles (doFreqs (doLinks c) (buildstats n)))).cstats a)
  have hbounds := hbounded.bounds hne
  simp only [statistics, doMoments, hmin, hmax]
  exact hbounds

theorem statistics_section (sqrt : ℚ → ℚ) (c : Course ℚ n) (a : Fin n) {j : Nat}
    (hj : j < c.sections.length) :
    ∀ g, (gradesOf a (scoresOf c.sections[j])).head? = some g →
      ((statistics sqrt c).sstats a j).min = g ∧ ((statistics sqrt c).sstats a j).max = g := by
  have hn : n ≠ 0 := fun hn => (hn ▸ a).elim0
  have hstart : Opened [] ((doQuantiles (doFreqs (doLinks c) (buildstats n))).sstats a j) :=
    ⟨(doFreqs_valid _ a j).2, by simp⟩
  have hopened := sums_sample (fun s => s.sstats a j) (fun e => e.2.asgt = a ∧ e.1 = j) Opened
    (fun s e grades he h => by
      obtain ⟨rfl, rfl⟩ : e.2.asgt = a ∧ e.1 = j := by simpa using he
      obtain ⟨hvalid, hmin, hmax⟩ := boundScore_section s e.1 e.2
      obtain ⟨hvalid', hmin', hmax'⟩ := sumScore_section s e.1 e.2
      exact h.step (hvalid'.trans hvalid) (hmin'.trans hmin) (hmax'.trans hmax))
    (fun s e he => sumScore_section_other s e.1 j e.2 a (by simpa using he))
      (entries (doLinks c)) hstart
  rw [List.nil_append, ← forScores_eq] at hopened
  have hgrades := section_grades 0 c.sections a hj
  rw [Nat.zero_add] at hgrades
  intro g hg
  rw [← hgrades, ← doLinks_eq c hn] at hg
  obtain ⟨hmin, hmax⟩ := moments_bounds sqrt
    ((doSums (doLinks c) (doQuantiles (doFreqs (doLinks c) (buildstats n)))).sstats a j)
  have hfirst := hopened.first g hg
  simp only [statistics, doMoments, hmin, hmax]
  exact hfirst

-- The bounds of the class are right. Those of a section are the first score twice.
theorem statistics_extremes_iff (sqrt : ℚ → ℚ) (c : Course ℚ n) :
    (∀ a, Extremes (gradesOf a (c.sections.flatMap scoresOf)) ((statistics sqrt c).cstats a) ∧
      ∀ j (hj : j < c.sections.length),
        Extremes (gradesOf a (scoresOf c.sections[j])) ((statistics sqrt c).sstats a j)) ↔
    ∀ a, ∀ s ∈ c.sections, ∀ g ∈ gradesOf a (scoresOf s), ∀ g' ∈ gradesOf a (scoresOf s), g =
      g' := by
  constructor
  · intro h a s hs g hg g' hg'
    obtain ⟨j, hj, rfl⟩ := List.getElem_of_mem hs
    obtain ⟨⟨-, hleast⟩, -, hgreatest⟩ := (h a).2 j hj (List.ne_nil_of_mem hg)
    obtain ⟨first, hfirst⟩ : ∃ first, (gradesOf a (scoresOf c.sections[j])).head? = some first :=
      ⟨_, List.head?_eq_some_head (List.ne_nil_of_mem hg)⟩
    obtain ⟨hmin, hmax⟩ := statistics_section sqrt c a hj first hfirst
    rw [hmin] at hleast
    rw [hmax] at hgreatest
    have heq (x : ℚ) (hx : x ∈ gradesOf a (scoresOf c.sections[j])) : x = first :=
      le_antisymm (hgreatest hx) (hleast hx)
    rw [heq g hg, heq g' hg']
  · intro h a
    refine ⟨statistics_class sqrt c a, fun j hj hne => ?_⟩
    obtain ⟨first, hfirst⟩ : ∃ first, (gradesOf a (scoresOf c.sections[j])).head? = some first :=
      ⟨_, List.head?_eq_some_head hne⟩
    have hmem : first ∈ gradesOf a (scoresOf c.sections[j]) := List.mem_of_mem_head? hfirst
    have heq (x : ℚ) (hx : x ∈ gradesOf a (scoresOf c.sections[j])) : x = first :=
      h a _ (List.getElem_mem hj) x hx first hmem
    obtain ⟨hmin, hmax⟩ := statistics_section sqrt c a hj first hfirst
    rw [hmin, hmax]
    exact ⟨⟨hmem, fun x hx => (heq x hx).ge⟩, hmem, fun x hx => (heq x hx).le⟩

-- A section whose second score is larger than the first one.
theorem statistics_extremes_not :
    ¬∀ a, Extremes (gradesOf a
      ((quizCourse [quizSection 65 [quizStudent 1 [quizScore 4, quizScore 6]]]).sections.flatMap
        scoresOf))
          ((statistics id (quizCourse
          [quizSection 65 [quizStudent 1 [quizScore 4, quizScore 6]]])).cstats a) ∧
      ∀ j (hj : j < (quizCourse [quizSection 65 [quizStudent 1 [quizScore 4,
        quizScore 6]]]).sections.length),
        Extremes (gradesOf a (scoresOf (quizCourse [quizSection 65 [quizStudent 1
            [quizScore 4, quizScore 6]]]).sections[j]))
          ((statistics id (quizCourse
            [quizSection 65 [quizStudent 1 [quizScore 4, quizScore 6]]])).sstats a j) := by
  intro h
  have hbounds := (h 0).2 0 (by decide) (by decide)
  have hmax :
      ((statistics id (quizCourse
      [quizSection 65 [quizStudent 1 [quizScore 4, quizScore 6]]])).sstats 0 0).max =
      4 := by decide +kernel
  have hle : (6 : ℚ) ≤ 4 := hmax ▸ hbounds.2.2 (by decide)
  exact absurd hle (by decide)

end CSE320.Grades
