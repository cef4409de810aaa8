import CSE320.Grades.Order
import Mathlib.Algebra.BigOperators.Fin
import Mathlib.Algebra.BigOperators.Ring.List

namespace CSE320.Grades

variable {n : Nat}

-- A line of reportscores, with the numbers that it prints.
structure Row where
  name : Text
  raw : Option ℚ
  norm : ℚ
  classAvg : ℚ
  sectAvg : ℚ
  note : Option Text
deriving DecidableEq

-- The loop of reportscores over the scores of a student, who is in section i. It goes
-- along both lists, and at the end of the second one it uses a NULL pointer.
def reportscores (asgts : Fin n → Assignment ℚ) (stats : Stats ℚ n) (i : Nat) :
    List (Score ℚ n) → List (Normscore ℚ n) → Option (List Row)
  | [], _ => some []
  | _ :: _, [] => none
  | rsc :: rscores, nsc :: nscores => do
    let rows ← reportscores asgts stats i rscores nscores
    let row : Row :=
      { name := (asgts rsc.asgt).name
        raw := if counted rsc then some rsc.grade else none
        norm := nsc.grade
        classAvg := (stats.cstats rsc.asgt).mean
        sectAvg := (stats.sstats rsc.asgt i).mean
        note := if rsc.flag = .invalid then some rsc.code else none }
    return row :: rows

-- The factor of an assignment in the composite.
def weightOf (asgt : Assignment ℚ) : ℚ := if asgt.wpolicy = .weight then asgt.weight else 1

-- A normalized score belongs to a raw one.
structure Belongs (nsc : Normscore ℚ n) (rsc : Score ℚ n) : Prop where
  asgt : nsc.asgt = rsc.asgt
  flag : nsc.flag = rsc.flag
  subst : nsc.subst = rsc.subst

-- A student with the grades, and the same student before.
structure Graded (asgts : Fin n → Assignment ℚ) (st' st : Student ℚ n) : Prop where
  rawscores : st'.rawscores = st.rawscores
  parallel : List.Forall₂ Belongs st'.normscores st'.rawscores
  reported : ∀ stats i, (reportscores asgts stats i st'.rawscores st'.normscores).isSome
  composite : st'.composite =
    (st'.normscores.map fun nsc => nsc.grade * weightOf (asgts nsc.asgt)).sum

-- A loop that adds something for some of the entries.
theorem foldl_add_if {α : Type} (f : α → ℚ) (p : α → Prop) [DecidablePred p]
    (xs : List α) (sum : ℚ) :
    xs.foldl (fun sum x => if p x then sum + f x else sum) sum =
      sum + (xs.map fun x => if p x then f x else 0).sum := by
  induction xs generalizing sum with
  | nil => simp
  | cons x rest ih =>
      rw [List.foldl_cons, ih, List.map_cons, List.sum_cons]
      by_cases hx : p x
      · rw [if_pos hx, if_pos hx, add_assoc]
      · rw [if_neg hx, if_neg hx, zero_add]

theorem foldl_add {α : Type} (f : α → ℚ) (xs : List α) (sum : ℚ) :
    xs.foldl (fun sum x => sum + f x) sum = sum + (xs.map f).sum := by
  simpa using foldl_add_if f (fun _ => True) xs sum

-- Each score is met at its own assignment and at no other one.
theorem sum_asgts (f : Fin n → Normscore ℚ n → ℚ) (normscores : List (Normscore ℚ n)) :
    ((List.finRange n).map fun a => (normscores.map fun nsc => if nsc.asgt = a then f a nsc
      else 0).sum).sum =
      (normscores.map fun nsc => f nsc.asgt nsc).sum := by
  induction normscores with
  | nil => simp
  | cons nsc rest ih =>
      have hown : ((List.finRange n).map fun a => if nsc.asgt = a then f a nsc else 0).sum =
          f nsc.asgt nsc := by
        rw [← Fin.sum_univ_def, Finset.sum_ite_eq, if_pos (Finset.mem_univ _)]
      simp only [List.map_cons, List.sum_cons, List.sum_map_add, hown, ih]

theorem compositeOf_eq (asgts : Fin n → Assignment ℚ) (normscores : List (Normscore ℚ n)) :
    compositeOf asgts normscores =
      (normscores.map fun nsc => nsc.grade * weightOf (asgts nsc.asgt)).sum := by
  have hinner (a : Fin n) (sum : ℚ) : normscores.foldl (fun sum sc => if sc.asgt = a then
      sum + sc.grade * (if (asgts a).wpolicy = .weight then (asgts a).weight else 1) else sum) sum =
      sum + (normscores.map fun sc => if sc.asgt = a then sc.grade * weightOf (asgts a)
        else 0).sum :=
    foldl_add_if (fun sc => sc.grade * weightOf (asgts a)) (fun sc => sc.asgt = a) normscores sum
  simp only [compositeOf, hinner, foldl_add, zero_add]
  exact sum_asgts (fun a nsc => nsc.grade * weightOf (asgts a)) normscores

theorem reportscores_isSome (asgts : Fin n → Assignment ℚ) (stats : Stats ℚ n) (i : Nat)
    {rawscores : List (Score ℚ n)} {normscores : List (Normscore ℚ n)}
    (h : List.Forall₂ Belongs normscores rawscores) :
    (reportscores asgts stats i rawscores normscores).isSome := by
  induction h with
  | nil => rfl
  | cons _ _ ih =>
      obtain ⟨rows, hrows⟩ := Option.isSome_iff_exists.mp ih
      simp [reportscores, hrows]

-- The lists are made in one pass, whatever the scores are replaced by.
theorem gradedOf_graded (asgts : Fin n → Assignment ℚ) (value : Fin n → ℚ → ℚ) (st : Student ℚ n) :
    Graded asgts (gradedOf asgts value st) st := by
  have hparallel : List.Forall₂ Belongs (gradedOf asgts value st).normscores
      (gradedOf asgts value st).rawscores := by
    simp only [gradedOf, normalizedOf, List.forall₂_map_left_iff]
    exact List.forall₂_same.mpr fun sc _ => ⟨rfl, rfl, rfl⟩
  exact ⟨rfl, hparallel, fun stats i => reportscores_isSome asgts stats i hparallel,
    compositeOf_eq asgts _⟩

theorem grade_graded (sqrt : ℚ → ℚ) (c : Course ℚ n) (hn : n ≠ 0) :
    List.Forall₂ (fun s' s => List.Forall₂ (Graded c.assignments.get) s'.roster s.roster)
      (grade sqrt c).sections
      c.sections := by
  rw [grade_eq_map sqrt c hn, List.forall₂_map_left_iff]
  apply List.forall₂_same.mpr
  intro s _
  simp only [gradedSection, List.forall₂_map_left_iff]
  exact List.forall₂_same.mpr fun st _ => gradedOf_graded _ _ st

-- One of two scores for the same assignment is replaced by the average.
theorem grade_graded_quiz : List.Forall₂
    (fun s' s => List.Forall₂ (Graded fun _ => quiz) s'.roster s.roster)
    (grade id (quizCourse [quizSection 65 [quizStudent 1 [quizScore 4,
      { quizScore 6 with flag := .invalid, subst := .uselikeavg }]]])).sections
    [quizSection 65 [quizStudent 1 [quizScore 4,
      { quizScore 6 with flag := .invalid, subst := .uselikeavg }]]] := by
  have hget : (quizCourse [quizSection 65 [quizStudent 1 [quizScore 4,
      { quizScore 6 with flag := .invalid, subst := .uselikeavg }]]]).assignments.get =
        fun _ => quiz := by
    funext a
    match a with
    | 0 => rfl
  rw [← hget]
  exact grade_graded id _ (by decide)

end CSE320.Grades
