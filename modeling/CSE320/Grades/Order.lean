import CSE320.Grades.Grading
import Mathlib.Data.Multiset.Bind

namespace CSE320.Grades

open Lib (Byte)

variable {n : Nat} (sqrt : ℚ → ℚ)

-- The class statistics of an assignment.
def classSample (c : Course ℚ n) (a : Fin n) : Sample ℚ :=
  sampleOf sqrt (gradesOf a (c.sections.flatMap scoresOf))

def sectionSample (s : Section ℚ n) (a : Fin n) : Sample ℚ :=
  sampleOf sqrt (gradesOf a (scoresOf s))

-- A section with its grades, which are made of the grades of the class and its own.
def gradedSection (c : Course ℚ n) (s : Section ℚ n) : Section ℚ n :=
  { s with roster := s.roster.map (gradedOf c.assignments.get fun a =>
      valueOf (c.assignments.get a) (classSample sqrt c a) (sectionSample sqrt s a)) }

-- The same student, with the scores in some order.
structure SameEntry (st st' : Student ℚ n) : Prop where
  id : st'.id = st.id
  surname : st'.surname = st.surname
  name : st'.name = st.name
  normscores : st'.normscores = st.normscores
  composite : st'.composite = st.composite
  rawscores : st.rawscores.Perm st'.rawscores

-- The same section, with the students in some order.
structure SameRoster (s s' : Section ℚ n) : Prop where
  name : s'.name = s.name
  assistant : s'.assistant = s.assistant
  roster : Multiset.Rel SameEntry (s.roster : Multiset (Student ℚ n))
    (s'.roster : Multiset (Student ℚ n))

-- The same course, with the sections in some order.
structure Reordered (c c' : Course ℚ n) : Prop where
  number : c'.number = c.number
  title : c'.title = c.title
  professor : c'.professor = c.professor
  assignments : c'.assignments = c.assignments
  sections : Multiset.Rel SameRoster (c.sections : Multiset (Section ℚ n))
    (c'.sections : Multiset (Section ℚ n))

-- The same student with the same normalized grade for each score, and the same
-- composite.
structure SameGrades (st st' : Student ℚ n) : Prop where
  id : st'.id = st.id
  surname : st'.surname = st.surname
  name : st'.name = st.name
  grades : (st.rawscores.zip st.normscores).Perm (st'.rawscores.zip st'.normscores)
  composite : st'.composite = st.composite

structure SameReport (s s' : Section ℚ n) : Prop where
  name : s'.name = s.name
  assistant : s'.assistant = s.assistant
  roster : Multiset.Rel SameGrades (s.roster : Multiset (Student ℚ n))
    (s'.roster : Multiset (Student ℚ n))

variable {sqrt} {c c' : Course ℚ n} {s s' : Section ℚ n} {st st' : Student ℚ n}
  {asgts : Fin n → Assignment ℚ} {value : Fin n → ℚ → ℚ}

theorem valueOf_core (asgt : Assignment ℚ) (cls sec : Sample ℚ) :
    valueOf asgt (core cls) (core sec) = valueOf asgt cls sec := by
  funext x
  simp only [valueOf, group, core]
  cases asgt.npolicy <;> cases asgt.ngroup <;> rfl

-- The statistics of the class are those of all its grades.
theorem core_class (sqrt : ℚ → ℚ) (c : Course ℚ n) (hn : n ≠ 0) (a : Fin n) :
    core ((statistics sqrt c).cstats a) = classSample sqrt c a := by
  rw [statistics_cstats, doLinks_eq c hn, class_grades]
  rfl

theorem value_at (sqrt : ℚ → ℚ) (c : Course ℚ n) (hn : n ≠ 0) {i : Nat} (hi : i < c.sections.length)
    (a : Fin n) :
    valueIn (settle ⟨c.assignments.get, statistics sqrt c⟩) i a =
      valueOf (c.assignments.get a) (classSample sqrt c a)
        (sectionSample sqrt c.sections[i] a) := by
  have hclass := core_class sqrt c hn a
  have hsection : core ((statistics sqrt c).sstats a i) = sectionSample sqrt c.sections[i] a := by
    rw [statistics_sstats, doLinks_eq c hn, sectionSample, ← section_grades 0 c.sections a hi]
    simp only [Nat.zero_add]
  funext x
  rw [valueIn_settle, ← hclass, ← hsection, valueOf_core]
  rfl

-- What the three passes come to.
theorem grade_eq_map (sqrt : ℚ → ℚ) (c : Course ℚ n) (hn : n ≠ 0) :
    (grade sqrt c).sections = c.sections.map (gradedSection sqrt c) := by
  rw [grade_sections sqrt c hn rfl]
  have heach (h : Nat → Student ℚ n → Student ℚ n) (i : Nat) (sections : List (Section ℚ n))
      (hsame : ∀ j (hj : j < sections.length), h (i + j) = gradedOf c.assignments.get fun a =>
        valueOf (c.assignments.get a) (classSample sqrt c a) (sectionSample sqrt sections[j] a)) :
      eachSection h i sections = sections.map (gradedSection sqrt c) := by
    induction sections generalizing i with
    | nil => rfl
    | cons s rest ih =>
        have hfirst := hsame 0 (by simp)
        rw [Nat.add_zero] at hfirst
        rw [eachSection, List.map_cons, hfirst, ih (i + 1) ?_]
        · rfl
        · intro j hj
          have hplace := hsame (j + 1) (by simpa using hj)
          simp only [List.getElem_cons_succ] at hplace
          rw [← hplace]
          congr 1
          omega
  refine heach _ 0 c.sections fun j hj => ?_
  rw [Nat.zero_add]
  have hvalue : valueIn (settle ⟨c.assignments.get, statistics sqrt c⟩) j = fun a =>
      valueOf (c.assignments.get a) (classSample sqrt c a) (sectionSample sqrt c.sections[j] a) :=
    funext fun a => value_at sqrt c hn hj a
  rw [hvalue]
  rfl

-- The average does not depend on the order of the scores.
theorem likeAvg_perm (t : Text) {scores scores' : List (Score ℚ n)} (h : scores.Perm scores') :
    likeAvg asgts value t scores = likeAvg asgts value t scores' := by
  rw [likeAvg, likeAvg]
  refine congrArg Avg.result (h.foldl_eq' (fun x _ y _ r => ?_) _)
  by_cases hx : (asgts x.asgt).atype = t ∧ counted x
    <;> by_cases hy : (asgts y.asgt).atype = t ∧ counted y
  · simp only [if_pos hx, if_pos hy, Avg.add]
    by_cases hwx : (asgts x.asgt).wpolicy = .weight
      <;> by_cases hwy : (asgts y.asgt).wpolicy = .weight <;>
      simp only [if_pos, if_neg, hwx, hwy, not_false_eq_true, Avg.mk.injEq, true_and, and_true]
    · exact ⟨add_right_comm _ _ _, add_right_comm _ _ _⟩
    · exact add_right_comm _ _ _
    · exact add_right_comm _ _ _
    · exact add_right_comm _ _ _
  · simp only [if_pos hx, if_neg hy]
  · simp only [if_neg hx, if_pos hy]
  · simp only [if_neg hx, if_neg hy]

theorem normscoreOf_perm {scores scores' : List (Score ℚ n)} (h : scores.Perm scores') :
    normscoreOf asgts value scores = normscoreOf asgts value scores' := by
  funext sc
  simp only [normscoreOf, likeAvg_perm _ h]

theorem compositeOf_perm {normscores normscores' : List (Normscore ℚ n)}
    (h : normscores.Perm normscores') :
    compositeOf asgts normscores = compositeOf asgts normscores' := by
  rw [compositeOf, compositeOf]
  congr 1
  funext sum a
  refine h.foldl_eq' (fun x _ y _ sum => ?_) sum
  by_cases hx : x.asgt = a <;> by_cases hy : y.asgt = a
  · simp only [if_pos hx, if_pos hy]
    exact add_right_comm _ _ _
  · simp only [if_pos hx, if_neg hy]
  · simp only [if_neg hx, if_pos hy]
  · simp only [if_neg hx, if_neg hy]

-- A student is given the same grades for the scores in any order.
theorem SameEntry.graded (h : SameEntry st st') :
    SameGrades (gradedOf asgts value st) (gradedOf asgts value st') where
  id := h.id
  surname := h.surname
  name := h.name
  grades := by
    simp only [gradedOf, normalizedOf, ← normscoreOf_perm h.rawscores]
    have hzip (scores : List (Score ℚ n)) :
        scores.zip (scores.map (normscoreOf asgts value st.rawscores)) =
        scores.map fun sc => (sc, normscoreOf asgts value st.rawscores sc) := by
      induction scores with
      | nil => rfl
      | cons sc rest ih => rw [List.map_cons, List.zip_cons_cons, ih, List.map_cons]
    rw [hzip, hzip]
    exact h.rawscores.map _
  composite := by
    simp only [gradedOf, normalizedOf, ← normscoreOf_perm h.rawscores]
    exact (compositeOf_perm (h.rawscores.map _)).symm

theorem SameRoster.scores (h : SameRoster s s') : (scoresOf s).Perm (scoresOf s') := by
  have hbind := Multiset.rel_bind (p := Eq) (f := fun st => (st.rawscores : Multiset (Score ℚ n)))
    (g := fun st => (st.rawscores : Multiset (Score ℚ n)))
    (fun st st' (hst : SameEntry st st') =>
      Multiset.rel_eq.mpr (Multiset.coe_eq_coe.mpr hst.rawscores)) h.roster
  rw [Multiset.rel_eq, Multiset.coe_bind, Multiset.coe_bind] at hbind
  exact Multiset.coe_eq_coe.mp hbind

theorem Reordered.scores (h : Reordered c c') :
    (c.sections.flatMap scoresOf).Perm (c'.sections.flatMap scoresOf) := by
  have hbind := Multiset.rel_bind (p := Eq) (f := fun s => (scoresOf s : Multiset (Score ℚ n)))
    (g := fun s => (scoresOf s : Multiset (Score ℚ n)))
    (fun s s' (hs : SameRoster s s') => Multiset.rel_eq.mpr (Multiset.coe_eq_coe.mpr hs.scores))
      h.sections
  rw [Multiset.rel_eq, Multiset.coe_bind, Multiset.coe_bind] at hbind
  exact Multiset.coe_eq_coe.mp hbind

-- The statistics of the class and of each section are those before.
theorem Reordered.classSample (h : Reordered c c') (a : Fin n) :
    classSample sqrt c' a = classSample sqrt c a :=
  (sampleOf_perm sqrt (gradesOf_perm a h.scores)).symm

theorem SameRoster.sectionSample (h : SameRoster s s') (a : Fin n) :
    sectionSample sqrt s' a = sectionSample sqrt s a :=
  (sampleOf_perm sqrt (gradesOf_perm a h.scores)).symm

theorem Reordered.graded (h : Reordered c c') (hs : SameRoster s s') :
    SameReport (gradedSection sqrt c s) (gradedSection sqrt c' s') where
  name := hs.name
  assistant := hs.assistant
  roster := by
    simp only [gradedSection, h.assignments, h.classSample, hs.sectionSample, ← Multiset.map_coe]
    exact Multiset.rel_map.mpr (hs.roster.mono fun st _ st' _ hst => hst.graded)

-- Without assignments nobody has a score, and nothing is graded.
theorem SameRoster.report (h : SameRoster s s') (hn : n = 0) : SameReport s s' where
  name := h.name
  assistant := h.assistant
  roster := by
    refine h.roster.mono fun st _ st' _ hst => ⟨hst.id, hst.surname, hst.name, ?_, hst.composite⟩
    subst hn
    have hnone (scores : List (Score ℚ 0)) : scores = [] :=
      List.eq_nil_iff_forall_not_mem.mpr fun sc _ => sc.asgt.elim0
    rw [hnone st.rawscores, hnone st'.rawscores]
    exact List.Perm.refl _

-- The grades do not depend on the order in which the sections, the students and the
-- scores are entered.
theorem sameReport_of_reordered (sqrt : ℚ → ℚ) (h : Reordered c c') :
    Multiset.Rel SameReport ((grade sqrt c).sections : Multiset (Section ℚ n))
      (grade sqrt c').sections := by
  by_cases hn : n = 0
  · simp only [grade, if_pos hn]
    exact h.sections.mono fun s _ s' _ hs => hs.report hn
  · rw [grade_eq_map sqrt c hn, grade_eq_map sqrt c' hn, ← Multiset.map_coe, ← Multiset.map_coe]
    exact Multiset.rel_map.mpr (h.sections.mono fun s _ s' _ hs => h.graded hs)

def quiz : Assignment ℚ :=
  { name := [113], atype := [81], wpolicy := .noweight, weight := 0, npolicy := .linear, max :=
    10, mean := 50, stddev := 10, scale := 0, ngroup := .byclass }

def quizScore (grade : ℚ) : Score ℚ 1 := ⟨0, grade, 0, 0, 0, .valid, [], .useraw⟩

def quizSection (name : Byte) (roster : List (Student ℚ 1)) : Section ℚ 1 := ⟨[name], none, roster⟩

def quizStudent (id : Byte) (rawscores : List (Score ℚ 1)) : Student ℚ 1 :=
  ⟨[id], [id], [id], rawscores, [], 0⟩

def quizCourse (sections : List (Section ℚ 1)) : Course ℚ 1 :=
  ⟨[67], [84], none, #v[quiz], sections⟩

-- Two students and two sections that change places.
theorem sameReport_of_mixed : Multiset.Rel SameReport
    ((grade id (quizCourse
      [quizSection 65 [quizStudent 1 [quizScore 4, quizScore 6], quizStudent 2 [quizScore 9]],
      quizSection 66 [quizStudent 3 [quizScore 5]]])).sections : Multiset (Section ℚ 1))
    (grade id (quizCourse [quizSection 66 [quizStudent 3 [quizScore 5]],
      quizSection 65 [quizStudent 2 [quizScore 9],
        quizStudent 1 [quizScore 6, quizScore 4]]])).sections := by
  refine sameReport_of_reordered id ⟨rfl, rfl, rfl, rfl, ?_⟩
  have hscores : SameEntry (quizStudent 1 [quizScore 4, quizScore 6])
      (quizStudent 1 [quizScore 6, quizScore 4]) :=
    ⟨rfl, rfl, rfl, rfl, rfl, List.Perm.swap _ _ _⟩
  have hsame (st : Student ℚ 1) : SameEntry st st := ⟨rfl, rfl, rfl, rfl, rfl, List.Perm.refl _⟩
  have hfirst : SameRoster
      (quizSection 65 [quizStudent 1 [quizScore 4, quizScore 6], quizStudent 2 [quizScore 9]])
      (quizSection 65 [quizStudent 2 [quizScore 9], quizStudent 1 [quizScore 6, quizScore 4]]) := by
    refine ⟨rfl, rfl, ?_⟩
    rw [quizSection, quizSection,
      Multiset.coe_eq_coe.mpr (List.Perm.swap (quizStudent 1 [quizScore 6, quizScore 4])
      (quizStudent 2 [quizScore 9]) [])]
    exact .cons hscores (.cons (hsame _) .zero)
  have hsecond : SameRoster (quizSection 66 [quizStudent 3 [quizScore 5]])
      (quizSection 66 [quizStudent 3 [quizScore 5]]) := ⟨rfl, rfl, .cons (hsame _) .zero⟩
  rw [quizCourse, quizCourse,
    Multiset.coe_eq_coe.mpr (List.Perm.swap (quizSection 65 _) (quizSection 66 _) [])]
  exact .cons hfirst (.cons hsecond .zero)

end CSE320.Grades
