import CSE320.Grades.Normal
import CSE320.Grades.Tables

namespace CSE320.Grades

variable {n : Nat}

def clampSample (p : Sample ℚ) : Sample ℚ := setStddev (clamp p.stddev) p

-- What is under way once everything that is too small has been replaced.
def settle (g : Grading n) : Grading n where
  assignments a := { g.assignments a with max := clamp (g.assignments a).max }
  stats := ⟨fun a => clampSample (g.stats.cstats a), fun a i => clampSample (g.stats.sstats a i)⟩

-- The sample that an assignment is normalized over.
def group (asgt : Assignment ℚ) (cls sec : Sample ℚ) : Sample ℚ :=
  match asgt.ngroup with
  | .byclass => cls
  | .bysection => sec

-- The normalized value of a raw score.
def valueOf (asgt : Assignment ℚ) (cls sec : Sample ℚ) (s : ℚ) : ℚ :=
  match asgt.npolicy with
  | .raw => s
  | .linear =>
      linear s (group asgt cls sec).mean (clamp (group asgt cls sec).stddev) asgt.mean asgt.stddev
  | .scale => scale s (clamp asgt.max) asgt.scale
  | .quantile => percentile s (group asgt cls sec)

def valueIn (g : Grading n) (i : Nat) (a : Fin n) (s : ℚ) : ℚ :=
  valueOf (g.assignments a) (g.stats.cstats a) (g.stats.sstats a i) s

section

variable (asgts : Fin n → Assignment ℚ) (value : Fin n → ℚ → ℚ)

-- The average over the scores of one type.
def likeAvg (t : Text) (scores : List (Score ℚ n)) : ℚ :=
  (scores.foldl (fun (r : Avg) (sc : Score ℚ n) => if (asgts sc.asgt).atype = t ∧ counted sc then
    r.add (value sc.asgt sc.grade) (asgts sc.asgt) else r) ⟨0, false, 0, 0⟩).result

def normscoreOf (scores : List (Score ℚ n)) (sc : Score ℚ n) : Normscore ℚ n where
  asgt := sc.asgt
  grade :=
    if sc.flag = .valid then
      value sc.asgt sc.grade
    else
      match sc.subst with
      | .useraw => value sc.asgt sc.grade
      | .usenorm => if (asgts sc.asgt).npolicy = .quantile then sc.qnorm else sc.lnorm
      | .uselikeavg => likeAvg asgts value (asgts sc.asgt).atype scores
      | .useclassavg => if (asgts sc.asgt).npolicy = .quantile then 50 else (asgts sc.asgt).mean
  flag := sc.flag
  subst := sc.subst

def normalizedOf (st : Student ℚ n) : Student ℚ n :=
  { st with normscores := st.rawscores.map (normscoreOf asgts value st.rawscores) }

def gradedOf (st : Student ℚ n) : Student ℚ n :=
  let st := normalizedOf asgts value st
  { st with composite := compositeOf asgts st.normscores }

end

variable {g g' : Grading n} {t : Grading n} {s : ℚ} {a : Fin n} {i : Nat}

theorem clamp_double : clamp (2 * epsilon) = 2 * epsilon := if_neg (by norm_num [epsilon])

theorem clamp_small {x : ℚ} (h : x < epsilon) : clamp x = 2 * epsilon := if_pos h

theorem clamp_clamp (x : ℚ) : clamp (clamp x) = clamp x := by
  by_cases h : x < epsilon
  · rw [clamp_small h, clamp_double]
  · have hlarge : clamp x = x := if_neg h
    rw [hlarge, hlarge]

theorem valueIn_settle (g : Grading n) (i : Nat) (a : Fin n) (s : ℚ) :
    valueIn (settle g) i a s = valueIn g i a s := by
  simp only [valueIn, valueOf, settle, group]
  cases hpolicy : (g.assignments a).npolicy with
  | raw => rfl
  | linear =>
      cases hgroup : (g.assignments a).ngroup <;> simp only [clampSample, setStddev, clamp_clamp]
  | scale => simp only [clamp_clamp]
  | quantile =>
      cases hgroup : (g.assignments a).ngroup <;> rfl

theorem settle_setClass (h : (g.stats.cstats a).stddev < epsilon) :
    settle { g with stats := g.stats.setClass a (setStddev (2 * epsilon)) } = settle g := by
  have hclamp : clamp (2 * epsilon) = clamp (g.stats.cstats a).stddev := by
    rw [clamp_small h, clamp_double]
  simp only [settle, Grading.mk.injEq, Stats.mk.injEq, true_and, Stats.sstats_setClass, and_true]
  funext b
  by_cases hb : b = a
  · subst hb
    simp only [Stats.cstats_setClass, if_true, clampSample, setStddev, hclamp]
  · simp only [Stats.cstats_setClass, if_neg hb]

theorem settle_setSection (h : (g.stats.sstats a i).stddev < epsilon) :
    settle { g with stats := g.stats.setSection a i (setStddev (2 * epsilon)) } = settle g := by
  have hclamp : clamp (2 * epsilon) = clamp (g.stats.sstats a i).stddev := by
    rw [clamp_small h, clamp_double]
  simp only [settle, Grading.mk.injEq, Stats.mk.injEq, true_and, Stats.cstats_setSection]
  funext b j
  by_cases hb : b = a ∧ j = i
  · obtain ⟨rfl, rfl⟩ := hb
    simp only [Stats.sstats_setSection, and_self, if_true, clampSample, setStddev, hclamp]
  · simp only [Stats.sstats_setSection, if_neg hb]

theorem settle_setMax (h : (g.assignments a).max < epsilon) :
    settle { g with assignments :=
      Function.update g.assignments a { g.assignments a with max := 2 * epsilon } } =
      settle g := by
  have hclamp : clamp (2 * epsilon) = clamp (g.assignments a).max := by
    rw [clamp_small h, clamp_double]
  simp only [settle, Grading.mk.injEq, and_true]
  funext b
  by_cases hb : b = a
  · subst hb
    simp only [Function.update_self, hclamp]
  · simp only [Function.update_of_ne hb]

-- The first call that clamps a value gives what every later call gives.
theorem normal_spec (s : ℚ) (a : Fin n) (i : Nat) (g : Grading n) :
    (normal s a i g).1 = valueIn g i a s ∧ settle (normal s a i g).2 = settle g := by
  cases hpolicy : (g.assignments a).npolicy with
  | raw => simp only [normal, valueIn, valueOf, hpolicy, and_self]
  | linear =>
      cases hgroup : (g.assignments a).ngroup with
      | byclass =>
          by_cases hsmall : (g.stats.cstats a).stddev < epsilon
          · simp only [normal, valueIn, valueOf, group, hpolicy, hgroup, if_pos hsmall,
              settle_setClass hsmall, Stats.cstats_setClass, if_true, setStddev, clamp, and_self]
          · simp only [normal, valueIn, valueOf, group, hpolicy, hgroup, if_neg hsmall,
              clamp, and_self]
      | bysection =>
          by_cases hsmall : (g.stats.sstats a i).stddev < epsilon
          · simp only [normal, valueIn, valueOf, group, hpolicy, hgroup, if_pos hsmall,
              settle_setSection hsmall, Stats.sstats_setSection, and_self, if_true,
              setStddev, clamp]
          · simp only [normal, valueIn, valueOf, group, hpolicy, hgroup, if_neg hsmall,
              clamp, and_self]
  | scale =>
      by_cases hsmall : (g.assignments a).max < epsilon
      · have hsettle := settle_setMax hsmall
        simp only [hpolicy] at hsettle
        simp only [normal, valueIn, valueOf, hpolicy, if_pos hsmall, hsettle, Function.update_self,
          clamp, and_self]
      · simp only [normal, valueIn, valueOf, hpolicy, if_neg hsmall, clamp, and_self]
  | quantile =>
      cases hgroup : (g.assignments a).ngroup <;>
        simp only [normal, valueIn, valueOf, group, hpolicy, hgroup, and_self]

section

-- Everything small has been replaced in t, and g comes to t.
variable (hg : settle g = t)
include hg

theorem asgt_of (a : Fin n) : ∃ x, t.assignments a = { g.assignments a with max := x } := by
  subst hg
  exact ⟨_, rfl⟩

theorem normal_of (s : ℚ) (a : Fin n) (i : Nat) :
    (normal s a i g).1 = valueIn t i a s ∧ settle (normal s a i g).2 = t := by
  obtain ⟨hvalue, hsettle⟩ := normal_spec s a i g
  subst hg
  exact ⟨hvalue.trans (valueIn_settle g i a s).symm, hsettle⟩

theorem likeScores_of (ty : Text) (i : Nat) (scores : List (Score ℚ n)) (r : Avg) :
    (likeScores ty i scores r g).1 = scores.foldl (fun (r : Avg) (sc : Score ℚ n) =>
      if (t.assignments sc.asgt).atype = ty ∧ counted sc then
        r.add (valueIn t i sc.asgt sc.grade) (t.assignments sc.asgt) else r) r ∧
      settle (likeScores ty i scores r g).2 = t := by
  induction scores generalizing r g with
  | nil => exact ⟨rfl, hg⟩
  | cons sc rest ih =>
      obtain ⟨x, hx⟩ := asgt_of hg sc.asgt
      obtain ⟨hvalue, hsettle⟩ := normal_of hg sc.grade sc.asgt i
      obtain ⟨y, hy⟩ := asgt_of hsettle sc.asgt
      have hadd (v : ℚ) : r.add v (t.assignments sc.asgt) =
          r.add v ((normal sc.grade sc.asgt i g).2.assignments sc.asgt) := by
        rw [hy]
        rfl
      have hatype : (t.assignments sc.asgt).atype = (g.assignments sc.asgt).atype := by rw [hx]
      rw [List.foldl_cons, hadd, ← hvalue, hatype]
      by_cases hlike : (g.assignments sc.asgt).atype = ty ∧ counted sc
      · simp only [likeScores, if_pos hlike]
        exact ih hsettle _
      · simp only [likeScores, if_neg hlike]
        exact ih hg _

theorem normalizeScore_of (st : Student ℚ n) (i : Nat) (sc : Score ℚ n) :
    (normalizeScore st i sc g).1 = normscoreOf t.assignments (valueIn t i) st.rawscores sc ∧
      settle (normalizeScore st i sc g).2 = t := by
  obtain ⟨hvalue, hsettle⟩ := normal_of hg sc.grade sc.asgt i
  obtain ⟨x, hx⟩ := asgt_of hg sc.asgt
  have hpolicy : (t.assignments sc.asgt).npolicy = (g.assignments sc.asgt).npolicy := by rw [hx]
  have hmean : (t.assignments sc.asgt).mean = (g.assignments sc.asgt).mean := by rw [hx]
  have hatype : (t.assignments sc.asgt).atype = (g.assignments sc.asgt).atype := by rw [hx]
  simp only [normalizeScore, normscoreOf, hpolicy, hmean, hatype]
  by_cases hflag : sc.flag = .valid
  · simp only [if_pos hflag, hvalue]
    exact ⟨trivial, hsettle⟩
  · simp only [if_neg hflag]
    cases sc.subst with
    | useraw => exact ⟨by rw [hvalue], hsettle⟩
    | usenorm => exact ⟨rfl, hg⟩
    | uselikeavg =>
        obtain ⟨havg, hsettle'⟩ :=
          likeScores_of hg (g.assignments sc.asgt).atype i st.rawscores ⟨0, false, 0, 0⟩
        refine ⟨?_, hsettle'⟩
        simp only [studentavg, havg, likeAvg]
    | useclassavg => exact ⟨rfl, hg⟩

end

-- A loop whose steps do not depend on what is under way is a map.
theorem eachOf_map {α β : Type} (f : α → Grading n → β × Grading n) (h : α → β)
    (hf : ∀ x g, settle g = t → (f x g).1 = h x ∧ settle (f x g).2 = t) (xs : List α)
    (hg : settle g = t) :
    (eachOf f xs g).1 = xs.map h ∧ settle (eachOf f xs g).2 = t := by
  induction xs generalizing g with
  | nil => exact ⟨rfl, hg⟩
  | cons x rest ih =>
      obtain ⟨hx, hsettle⟩ := hf x g hg
      obtain ⟨hrest, hsettle'⟩ := ih hsettle
      simp only [eachOf, hx, hrest, List.map_cons]
      exact ⟨trivial, hsettle'⟩

theorem normalizeStudent_of (i : Nat) (st : Student ℚ n) (g : Grading n) (hg : settle g = t) :
    (normalizeStudent i st g).1 = normalizedOf t.assignments (valueIn t i) st ∧
      settle (normalizeStudent i st g).2 = t := by
  obtain ⟨hscores, hsettle⟩ :=
    eachOf_map (normalizeScore st i) (normscoreOf t.assignments (valueIn t i) st.rawscores)
    (fun sc g hg => normalizeScore_of hg st i sc) st.rawscores hg
  simp only [normalizeStudent, hscores, normalizedOf]
  exact ⟨trivial, hsettle⟩

-- The sections with the students mapped, each section by its place.
def eachSection (h : Nat → Student ℚ n → Student ℚ n) :
    Nat → List (Section ℚ n) → List (Section ℚ n)
  | _, [] => []
  | i, s :: rest => { s with roster := s.roster.map (h i) } :: eachSection h (i + 1) rest

theorem normalizeFrom_of (sections : List (Section ℚ n)) (i : Nat) (g : Grading n)
    (hg : settle g = t) :
    (normalizeFrom i sections g).1 =
      eachSection (fun i => normalizedOf t.assignments (valueIn t i)) i sections ∧
      settle (normalizeFrom i sections g).2 = t := by
  induction sections generalizing i g with
  | nil => exact ⟨rfl, hg⟩
  | cons s rest ih =>
      obtain ⟨hroster, hsettle⟩ :=
        eachOf_map (normalizeStudent i) (normalizedOf t.assignments (valueIn t i))
        (normalizeStudent_of i) s.roster hg
      obtain ⟨hrest, hsettle'⟩ := ih (i + 1) _ hsettle
      simp only [normalizeFrom, hroster, hrest, eachSection]
      exact ⟨trivial, hsettle'⟩

theorem compositeOf_settle (hg : settle g = t) (normscores : List (Normscore ℚ n)) :
    compositeOf g.assignments normscores = compositeOf t.assignments normscores := by
  subst hg
  rfl

-- The grades do not depend on the order in which values are clamped.
theorem grade_sections (sqrt : ℚ → ℚ) (c : Course ℚ n) (hn : n ≠ 0)
    (ht : settle ⟨c.assignments.get, statistics sqrt c⟩ = t) :
    (grade sqrt c).sections =
      eachSection (fun i => gradedOf t.assignments (valueIn t i)) 0 c.sections := by
  obtain ⟨hsections, hsettle⟩ := normalizeFrom_of c.sections 0 _ ht
  have hmap (i : Nat) (sections : List (Section ℚ n)) :
      (eachSection (fun i => normalizedOf t.assignments (valueIn t i)) i sections).map
        (composites t.assignments) =
        eachSection (fun i => gradedOf t.assignments (valueIn t i)) i sections := by
    induction sections generalizing i with
    | nil => rfl
    | cons s rest ih =>
        rw [eachSection, List.map_cons, ih]
        simp [eachSection, composites, gradedOf, List.map_map, Function.comp_def]
  have hcomposites :
      composites (normalizeFrom 0 c.sections ⟨c.assignments.get, statistics sqrt c⟩).2.assignments =
      composites t.assignments := by
    funext s
    simp only [composites, compositeOf_settle hsettle]
  simp only [grade, if_neg hn, hsections, hcomposites, hmap]

end CSE320.Grades
