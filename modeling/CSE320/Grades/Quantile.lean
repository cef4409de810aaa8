import CSE320.Grades.Grading
import CSE320.Grades.Frequency
import Mathlib.Tactic.Positivity

namespace CSE320.Grades

variable {n : Nat} {grades : List ℚ} {p : Sample ℚ} {s s' : ℚ}

-- The share of the grades strictly below a score, out of 100.
def below (grades : List ℚ) (s : ℚ) : ℚ := 100 * grades.countP (· < s) / grades.length

-- The grades of the group that an assignment is normalized over.
def groupGrades (c : Course ℚ n) (a : Fin n) (i : Fin c.sections.length) : List ℚ :=
  match (c.assignments.get a).ngroup with
  | .byclass => gradesOf a (c.sections.flatMap scoresOf)
  | .bysection => gradesOf a (scoresOf (c.sections.get i))

theorem below_nonneg (grades : List ℚ) (s : ℚ) : 0 ≤ below grades s := by
  rw [below]
  positivity

-- A grade is not strictly below itself.
theorem below_lt (hs : s ∈ grades) : below grades s < 100 := by
  have hlt : grades.countP (· < s) < grades.length := by
    refine lt_of_le_of_ne List.countP_le_length fun heq => ?_
    have hall := List.countP_eq_length.mp heq s hs
    simp at hall
  have hpos : (0 : ℚ) < grades.length := by exact_mod_cast (Nat.zero_le _).trans_lt hlt
  have hlt' : (grades.countP (· < s) : ℚ) < grades.length := by exact_mod_cast hlt
  rw [below, div_lt_iff₀ hpos]
  linarith

theorem below_mono (h : s ≤ s') : below grades s ≤ below grades s' := by
  have hle : grades.countP (· < s) ≤ grades.countP (· < s') := by
    refine List.countP_mono_left fun x _ hx => ?_
    simp only [decide_eq_true_eq] at hx ⊢
    exact lt_of_lt_of_le hx h
  have hle' : (grades.countP (· < s) : ℚ) ≤ grades.countP (· < s') := by exact_mod_cast hle
  rw [below, below]
  gcongr

-- A tallied grade is found in its table.
theorem percentile_of_tabulates (h : Tabulates grades p) (hs : s ∈ grades) :
    (∃ f, p.freqs.find? (s ≤ ·.score) = some f ∧ f.score = s) ∧
      percentile s p = below grades s := by
  obtain ⟨f, hf, hscore⟩ := h.found s hs
  obtain ⟨f', hfind⟩ : ∃ f', p.freqs.find? (s ≤ ·.score) = some f' := by
    refine Option.isSome_iff_exists.mp (List.find?_isSome.mpr ⟨f, hf, ?_⟩)
    rw [hscore]
    exact decide_eq_true le_rfl
  have hle : s ≤ f'.score := by simpa using List.find?_some hfind
  -- no smaller entry stands in front of it
  have hsame : f'.score = s := by
    obtain ⟨-, front, back, hsplit, hfront⟩ := List.find?_eq_some_iff_append.mp hfind
    have hincreasing := h.increasing
    rw [hsplit] at hf hincreasing
    rcases List.mem_append.mp hf with hf | hf
    · have hnot := hfront f hf
      simp [hscore] at hnot
    · rcases List.mem_cons.mp hf with rfl | hf
      · exact hscore
      · have hlt := (List.pairwise_cons.mp (List.pairwise_append.mp hincreasing).2.1).1 f hf
        rw [hscore] at hlt
        exact absurd hle (not_le.mpr hlt)
  have hnumless := h.numless f' (List.mem_of_find?_eq_some hfind)
  have hpos : p.tallied ≠ 0 := by
    rw [h.tallied]
    exact (List.length_pos_of_mem hs).ne'
  refine ⟨⟨f', hfind, hsame⟩, ?_⟩
  simp only [percentile, if_neg hpos, hfind, hnumless, hsame, below]
  rw [mul_comm, h.tallied]

-- Sums and moments leave the table as it is.
theorem sums_table (grades : List ℚ) (p : Sample ℚ) :
    (grades.foldl (fun p g => sumUp g p) p).freqs = p.freqs ∧
      (grades.foldl (fun p g => sumUp g p) p).tallied = p.tallied := by
  induction grades generalizing p with
  | nil => exact ⟨rfl, rfl⟩
  | cons g rest ih => exact ih (sumUp g p)

theorem moments_table (sqrt : ℚ → ℚ) (p : Sample ℚ) :
    (moments sqrt p).freqs = p.freqs ∧ (moments sqrt p).tallied = p.tallied := by
  by_cases hzero : p.valid = 0
  · simp [moments, hzero]
  · by_cases hone : p.valid = 1 <;> simp [moments, hzero, hone]

theorem tabulates_sampleOf (sqrt : ℚ → ℚ) (grades : List ℚ) :
    Tabulates grades (sampleOf sqrt grades) := by
  have hmoments := moments_table sqrt (grades.foldl (fun p g => sumUp g p)
    (fillQuantiles (grades.foldl (fun p g => tally g p) newstats)))
  have hsums := sums_table grades (fillQuantiles (grades.foldl (fun p g => tally g p) newstats))
  exact (tabulates_fold grades).of_table (hmoments.1.trans hsums.1) (hmoments.2.trans hsums.2)

variable (sqrt : ℚ → ℚ) (c : Course ℚ n)

-- What is under way after some calls of normal.
def underWay (g : Grading n) (calls : List (ℚ × Fin n × Nat)) : Grading n :=
  calls.foldl (fun g (s, a, i) => (normal s a i g).2) g

theorem settle_underWay (g : Grading n) (calls : List (ℚ × Fin n × Nat)) :
    settle (underWay g calls) = settle g := by
  induction calls generalizing g with
  | nil => rfl
  | cons call rest ih =>
      obtain ⟨s, a, i⟩ := call
      exact (ih _).trans (normal_spec s a i g).2

theorem tabulates_class (a : Fin n) :
    Tabulates (gradesOf a (c.sections.flatMap scoresOf)) ((statistics sqrt c).cstats a) := by
  refine (tabulates_sampleOf sqrt _).of_core ?_
  rw [statistics_cstats, doLinks_eq c (Fin.pos a).ne', class_grades]

theorem tabulates_section (a : Fin n) (i : Fin c.sections.length) :
    Tabulates (gradesOf a (scoresOf c.sections[i])) ((statistics sqrt c).sstats a i) := by
  have hsection := section_grades 0 c.sections a i.isLt
  rw [Nat.zero_add] at hsection
  refine (tabulates_sampleOf sqrt _).of_core ?_
  rw [statistics_sstats, doLinks_eq c (Fin.pos a).ne', hsection]
  rfl

-- No call of normal changes a table.
theorem tabulates_group (a : Fin n) (i : Fin c.sections.length) {g : Grading n}
    (hg : settle g = settle ⟨c.assignments.get, statistics sqrt c⟩) :
    Tabulates (groupGrades c a i)
      (group (g.assignments a) (g.stats.cstats a) (g.stats.sstats a i)) := by
  have hngroup : (g.assignments a).ngroup = (c.assignments.get a).ngroup :=
    congrArg (fun t : Grading n => (t.assignments a).ngroup) hg
  rw [groupGrades, group, hngroup]
  cases (c.assignments.get a).ngroup with
  | byclass =>
      exact (tabulates_class sqrt c a).of_table
        (congrArg (fun t : Grading n => (t.stats.cstats a).freqs) hg)
        (congrArg (fun t : Grading n => (t.stats.cstats a).tallied) hg)
  | bysection =>
      exact (tabulates_section sqrt c a i).of_table
        (congrArg (fun t : Grading n => (t.stats.sstats a i).freqs) hg)
        (congrArg (fun t : Grading n => (t.stats.sstats a i).tallied) hg)

variable {c}

theorem groupGrades_congr {a : Fin n} {i i' : Fin c.sections.length}
    (h : (c.assignments.get a).ngroup = .bysection → i' = i) :
    groupGrades c a i' = groupGrades c a i := by
  rw [groupGrades, groupGrades]
  cases hngroup : (c.assignments.get a).ngroup with
  | byclass => rfl
  | bysection => rw [h hngroup]

-- A score that counts has been tallied in its group.
theorem mem_groupGrades {i : Fin c.sections.length} {st : Student ℚ n} {sc : Score ℚ n}
    (hst : st ∈ c.sections[i].roster) (hsc : sc ∈ st.rawscores) (hcounted : counted sc) :
    sc.grade ∈ groupGrades c sc.asgt i := by
  have hscores : sc ∈ scoresOf c.sections[i] := List.mem_flatMap.mpr ⟨st, hst, hsc⟩
  have hgrades (scores : List (Score ℚ n)) (hmem : sc ∈ scores) :
      sc.grade ∈ gradesOf sc.asgt scores :=
    List.mem_map_of_mem (List.mem_filter.mpr ⟨hmem, by simp [hcounted]⟩)
  rw [groupGrades]
  cases (c.assignments.get sc.asgt).ngroup with
  | byclass => exact hgrades _ (List.mem_flatMap.mpr ⟨_, List.getElem_mem i.isLt, hscores⟩)
  | bysection => exact hgrades _ hscores

theorem normal_quantile {i : Fin c.sections.length} {a : Fin n} {s : ℚ} (hs : s ∈ groupGrades c a i)
    (hpolicy : (c.assignments.get a).npolicy = .quantile) (calls : List (ℚ × Fin n × Nat)) :
    (normal s a i (underWay ⟨c.assignments.get, statistics sqrt c⟩ calls)).1 =
      below (groupGrades c a i) s := by
  have hsettle := settle_underWay ⟨c.assignments.get, statistics sqrt c⟩ calls
  have hnpolicy : ((underWay ⟨c.assignments.get, statistics sqrt c⟩ calls).assignments a).npolicy =
      .quantile :=
    (congrArg (fun t : Grading n => (t.assignments a).npolicy) hsettle).trans hpolicy
  rw [(normal_spec s a i _).1, valueIn, valueOf, hnpolicy]
  exact (percentile_of_tabulates (tabulates_group sqrt c a i hsettle) hs).2

-- Both conditions under which a score is normalized are the one under which it is tallied.
theorem normalizeScore_counted {sc : Score ℚ n} (hcounted : counted sc) (st : Student ℚ n) (i : Nat)
    (g : Grading n) :
    (normalizeScore st i sc g).1.grade = (normal sc.grade sc.asgt i g).1 := by
  rw [normalizeScore]
  by_cases hflag : sc.flag = .valid
  · simp only [if_pos hflag]
  · have hsubst : sc.subst = .useraw := by simpa [counted, hflag] using hcounted
    simp only [if_neg hflag, hsubst]

-- Whatever has been normalized before, a quantile is the share of the lower scores.
theorem normal_of_quantile {i : Fin c.sections.length} {st : Student ℚ n} {sc : Score ℚ n}
    (hst : st ∈ c.sections[i].roster) (hsc : sc ∈ st.rawscores) (hcounted : counted sc)
    (hpolicy : (c.assignments.get sc.asgt).npolicy = .quantile) (calls : List (ℚ × Fin n × Nat)) :
    let g := underWay ⟨c.assignments.get, statistics sqrt c⟩ calls
    let v := (normal sc.grade sc.asgt i g).1
    v = below (groupGrades c sc.asgt i) sc.grade ∧ (normalizeScore st i sc g).1.grade = v ∧
      0 ≤ v ∧ v < 100 ∧
      (∃ f, (group (g.assignments sc.asgt) (g.stats.cstats sc.asgt)
        (g.stats.sstats sc.asgt i)).freqs.find?
        (sc.grade ≤ ·.score) = some f ∧ f.score = sc.grade) ∧
      ∀ (i' : Fin c.sections.length) (st' : Student ℚ n) (sc' : Score ℚ n),
        st' ∈ c.sections[i'].roster →
        sc' ∈ st'.rawscores → counted sc' → sc'.asgt = sc.asgt →
        ((c.assignments.get sc.asgt).ngroup = .bysection → i' = i) → sc.grade ≤ sc'.grade →
        ∀ calls', v ≤
          (normal sc'.grade sc'.asgt i'
          (underWay ⟨c.assignments.get, statistics sqrt c⟩ calls')).1 := by
  intro g v
  have hmem := mem_groupGrades hst hsc hcounted
  have hv : v = below (groupGrades c sc.asgt i) sc.grade := normal_quantile sqrt hmem hpolicy calls
  refine ⟨hv, normalizeScore_counted hcounted st i g, ?_, ?_, ?_, ?_⟩
  · rw [hv]
    exact below_nonneg _ _
  · rw [hv]
    exact below_lt hmem
  · exact (percentile_of_tabulates (tabulates_group sqrt c sc.asgt i (settle_underWay _ calls))
      hmem).1
  · intro i' st' sc' hst' hsc' hcounted' hasgt hgroup hle calls'
    have hmem' := mem_groupGrades hst' hsc' hcounted'
    rw [hasgt] at hmem' ⊢
    rw [hv, normal_quantile sqrt hmem' hpolicy calls', groupGrades_congr hgroup]
    exact below_mono hle

def exam : Assignment ℚ :=
  { name := [69], atype := [69], wpolicy := .noweight, weight := 0, npolicy := .quantile, max :=
    10, mean := 50, stddev := 10, scale := 0, ngroup := .byclass }

def examScore : Score ℚ 1 := ⟨Fin.last 0, 9, 0, 0, 0, .invalid, [], .useraw⟩

def examStudent : Student ℚ 1 := ⟨[2], [2], [2], [examScore], [], 0⟩

def examCourse : Course ℚ 1 where
  number := [67]
  title := [84]
  professor := none
  assignments := #v[exam]
  sections :=
    let score : Score ℚ 1 := ⟨Fin.last 0, 4, 0, 0, 0, .valid, [], .useraw⟩
    [⟨[65], none, [⟨[1], [1], [1], [score], [], 0⟩, examStudent]⟩]

theorem examScore_mem : examScore ∈ examStudent.rawscores := List.mem_cons_self

theorem examStudent_mem : examStudent ∈ (examCourse.sections.get ⟨0, by decide⟩).roster :=
  List.mem_cons_of_mem _ List.mem_cons_self

-- A valid score, and a higher one that is substituted.
theorem normal_of_quantile_two :
    (normal 9 0 0 (underWay ⟨examCourse.assignments.get, statistics id examCourse⟩ [(4, 0, 0)])).1 =
      50 := by
  have h := normal_of_quantile (c := examCourse) id (i :=
    ⟨0, by decide⟩) examStudent_mem examScore_mem rfl rfl
    [(4, 0, 0)]
  have hbelow : below (groupGrades examCourse 0 ⟨0, by decide⟩) 9 = 50 := by
    have hgrades : groupGrades examCourse 0 ⟨0, by decide⟩ = [4, 9] := rfl
    rw [hgrades, below]
    norm_num
  exact h.1.trans hbelow

end CSE320.Grades
