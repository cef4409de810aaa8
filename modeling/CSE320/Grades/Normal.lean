import CSE320.Grades.Stats
import Mathlib.Data.List.FinRange

namespace CSE320.Grades

variable {n : Nat}

def epsilon : ℚ := 1 / 1000000

-- What the normalization reads, and where it clamps what is too small.
structure Grading (n : Nat) where
  assignments : Fin n → Assignment ℚ
  stats : Stats ℚ n

-- Linear transformation to a mean nm and a standard deviation nd.
def linear (s rm rd nm nd : ℚ) : ℚ := nd * (s - rm) / rd + nm

def scale (s max scale : ℚ) : ℚ := s * scale / max

-- A value that is too small is replaced by a small one before it divides.
def clamp (x : ℚ) : ℚ := if x < epsilon then 2 * epsilon else x

def setStddev (x : ℚ) (p : Sample ℚ) : Sample ℚ := { p with stddev := x }

-- The percentile score of the first entry that is not below the score. Above the
-- last entry the function ends with 1.
def percentile (s : ℚ) (p : Sample ℚ) : ℚ :=
  let count := if p.tallied = 0 then 1 else p.tallied
  match p.freqs.find? (s ≤ ·.score) with
  | some f => f.numless * 100 / count
  | none => 1

def normal (s : ℚ) (a : Fin n) (i : Nat) (g : Grading n) : ℚ × Grading n :=
  let asgt := g.assignments a
  match asgt.npolicy with
  | .raw => (s, g)
  | .linear =>
    match asgt.ngroup with
    | .byclass =>
      let g := if (g.stats.cstats a).stddev < epsilon then
          { g with stats := g.stats.setClass a (setStddev (2 * epsilon)) } else g
      let p := g.stats.cstats a
      (linear s p.mean p.stddev asgt.mean asgt.stddev, g)
    | .bysection =>
      let g := if (g.stats.sstats a i).stddev < epsilon then
          { g with stats := g.stats.setSection a i (setStddev (2 * epsilon)) } else g
      let p := g.stats.sstats a i
      (linear s p.mean p.stddev asgt.mean asgt.stddev, g)
  | .scale =>
    let g := if asgt.max < epsilon then
        { g with assignments := Function.update g.assignments a { asgt with max := 2 * epsilon } }
          else g
    (scale s (g.assignments a).max asgt.scale, g)
  | .quantile =>
    match asgt.ngroup with
    | .byclass => (percentile s (g.stats.cstats a), g)
    | .bysection => (percentile s (g.stats.sstats a i), g)

-- The running values of studentavg.
structure Avg where
  n : Nat
  wp : Bool
  sum : ℚ
  w : ℚ

def Avg.add (f : ℚ) (asgt : Assignment ℚ) (r : Avg) : Avg :=
  if asgt.wpolicy = .weight then
    { n := r.n + 1, wp := true, sum := r.sum + f * asgt.weight, w := r.w + asgt.weight }
  else
    { r with n := r.n + 1, sum := r.sum + f }

def Avg.result (r : Avg) : ℚ :=
  if r.n = 0 ∨ r.w = 0 then 0 else if r.wp then r.sum / r.w else r.sum / r.n

-- The loop of studentavg over the scores of a student.
def likeScores (t : Text) (i : Nat) : List (Score ℚ n) → Avg → Grading n → Avg × Grading n
  | [], r, g => (r, g)
  | sc :: rest, r, g =>
    if (g.assignments sc.asgt).atype = t ∧ counted sc then
      let (f, g) := normal sc.grade sc.asgt i g
      likeScores t i rest (r.add f (g.assignments sc.asgt)) g
    else
      likeScores t i rest r g

def studentavg (st : Student ℚ n) (t : Text) (i : Nat) (g : Grading n) : ℚ × Grading n :=
  let (r, g) := likeScores t i st.rawscores ⟨0, false, 0, 0⟩ g
  (r.result, g)

def normalizeScore (st : Student ℚ n) (i : Nat) (sc : Score ℚ n) (g : Grading n) :
    Normscore ℚ n × Grading n :=
  let asgt := g.assignments sc.asgt
  let (grade, g) :=
    if sc.flag = .valid then
      normal sc.grade sc.asgt i g
    else
      match sc.subst with
      | .useraw => normal sc.grade sc.asgt i g
      | .usenorm => (if asgt.npolicy = .quantile then sc.qnorm else sc.lnorm, g)
      | .uselikeavg => studentavg st asgt.atype i g
      | .useclassavg => (if asgt.npolicy = .quantile then 50 else asgt.mean, g)
  (⟨sc.asgt, grade, sc.flag, sc.subst⟩, g)

-- A loop that changes what is under way and makes a list.
def eachOf {α β : Type} (f : α → Grading n → β × Grading n) :
    List α → Grading n → List β × Grading n
  | [], g => ([], g)
  | x :: rest, g =>
    let (y, g) := f x g
    let (ys, g) := eachOf f rest g
    (y :: ys, g)

def normalizeStudent (i : Nat) (st : Student ℚ n) (g : Grading n) : Student ℚ n × Grading n :=
  let (normscores, g) := eachOf (normalizeScore st i) st.rawscores g
  ({ st with normscores }, g)

-- The loop over the class roster, which holds the students section by section.
def normalizeFrom : Nat → List (Section ℚ n) → Grading n → List (Section ℚ n) × Grading n
  | _, [], g => ([], g)
  | i, s :: rest, g =>
    let (roster, g) := eachOf (normalizeStudent i) s.roster g
    let (rest, g) := normalizeFrom (i + 1) rest g
    ({ s with roster } :: rest, g)

def compositeOf (assignments : Fin n → Assignment ℚ) (normscores : List (Normscore ℚ n)) : ℚ :=
  (List.finRange n).foldl (fun sum a => normscores.foldl (fun sum sc =>
    if sc.asgt = a then
      sum + sc.grade * (if (assignments a).wpolicy = .weight then (assignments a).weight else 1)
    else
      sum) sum) 0

def composites (assignments : Fin n → Assignment ℚ) (s : Section ℚ n) : Section ℚ n :=
  { s with
    roster := s.roster.map fun st =>
      { st with composite := compositeOf assignments st.normscores } }

variable (sqrt : ℚ → ℚ)

-- statistics, normalize and composites. Without assignments the class roster is
-- empty, and no student is reached.
def grade (c : Course ℚ n) : Course ℚ n :=
  let g : Grading n := ⟨c.assignments.get, statistics sqrt c⟩
  if n = 0 then
    c
  else
    let (sections, g) := normalizeFrom 0 c.sections g
    { c with assignments := .ofFn g.assignments, sections :=
      sections.map (composites g.assignments) }

end CSE320.Grades
