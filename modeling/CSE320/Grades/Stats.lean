import CSE320.Grades.Data
import Mathlib.Algebra.Ring.Rat
import Mathlib.Logic.Function.Basic

namespace CSE320.Grades

-- The numbers are of a type F with its own comparisons.
structure Freqs (F : Type) where
  score : F
  count : Nat
  numless : Nat
  numlesseq : Nat
deriving DecidableEq, Repr

-- The fields that a Classstats and a Sectionstats have in common.
structure Sample (F : Type) where
  valid : Nat
  tallied : Nat
  sum : F
  sumsq : F
  min : F
  max : F
  mean : F
  stddev : F
  freqs : List (Freqs F)
deriving DecidableEq, Repr

-- The statistics of an assignment for the class, and for each section by its place.
structure Stats (F : Type) (n : Nat) where
  cstats : Fin n → Sample F
  sstats : Fin n → Nat → Sample F

section

variable {F : Type} {n : Nat}

def newstats [Zero F] : Sample F := ⟨0, 0, 0, 0, 0, 0, 0, 0, []⟩

def buildstats [Zero F] (n : Nat) : Stats F n := ⟨fun _ => newstats, fun _ _ => newstats⟩

-- The class roster behind do_links: each student with the place of the section. It
-- is linked anew for each assignment, and stays empty if there is none.
def rosterFrom : Nat → List (Section F n) → List (Nat × Student F n)
  | _, [] => []
  | i, s :: rest => s.roster.map (i, ·) ++ rosterFrom (i + 1) rest

def doLinks (c : Course F n) : List (Nat × Student F n) :=
  c.assignments.toList.foldl (fun _ _ => rosterFrom 0 c.sections) []

def counted (s : Score F n) : Bool := s.flag = .valid || s.subst = .useraw

def countScore [BEq F] [LT F] [DecidableLT F] (grade : F) : List (Freqs F) → List (Freqs F)
  | [] => [⟨grade, 1, 0, 0⟩]
  | f :: rest =>
    if f.score == grade then { f with count := f.count + 1 } :: rest
    else if f.score > grade then ⟨grade, 1, 0, 0⟩ :: f :: rest
    else f :: countScore grade rest

namespace Stats

def setClass (s : Stats F n) (a : Fin n) (f : Sample F → Sample F) : Stats F n :=
  { s with cstats := Function.update s.cstats a (f (s.cstats a)) }

def setSection (s : Stats F n) (a : Fin n) (i : Nat) (f : Sample F → Sample F) : Stats F n :=
  { s with
    sstats := Function.update s.sstats a (Function.update (s.sstats a) i (f (s.sstats a i))) }

end Stats

def tally [BEq F] [LT F] [DecidableLT F] (grade : F) (p : Sample F) : Sample F :=
  { p with freqs := countScore grade p.freqs, tallied := p.tallied + 1 }

-- A loop over the roster and the scores that count.
def forScores (roster : List (Nat × Student F n))
    (step : Stats F n → Nat → Score F n → Stats F n) (s : Stats F n) : Stats F n :=
  roster.foldl (fun s (i, st) => st.rawscores.foldl (fun s sc => if counted sc then step s i sc
    else s) s) s

def doFreqs [BEq F] [LT F] [DecidableLT F] (roster : List (Nat × Student F n))
    (s : Stats F n) : Stats F n :=
  forScores roster (fun s i sc => (s.setClass sc.asgt (tally sc.grade)).setSection sc.asgt i
    (tally sc.grade)) s

def quantiles : Nat → List (Freqs F) → List (Freqs F)
  | _, [] => []
  | sum, f :: rest =>
      { f with numless := sum, numlesseq := sum + f.count } :: quantiles (sum + f.count) rest

def doQuantiles (s : Stats F n) : Stats F n :=
  let fill (p : Sample F) : Sample F := { p with freqs := quantiles 0 p.freqs }
  ⟨fun a => fill (s.cstats a), fun a i => fill (s.sstats a i)⟩

def spread [LT F] [DecidableLT F] (g : F) (p : Sample F) : Sample F :=
  let p := if g < p.min then { p with min := g } else p
  if g > p.max then { p with max := g } else p

-- What do_sums does for a score before it sums it up. A section takes over its first score,
-- and then the bounds of the class are compared with it.
def boundScore [LT F] [DecidableLT F] (s : Stats F n) (i : Nat) (sc : Score F n) : Stats F n :=
  let a := sc.asgt
  let g := sc.grade
  let first := (s.cstats a).valid = 0
  let s := s.setClass a fun p => { p with valid := p.valid + 1 }
  let s := s.setClass a fun p => if first then { p with min := g, max := g } else spread g p
  let first := (s.sstats a i).valid = 0
  let s := s.setSection a i fun p => { p with valid := p.valid + 1 }
  if first then s.setSection a i fun p => { p with min := g, max := g }
  else s.setClass a (spread g)

end

variable {n : Nat}

def addScore (g : ℚ) (p : Sample ℚ) : Sample ℚ :=
  { p with sum := p.sum + g, sumsq := p.sumsq + g * g }

def sumScore (s : Stats ℚ n) (i : Nat) (sc : Score ℚ n) : Stats ℚ n :=
  let s := boundScore s i sc
  (s.setClass sc.asgt (addScore sc.grade)).setSection sc.asgt i (addScore sc.grade)

def doSums (roster : List (Nat × Student ℚ n)) (s : Stats ℚ n) : Stats ℚ n :=
  forScores roster sumScore s

-- The square root is a parameter.
variable (sqrt : ℚ → ℚ)

def stddev (count : Nat) (sum sumsq : ℚ) : ℚ :=
  if count ≥ 2 then sqrt ((sumsq - sum * sum / count) / (count - 1)) else 0

def moments (p : Sample ℚ) : Sample ℚ :=
  if p.valid ≠ 0 then
    let p := { p with mean := p.sum / p.valid }
    if p.valid = 1 then { p with stddev := 0 }
      else { p with stddev := stddev sqrt p.valid p.sum p.sumsq }
  else
    { p with mean := 0, stddev := 0 }

def doMoments (s : Stats ℚ n) : Stats ℚ n :=
  ⟨fun a => moments sqrt (s.cstats a), fun a i => moments sqrt (s.sstats a i)⟩

def statistics (c : Course ℚ n) : Stats ℚ n :=
  let roster := doLinks c
  doMoments sqrt (doSums roster (doQuantiles (doFreqs roster (buildstats n))))

end CSE320.Grades
