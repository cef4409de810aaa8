import CSE320.Grades.Data
import CSE320.Lib.Chain
import Mathlib.Logic.Equiv.Basic

namespace CSE320.Grades

-- strcmp compares the characters as unsigned char.
def strcmp : Text → Text → Int
  | [], [] => 0
  | [], _ :: _ => -1
  | _ :: _, [] => 1
  | c :: s, d :: t => if c = d then strcmp s t else if c.toNat < d.toNat then -1 else 1

section

variable {F : Type} {n : Nat}

def comparename (s1 s2 : Student F n) : Int :=
  let c := strcmp s1.surname s2.surname
  if c ≠ 0 then c else strcmp s1.name s2.name

def compareid (s1 s2 : Student F n) : Int := strcmp s1.id s2.id

def comparescore [LT F] [DecidableLT F] (s1 s2 : Student F n) : Int :=
  if s2.composite < s1.composite then -1
  else if s1.composite < s2.composite then 1
  else 0

end

-- A student is known by a pointer of a type P. A table of students is a function of
-- the index. The int indices of the source are never negative here, so they are Nat, and
-- the high end of a range is one past its last entry.
variable {P : Type}

def exchange (stab : Nat → P) (i j : Nat) : Nat → P :=
  Function.update (Function.update stab j (stab i)) i (stab j)

section

variable (compare : P → P → Int) (pivot : P)

-- The loop of partition, with h - l entries left.
def partitionLoop : Nat → Nat → Int → (Nat → P) → Nat × (Nat → P)
  | 0, l, _, stab => (l, stab)
  | left + 1, l, alt, stab =>
    let c := compare (stab l) pivot
    let (c, alt) := if c = 0 then (alt, -alt) else (c, alt)
    if c > 0 then partitionLoop left l alt (exchange stab l (l + left))
    else partitionLoop left (l + 1) alt stab

def partition (stab : Nat → P) (low high : Nat) : Nat × (Nat → P) :=
  partitionLoop compare (stab ((low + high) / 2)) (high - low) low 1 stab

-- The recursion need not get smaller ranges, so the depth of it is bounded.
def sorttable : Nat → (Nat → P) → Nat → Nat → Option (Nat → P)
  | 0, _, _, _ => none
  | depth + 1, stab, low, high =>
    if low = high then some stab
    else
      let (middle, stab) := partition compare stab low high
      if low + 1 = high then some stab
      else do
        let stab ← sorttable depth stab low middle
        sorttable depth stab middle high

end

-- The loop that counts the students, with a bound on its rounds.
def countStudents (next : P → Option P) : Nat → Option P → Option Nat
  | 0, _ => none
  | _ + 1, none => some 0
  | rounds + 1, some sp => (countStudents next rounds (next sp)).map (· + 1)

-- The students are put into the table from its end on.
def fillTable (next : P → Option P) : Nat → Option P → (Nat → P) → Option (Nat → P)
  | 0, _, stab => some stab
  | _ + 1, none, _ => none
  | i + 1, some sp, stab => fillTable next i (next sp) (Function.update stab i sp)

variable [DecidableEq P]

-- The loop that links the students of the table from index i on behind sp.
def relink (stab : Nat → P) : Nat → Nat → P → (P → Option P) → P → Option P
  | 0, _, sp, next => Function.update next sp none
  | left + 1, i, sp, next =>
      relink stab left (i + 1) (stab i) (Function.update next sp (some (stab i)))

-- The list is linked by the field next or cnext. The table is what malloc gives.
def sortroster (compare : P → P → Int) (bound : Nat) (table : Nat → P) (s : Option P)
    (next : P → Option P) :
    Option (Option P × (P → Option P)) := do
  let count ← countStudents next bound s
  if count = 0 then
    return (none, next)
  else
    let stab ← fillTable next count s table
    let stab ← sorttable compare bound stab 0 count
    return (some (stab 0), relink stab (count - 1) 1 (stab 0) next)

end CSE320.Grades
