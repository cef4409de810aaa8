import CSE320.Grades.Read

namespace CSE320.Grades.Include

open Lib (Byte ascii)
open File

-- A file that another one is read in the middle of.
structure Ifile where
  input : List Byte
  line : Nat
deriving DecidableEq

-- The reader of the current file, and the stack of the files below it. The token buffer and
-- the errors are not of one file.
structure Files where
  reader : Reader
  prev : List Ifile
deriving DecidableEq

abbrev ReadFiles := StateT Files (Except Stop)

-- The functions that do not look at the stack.
def current {α : Type} (x : Read α) : ReadFiles α := fun s =>
  match x s.reader with
  | .ok (a, reader) => .ok (a, { s with reader })
  | .error e => .error e

-- The function previousfile, of which every caller has seen that there is a file below.
def Ifile.resume (f : Ifile) (r : Reader) : Reader := { r with input := f.input, line := f.line }

-- The loop of readsections before an entry. The result tells whether there is one.
def findtoken : List Ifile → Reader → Except Stop (Bool × Files)
  | prev, r => do
    let ((), r) ← peek r
    if istoken r then
      return (true, ⟨r, prev⟩)
    else
      match prev with
      | [] => return (false, ⟨r, []⟩)
      | f :: prev => findtoken prev (f.resume r)

section

-- The files that can be opened, by name, and the bound on the rounds of each loop.
variable (fopen : Text → Option (List Byte)) (rounds : Nat)

-- The first part of pushfile.
def filename : Read Text := do
  advanceeol
  let r ← get
  if istoken r then
    flushtoken
    expectnewline rounds
    return cstring r.token
  else
    error (ascii "Expected a file name.")
    flushtoken
    expectnewline rounds
    return []

def pushfile : ReadFiles Unit := do
  let n ← current (filename rounds)
  let s ← get
  match fopen n with
  | none => current (fatal (ascii "Can't open data file " ++ n ++ ascii "\n"))
  | some input =>
    set (⟨{ s.reader with input, line := 1 }, ⟨s.reader.input, s.reader.line⟩ :: s.prev⟩ : Files)
    current (gobbleblanklines rounds)

variable {F : Type} (nums : Numbers F) {n : Nat}

def readsections (asgts : Vector (Assignment (Option F)) n) :
    Nat → ReadFiles (List (Section (Option F) n))
  | 0 => current (stop .rounds)
  | m + 1 => do
    if ← (fun s => findtoken s.prev s.reader : ReadFiles Bool) then
      if ← current (checktoken (ascii "FILE")) then
        pushfile fopen rounds
        readsections asgts m
      else if ← current (checktoken (ascii "SECTION")) then
        let s ← current (readsection rounds nums asgts)
        let rest ← readsections asgts m
        return s :: rest
      else
        return []
    else
      return []

def readcourse : ReadFiles ((n : Nat) × Course (Option F) n) := do
  current (expecttoken (ascii "COURSE"))
  let number ← current readid
  let title ← current (readname rounds)
  let professor ← current (readprofessor rounds)
  let assignments ← current (readassignments rounds nums)
  let assignments := assignments.toArray.toVector
  let sections ← readsections fopen rounds nums assignments rounds
  return ⟨_, { number, title, professor, assignments, sections }⟩

-- The loop that goes back to the first file.
def firstfile : List Ifile → Reader → Files
  | [], r => ⟨r, []⟩
  | f :: prev, r => firstfile prev (f.resume r)

def skipexcess : ReadFiles Unit := do
  current (error (ascii "Expected EOF, skipping excess input."))
  current flushtoken
  fun s => .ok ((), firstfile s.prev s.reader)

def expecteof : ReadFiles Unit := do
  let s ← get
  if istoken s.reader then
    skipexcess
  else
    let c ← current getc
    if c = none ∧ s.prev = [] then
      pure ()
    else
      skipexcess

def readfile (root : Text) : Except Stop (((n : Nat) × Course (Option F) n) × Files) :=
  match fopen root with
  | none => .error (.fatal 1 (ascii "Can't open data file " ++ root ++ ascii ".\n"))
  | some input =>
    let read : ReadFiles ((n : Nat) × Course (Option F) n) := do
      current (gobbleblanklines rounds)
      let c ← readcourse fopen rounds nums
      current (gobbleblanklines rounds)
      expecteof
      return c
    read ⟨Reader.start input, []⟩

end

end CSE320.Grades.Include
