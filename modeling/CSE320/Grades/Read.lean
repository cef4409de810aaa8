import CSE320.Grades.Data
import CSE320.Lib.Ensures

namespace CSE320.Grades.File

open Lib

-- The float values that the database holds, with their comparisons and with what %f
-- prints and reads.
structure Numbers (F : Type) where
  zero : F
  one : F
  hundred : F
  isZero : F → Bool
  lt : F → F → Bool
  print : F → Text
  scan : Text → Option F

-- The input file and the token buffer. A token is held with the NUL behind it.
structure Reader where
  input : List Byte
  token : List Byte
  size : Nat
  line : Nat
  errors : List (Nat × Text)
deriving DecidableEq

-- A fatal error, a write behind the token buffer, or an included file. The loops have
-- a bound on their rounds.
inductive Stop where
  | fatal (line : Nat) (text : Text)
  | overflow
  | otherFile
  | rounds
deriving DecidableEq

abbrev Read := StateT Reader (Except Stop)

def newline : Byte := 10

-- A char with this value is the same as EOF.
def eof : Byte := 0xFF

def stop {α : Type} (e : Stop) : Read α := fun _ => .error e

def fatal {α : Type} (text : Text) : Read α := fun r => .error (.fatal r.line text)

def error (text : Text) : Read Unit := fun r => .ok
    ((), { r with errors := r.errors ++ [(r.line, text)] })

def nextline : Read Unit := fun r => .ok ((), { r with line := r.line + 1 })

def iswhitespace (c : Byte) : Bool := c ∈ ascii ",: \t" || c = 12

def getc : Read (Option Byte) := fun r =>
  match r.input with
  | [] => .ok (none, r)
  | c :: rest => .ok (if c = eof then none else some c, { r with input := rest })

-- Nothing is put back when the character was EOF.
def ungetc (c : Option Byte) : Read Unit :=
  fun r => .ok ((), { r with input := c.toList ++ r.input })

def istoken (r : Reader) : Bool := r.token ≠ []

def flushtoken : Read Unit := fun r => .ok ((), { r with token := [] })

-- The string that starts at a place of the buffer.
def cstring (token : List Byte) : Text := token.takeWhile (· ≠ 0)

def skipWhitespace : List Byte → List Byte
  | [] => []
  | c :: rest => if iswhitespace c then skipWhitespace rest else if c = eof then rest else c :: rest

def gobblewhitespace : Read Unit := fun r =>
  if istoken r then .ok ((), r) else .ok ((), { r with input := skipWhitespace r.input })

-- What follows the next newline.
def skipLine : List Byte → Option (List Byte)
  | [] => none
  | c :: rest => if c = eof then none else if c = newline then some rest else skipLine rest

-- The loops that read up to a newline.
def scanAhead (unfinished : String) : Read Unit := fun r =>
  match skipLine r.input with
  | none => fatal (ascii unfinished) r
  | some rest => .ok ((), { r with input := rest })

def blankLines : Nat → Read Unit
  | 0 => stop .rounds
  | rounds + 1 => do
    let c ← getc
    if c = some 35 then
      scanAhead "EOF within comment line."
      nextline
      blankLines rounds
    else
      ungetc c
      let c ← getc
      if c = some newline then
        nextline
        gobblewhitespace
        blankLines rounds
      else
        ungetc c

def gobbleblanklines (rounds : Nat) : Read Unit :=
  fun r => if istoken r then .ok ((), r) else blankLines rounds r

def nextchar : Read Byte := fun r =>
  match r.token with
  | c :: token => .ok (c, { r with token })
  | [] =>
    match r.input with
    | [] => fatal (ascii "Unexpected EOF.") r
    | c :: rest =>
      if c = eof then fatal (ascii "Unexpected EOF.") { r with input := rest }
        else .ok (c, { r with input := rest })

-- Behind the token that has been copied, realloc leaves what it likes: NUL here.
def doublesize (size : Nat) (r : Reader) : Nat × Reader :=
  if r.token.length > size then
    (size * 2, { r with size := size * 2, token :=
      r.token ++ List.replicate (size * 2 - r.token.length) 0 })
  else
    (size, r)

def store (c : Byte) : Read Unit := fun r =>
  if r.token.length < r.size then .ok ((), { r with token := r.token ++ [c] }) else .error .overflow

-- The characters up to one that ends the token, which stays in the input. The result
-- tells whether the input has ended.
def fillToken (ends : Byte → Bool) : List Byte → Nat → Reader → Except Stop (Bool × Reader)
  | [], _, r => .ok (true, { r with input := [] })
  | c :: rest, size, r =>
    if c = eof then .ok (true, { r with input := rest })
    else if ends c then .ok (false, { r with input := c :: rest })
    else do
      let (size, r) := doublesize size r
      let ((), r) ← store c r
      fillToken ends rest size r

def checkunread : Read Unit := do
  let r ← get
  if istoken r then error (ascii "Flushing unread input token.") else pure ()

def advance (ends : Byte → Bool) : Read Bool := do
  checkunread
  flushtoken
  gobblewhitespace
  fun r => fillToken ends r.input 64 r

def endsToken (c : Byte) : Bool := iswhitespace c || c = newline

def advancetoken : Read Unit := do
  let _ ← advance endsToken
  let r ← get
  if istoken r then store 0 else pure ()

def advanceeol : Read Unit := do
  let ended ← advance (· = newline)
  if ended then fatal (ascii "Incomplete line at end of file.") else store 0

-- The next token is read unless there is one.
def peek : Read Unit := do
  let r ← get
  if istoken r then pure () else advancetoken

def checktoken (key : Text) : Read Bool := do
  peek
  let r ← get
  if istoken r ∧ cstring r.token = key then
    flushtoken
    return true
  else
    return false

def expecttoken (key : Text) : Read Unit := do
  peek
  let r ← get
  if istoken r ∧ cstring r.token = key then
    flushtoken
  else
    error (ascii "Expected " ++ key ++ ascii ", found " ++ cstring r.token)

def expectnewline (rounds : Nat) : Read Unit := do
  gobblewhitespace
  let c ← nextchar
  if c = newline then
    nextline
    gobbleblanklines rounds
  else
    error (ascii "Expected newline, scanning ahead.")
    flushtoken
    scanAhead "Unexpected EOF."
    nextline

def expecteof : Read Unit := do
  let r ← get
  if istoken r then
    error (ascii "Expected EOF, skipping excess input.")
    flushtoken
  else
    let c ← getc
    if c = none then
      pure ()
    else
      error (ascii "Expected EOF, skipping excess input.")
      flushtoken

-- The functions that read one word.
def readword (missing : String) : Read Text := do
  peek
  let r ← get
  if istoken r then
    flushtoken
    return cstring r.token
  else
    error (ascii missing)
    flushtoken
    return []

def readsurname : Read Text := readword "Expected surname."

def readid : Read Text := readword "Expected an ID."

def readatype : Read Text := readword "Expected an assignment type."

section

-- The bound on the rounds of each loop.
variable (rounds : Nat)

def readname : Read Text := do
  advanceeol
  let r ← get
  if istoken r then
    flushtoken
    expectnewline rounds
    return cstring r.token
  else
    error (ascii "Expected a name.")
    flushtoken
    expectnewline rounds
    return []

def readprofessor : Read (Option Professor) := do
  if ← checktoken (ascii "PROFESSOR") then
    let surname ← readsurname
    let name ← readname rounds
    return some ⟨surname, name⟩
  else
    return none

def readassistant : Read (Option Assistant) := do
  if ← checktoken (ascii "ASSISTANT") then
    let surname ← readsurname
    let name ← readname rounds
    return some ⟨surname, name⟩
  else
    return none

-- The functions that read a list: an entry for as long as the keyword is there.
def many {α : Type} (key : Text) (item : Read α) : Nat → Read (List α)
  | 0 => stop .rounds
  | n + 1 => do
    if ← checktoken key then
      let x ← item
      let xs ← many key item n
      return x :: xs
    else
      return []

variable {F : Type} (nums : Numbers F)

-- The number in the buffer, which is flushed then.
def scannumber : Read (Option F) := fun r =>
  if istoken r then
    match nums.scan (cstring r.token) with
    | some f => .ok (some f, { r with token := [] })
    | none => .ok (none, r)
  else
    .ok (none, r)

-- A field that has not been assigned is none.
def readweight (a : Assignment (Option F)) : Read (Assignment (Option F)) := do
  advancetoken
  match ← scannumber nums with
  | some f => return { a with wpolicy := .weight, weight := some f }
  | none =>
    error (ascii "Expected a numeric weight.")
    return { a with wpolicy := .noweight }

def readmax (a : Assignment (Option F)) : Read (Assignment (Option F)) := do
  advancetoken
  match ← scannumber nums with
  | some f => return { a with max := some f }
  | none =>
    error (ascii "Expected a numeric maximum score.")
    return a

-- A number of the normalization, or what is taken for it.
def readparam (missing : String) (default : F) : Read F := do
  advancetoken
  match ← scannumber nums with
  | some f => return f
  | none =>
    error (ascii missing)
    return default

-- One round of the loop of readnorm, unless it ends.
def normItem (a : Assignment (Option F)) : Read (Option (Assignment (Option F))) := do
  if ← checktoken (ascii "RAW") then
    return some { a with npolicy := .raw }
  else if ← checktoken (ascii "STDLINEAR") then
    return some { a with npolicy := .linear, mean := some nums.zero, stddev := some nums.one }
  else if ← checktoken (ascii "GENLINEAR") then
    let mean ← readparam nums "Expected a numeric mean, using 0.0." nums.zero
    let stddev ← readparam nums "Expected a numeric standard deviation, using 1.0." nums.one
    return some { a with npolicy := .linear, mean := some mean, stddev := some stddev }
  else if ← checktoken (ascii "QUANTILE") then
    return some { a with npolicy := .quantile }
  else if ← checktoken (ascii "SCALE") then
    let scale ← readparam nums "Expected a numeric scale, using 0.0." nums.zero
    return some { a with npolicy := .scale, scale := some scale }
  else if ← checktoken (ascii "BYCLASS") then
    return some { a with ngroup := .byclass }
  else if ← checktoken (ascii "BYSECTION") then
    return some { a with ngroup := .bysection }
  else
    return none

def normItems : Nat → Bool → Assignment (Option F) → Read (Bool × Assignment (Option F))
  | 0, _, _ => stop .rounds
  | n + 1, found, a => do
    match ← normItem nums a with
    | some a => normItems n true a
    | none => return (found, a)

def readnorm (a : Assignment (Option F)) : Read (Assignment (Option F)) := do
  let (found, a) ← normItems nums rounds false a
  if found then
    return a
  else
    error (ascii "Expected normalization information.")
    return { a with npolicy := .raw, ngroup := .byclass }

-- One round of the loop of readassignments, unless it ends.
def declaration (a : Assignment (Option F)) : Read (Option (Assignment (Option F))) := do
  if ← checktoken (ascii "WEIGHT") then
    let a ← readweight nums a
    expectnewline rounds
    return some a
  else if ← checktoken (ascii "NORMALIZE") then
    let a ← readnorm rounds nums a
    expectnewline rounds
    return some a
  else if ← checktoken (ascii "MAXIMUM") then
    let a ← readmax nums a
    expectnewline rounds
    return some a
  else
    return none

def declarations : Nat → Assignment (Option F) → Read (Assignment (Option F))
  | 0, _ => stop .rounds
  | n + 1, a => do
    match ← declaration rounds nums a with
    | some a => declarations n a
    | none => return a

-- What an assignment is before its declarations.
def freshAssignment (name atype : Text) : Assignment (Option F) where
  name
  atype
  wpolicy := .noweight
  weight := some nums.zero
  npolicy := .raw
  max := some nums.zero
  mean := none
  stddev := none
  scale := none
  ngroup := .byclass

def readassignment : Read (Assignment (Option F)) := do
  let name ← readid
  let atype ← readatype
  expectnewline rounds
  declarations rounds nums rounds (freshAssignment nums name atype)

def readassignments : Read (List (Assignment (Option F))) :=
  many (ascii "ASSIGNMENT") (readassignment rounds nums) rounds

variable {n : Nat}

-- The substitution and the code of a valid score are what malloc gives.
def freshScore (asgt : Fin n) : Score (Option F) n :=
  { asgt, grade := none, qnorm := none, lnorm := none, snorm := none, flag := .invalid, code :=
    [], subst := .useraw }

-- The grade of a score. A warning about the maximum changes nothing.
def readvalue (missing : String) : Read F := do
  peek
  match ← scannumber nums with
  | some f => return f
  | none =>
    error (ascii missing)
    return nums.zero

def checksubst : Read (Option Gsubst) := do
  if ← checktoken (ascii "USERAW") then return some .useraw
  else if ← checktoken (ascii "USENORM") then return some .usenorm
  else if ← checktoken (ascii "USELIKEAVG") then return some .uselikeavg
  else if ← checktoken (ascii "USECLASSAVG") then return some .useclassavg
  else return none

def printOption (x : Option F) : Text := x.elim [] nums.print

-- The check of a substitute against the range of its policy. A warning for LINEAR
-- changes nothing.
def checkrange (asgt : Assignment (Option F)) (f : F) : Read Unit :=
  match asgt.npolicy with
  | .raw | .linear => pure ()
  | .quantile =>
    if nums.lt f nums.zero || nums.lt nums.hundred f then
      error (ascii "QUANTILE score (" ++ nums.print f ++ ascii ") not in [0.0, 100.0]\n")
    else
      pure ()
  | .scale =>
    if nums.lt f nums.zero || asgt.scale.any (nums.lt · f) then
      error (ascii "SCALE score (" ++ nums.print f ++ ascii ") not in [0.0, " ++
        printOption nums asgt.scale ++
        ascii "]\n")
    else
      pure ()

def readnormalized (asgt : Assignment (Option F)) (s : Score (Option F) n) :
    Read (Score (Option F) n) := do
  peek
  match ← scannumber nums with
  | some f =>
    checkrange nums asgt f
    return { s with qnorm := some f, lnorm := some f, snorm := some f }
  | none =>
    error (ascii "Expected a normalized score.")
    return { s with qnorm := some nums.zero, lnorm := some nums.zero, snorm := some nums.zero }

def readcode : Read Text := do
  advanceeol
  let r ← get
  flushtoken
  return cstring r.token

def readgrade (asgt : Assignment (Option F)) (s : Score (Option F) n) :
    Read (Score (Option F) n) := do
  match ← checksubst with
  | none =>
    let grade ← readvalue nums "Expected a numeric score."
    return { s with flag := .valid, grade := some grade }
  | some .useraw =>
    let grade ← readvalue nums "Expected a numeric value."
    let code ← readcode
    return { s with subst := .useraw, grade := some grade, code }
  | some .usenorm =>
    let s ← readnormalized nums asgt s
    let code ← readcode
    return { s with subst := .usenorm, code }
  | some subst =>
    let code ← readcode
    return { s with subst, code }

-- The first assignment of that name.
def findassignment (asgts : Vector (Assignment (Option F)) n) (name : Text) : Option (Fin n) :=
  (List.finRange n).find? fun i => asgts[i].name = name

def readscore (asgts : Vector (Assignment (Option F)) n) : Read (Score (Option F) n) := do
  peek
  let r ← get
  if istoken r then
    match findassignment asgts (cstring r.token) with
    | none =>
      fatal (ascii "Undeclared assignment " ++ cstring r.token ++
        ascii " encountered in student scores.")
    | some asgt =>
      flushtoken
      let s ← readgrade nums asgts[asgt] (freshScore asgt)
      expectnewline rounds
      return s
  else
    fatal (ascii "Expecting assignment ID.")

def readscores (asgts : Vector (Assignment (Option F)) n) : Read (List (Score (Option F) n)) :=
  many (ascii "SCORE") (readscore rounds nums asgts) rounds

def readstudent (asgts : Vector (Assignment (Option F)) n) : Read (Student (Option F) n) := do
  let id ← readid
  let surname ← readsurname
  let name ← readname rounds
  let rawscores ← readscores rounds nums asgts
  return { id, surname, name, rawscores, normscores := [], composite := none }

def readstudents (asgts : Vector (Assignment (Option F)) n) : Read (List (Student (Option F) n)) :=
  many (ascii "STUDENT") (readstudent rounds nums asgts) rounds

def readsection (asgts : Vector (Assignment (Option F)) n) : Read (Section (Option F) n) := do
  let name ← readname rounds
  let assistant ← readassistant rounds
  let roster ← readstudents rounds nums asgts
  return { name, assistant, roster }

-- A file that is included is not followed.
def readsections (asgts : Vector (Assignment (Option F)) n) :
    Nat → Read (List (Section (Option F) n))
  | 0 => stop .rounds
  | m + 1 => do
    peek
    let r ← get
    if istoken r then
      if ← checktoken (ascii "FILE") then
        stop .otherFile
      else if ← checktoken (ascii "SECTION") then
        let s ← readsection rounds nums asgts
        let rest ← readsections asgts m
        return s :: rest
      else
        return []
    else
      return []

def readcourse : Read ((n : Nat) × Course (Option F) n) := do
  expecttoken (ascii "COURSE")
  let number ← readid
  let title ← readname rounds
  let professor ← readprofessor rounds
  let assignments ← readassignments rounds nums
  let sections ← readsections rounds nums ⟨assignments.toArray, rfl⟩ rounds
  return ⟨_, { number, title, professor, assignments := ⟨assignments.toArray, rfl⟩, sections }⟩

def readfile : Read ((n : Nat) × Course (Option F) n) := do
  gobbleblanklines rounds
  let c ← readcourse rounds nums
  gobbleblanklines rounds
  expecteof
  return c

end

def Reader.start (text : List Byte) : Reader :=
  { input := text, token := [], size := 64, line := 1, errors := [] }

end CSE320.Grades.File
