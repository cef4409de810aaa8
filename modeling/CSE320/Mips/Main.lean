import CSE320.Mips.Code

namespace CSE320.Mips

open Lib (Byte ascii)

-- A string is the list of its characters without the NUL at its end.
def stringEqual : List Byte → List Byte → Bool
  | [], [] => true
  | c :: _, [] => c = 10
  | [], _ :: _ => false
  | c :: word1, d :: word2 => c = d && stringEqual word1 word2

-- The three counts stop at the end of the line.
def countChar (c : Byte) : List Byte → Int
  | [] => 0
  | b :: word => if b = 10 then 0 else if b = c then 1 + countChar c word else 0 + countChar c word

def countCommas (word : List Byte) : Int := countChar 44 word

def countDollaSign (word : List Byte) : Int := countChar 36 word

def countSpaces (word : List Byte) : Int := countChar 32 word

def sameParenthesis : List Byte → Int
  | [] => 0
  | b :: word =>
    if b = 10 then 0
    else if b = 40 then 1 + sameParenthesis word
    else if b = 41 then -1 + sameParenthesis word
    else sameParenthesis word

def lastThreeZero (num : List Byte) (length : Nat) : Bool :=
  if length < 1 then false
  else (if length > 3 then num.drop (length - 3) else num).all (· = 48)

def validBase (num : List Byte) : Bool :=
  num.length < 9 && num.all (Lib.isDigit 16) && lastThreeZero num num.length

-- The result is shifted between the digits. A character that is no digit gives 0.
def strToI (result : BitVec 32) : List Byte → BitVec 32
  | [] => 0
  | c :: num =>
    if Lib.isDigit 16 c then
      let result := result + BitVec.ofNat 32 (Lib.digitVal c)
      if num = [] then result else strToI (result <<< 4) num
    else
      0

-- The third bit is set for big-endian.
def endianness (options : BitVec 32) (arg : List Byte) : Option (BitVec 32) :=
  if arg = ascii "b" then some (options ||| 4) else if arg = ascii "l" then some options else none

def baseAddress (options : BitVec 32) (arg : List Byte) : Option (BitVec 32) :=
  if validBase arg then some (options ||| strToI 0 arg) else none

-- The arguments behind -a and -d.
def modeArgs (options : BitVec 32) : List (List Byte) → Option (BitVec 32)
  | [] => some options
  | [flag, arg] =>
    if flag = ascii "-b" then baseAddress options arg
    else if flag = ascii "-e" then endianness options arg
    else none
  | [flag, arg, flag', arg'] =>
    if flag = ascii "-e" ∧ flag' = ascii "-b" then do
      let options ← endianness options arg
      baseAddress options arg'
    else if flag = ascii "-b" ∧ flag' = ascii "-e" then do
      let options ← baseAddress options arg
      endianness options arg'
    else
      none
  | _ => none

-- The arguments without the name of the program. The result is global_options
-- when the arguments are valid.
def validargs : List (List Byte) → Option (BitVec 32)
  | [] => none
  | mode :: rest =>
    if mode = ascii "-h" then some 1
    else if mode = ascii "-a" then modeArgs 0 rest
    else if mode = ascii "-d" then modeArgs 2 rest
    else none

-- One line, or as much of it as fits.
def readLine : Nat → List Byte → List Byte × List Byte
  | 0, stdin => ([], stdin)
  | _, [] => ([], [])
  | n + 1, c :: stdin =>
    if c = 10 then ([c], stdin)
    else
      let (line, rest) := readLine n stdin
      (c :: line, rest)

def fgets (size : Nat) (stdin : List Byte) : Option (List Byte × List Byte) :=
  if stdin = [] then none else some (readLine (size - 1) stdin)

-- The strings that the calls of fgets store in userInput, until one returns NULL.
-- Each call reads at least one character.
def userInputs : Nat → List Byte → List (List Byte)
  | 0, _ => []
  | calls + 1, stdin =>
    match fgets 30 stdin with
    | none => []
    | some (line, rest) => line.takeWhile (· ≠ 0) :: userInputs calls rest

-- The first entry whose format stores something, ends the input or is the input.
-- The loop reads one format behind the table before it gives up, and does not use
-- the result.
def findFormat (userInput : List Byte) : Option (InstrInfo × Lib.Scan) :=
  ((instrTable.take numElem).map fun info => (info, Lib.sscanf userInput (ascii info.format))).find?
    fun entry =>
    entry.2.count ≠ 0 || stringEqual userInput (ascii entry.1.format)

def isRegister (src : Source) : Bool := src = .rd || src = .rs || src = .rt

-- The number of arguments of an instruction.
def countedArg (info : InstrInfo) : Int :=
  ((List.finRange 3).countP fun i => isRegister (info.srcs i) || info.srcs i = .extra : Nat)

-- The values that sscanf has stored, over the old content.
def storeArgs (values : List (BitVec 32)) (args : Fin 3 → BitVec 32) : Fin 3 → BitVec 32 :=
  fun i => values.getD i (args i)

-- The tests on the text of a line.
def wellFormed (info : InstrInfo) (amtOfArg : Int) (userInput : List Byte) : Bool :=
  !(countCommas userInput ≥ amtOfArg && amtOfArg ≠ 0) &&
    countDollaSign (ascii info.format) = countDollaSign userInput &&
    countSpaces (ascii info.format) = countSpaces userInput && sameParenthesis userInput = 0

def registersInRange (info : InstrInfo) (args : Fin 3 → BitVec 32) : Bool :=
  (List.finRange 3).all fun i => !isRegister (info.srcs i) ||
    !((args i).toInt < 0 || (args i).toInt > 31)

-- The operands of the line are copied into the record.
def transfer (instr : Instruction) (info : InstrInfo) : Instruction where
  value := instr.value
  info := some info
  regs := fun i => if isRegister (info.srcs i) then (instr.args i).setWidth 8 else instr.regs i
  extra := (List.finRange 3).foldl (fun extra i => if info.srcs i = .extra then instr.args i
    else extra) instr.extra
  args := instr.args

-- The output loop of the assembler, which shifts the value out of the record.
def putBytes : Nat → BitVec 32 → List Byte × BitVec 32
  | 0, value => ([], value)
  | n + 1, value =>
    let (bytes, left) := putBytes n (value.sshiftRight 8)
    (value.setWidth 8 :: bytes, left)

def assembleLine (endi : Bool) (instr : Instruction) (addr : BitVec 32) (userInput : List Byte) :
    Except Failure (Instruction × List Byte) :=
  match findFormat userInput with
  | none => .error .rejected
  | some (info, scanned) =>
    let instr := { instr with info := some info, args := storeArgs scanned.values instr.args }
    if !wellFormed info scanned.count userInput then .error .rejected
    else if !registersInRange info instr.args then .error .rejected
    else if countedArg info ≠ scanned.count then .error .rejected
    else do
      let instr ← encode (transfer instr info) addr
      let (bytes, left) := putBytes 4 (if endi then bigEndian instr.value else instr.value)
      return ({ instr with value := left }, bytes)

inductive Status where
  | success
  | failure
  | crash
deriving DecidableEq, Repr

-- What a run leaves behind: how it ended and what it has written to stdout.
structure Outcome where
  status : Status
  stdout : List Byte
deriving DecidableEq, Repr

def Failure.status : Failure → Status
  | rejected => .failure
  | nullPointer => .crash

def Outcome.after (stdout : List Byte) (o : Outcome) : Outcome :=
  { o with stdout := stdout ++ o.stdout }

def assembleLoop (endi : Bool) (instr : Instruction) (addr : BitVec 32) : List (List Byte) → Outcome
  | [] => ⟨.success, []⟩
  | userInput :: rest =>
    match assembleLine endi instr addr userInput with
    | .error e => ⟨e.status, []⟩
    | .ok (instr, bytes) => (assembleLoop endi instr (addr + 4) rest).after bytes

-- One round of the disassembler.
def disassembleWord (endi : Bool) (instr : Instruction) (addr word : BitVec 32) :
    Except Failure (Instruction × List Byte) := do
  let instr ← decode { instr with value := if endi then bigEndian word else word } addr
  match instr.info with
  | none => throw .nullPointer
  | some info =>
    return (instr, Lib.printf (ascii info.format) [instr.args 0, instr.args 1, instr.args 2] ++
      [10])

-- fread gives nothing when fewer than four bytes are left.
def disassembleLoop (endi : Bool) (instr : Instruction) (addr : BitVec 32) : List Byte → Outcome
  | a :: b :: c :: d :: stdin =>
    match disassembleWord endi instr addr (Lib.word a b c d) with
    | .error e => ⟨e.status, []⟩
    | .ok (instr, line) => (disassembleLoop endi instr (addr + 4) stdin).after line
  | _ => ⟨.success, []⟩

def assemble (endi : Bool) (addr : BitVec 32) (stdin : List Byte) : Outcome :=
  assembleLoop endi .zero addr (userInputs stdin.length stdin)

def disassemble (endi : Bool) (addr : BitVec 32) (stdin : List Byte) : Outcome :=
  disassembleLoop endi .zero addr stdin

-- The usage message goes to stderr.
def main (argv : List (List Byte)) (stdin : List Byte) : Outcome :=
  match validargs argv with
  | none => ⟨.failure, []⟩
  | some options =>
    if options &&& 1 ≠ 0 then ⟨.success, []⟩
    else
      let addr := options &&& 0xFFFFF000
      let endi := decide ((options >>> 2) &&& 1 ≠ 0)
      if (options >>> 1) &&& 1 ≠ 0 then disassemble endi addr stdin else assemble endi addr stdin

end CSE320.Mips
