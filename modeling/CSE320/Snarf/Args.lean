import CSE320.Lib.CString
import Mathlib.Data.List.Basic

namespace CSE320.Snarf

open Lib (Byte)

-- The strings of the arguments stand one behind the other in memory, each with its NUL.
def argvMemory (argv : List (List Byte)) : List Byte := argv.flatMap fun arg => arg ++ [0]

def argvPointers (p : Nat) : List (List Byte) → List Nat
  | [] => []
  | arg :: argv => p :: argvPointers (p + arg.length + 1) argv

-- The string that a pointer leads to.
def stringAt (mem : List Byte) (p : Nat) : List Byte := Lib.cstr (mem.drop p)

def stringEquals : List Byte → List Byte → Bool
  | [], word2 => word2.headD 0 = 0
  | c :: word1, word2 =>
    if c = 0 ∧ word2.headD 0 = 0 then true
    else if c = word2.headD 0 then stringEquals word1 word2.tail
    else false

-- The characters are copied one by one, also over the word they come from.
def concatLoop : Nat → List Byte → Nat → Nat → Option (List Byte)
  | 0, _, _, _ => none
  | steps + 1, mem, length1, word2 =>
    let c := mem.getD word2 0
    if c = 0 then some (mem.set length1 0)
    else concatLoop steps (mem.set length1 c) (length1 + 1) (word2 + 1)

def stringConcat (mem : List Byte) (word1 word2 : Nat) : Option (List Byte) :=
  let length1 := word1 + (stringAt mem word1).length
  concatLoop (mem.length + 1) (mem.set length1 32) (length1 + 1) word2

-- What getopt makes of the arguments that are left. Options stand in front of other arguments,
-- and each option that there is takes an argument of its own.
inductive Getopt where
  | option (c : Byte) (optarg : Nat) (rest : List Nat)
  | unknown (optopt : Byte)
  | done (rest : List Nat)
deriving DecidableEq, Repr

def getopt (options : List Byte) (mem : List Byte) : List Nat → Getopt
  | [] => .done []
  | p :: rest =>
    match stringAt mem p with
    | [45, 45] => .done rest
    | 45 :: c :: attached =>
      if options.contains c then
        if attached ≠ [] then .option c (p + 2) rest
        else
          match rest with
          | [] => .unknown c
          | optarg :: rest => .option c optarg rest
      else .unknown c
    | _ => .done (p :: rest)

-- The memory and the pointers that main reads.
structure Args where
  mem : List Byte
  keyParam : Option Nat
  outputFile : Option Nat
  urlToSnarf : Option Nat
deriving DecidableEq, Repr

-- The program may end with its usage and a status.
inductive Parsed where
  | usage (status : Int)
  | args (args : Args)
deriving DecidableEq, Repr

-- The character in front of an argument that is one of its own is the end of another one.
def refused (mem : List Byte) (optarg : Nat) : Bool :=
  stringEquals (mem.drop optarg) (Lib.ascii "-o") ||
    stringEquals (mem.drop optarg) (Lib.ascii "-q") || mem.getD (optarg - 1) 0 ≠ 0

def queryHeader (args : Args) (optarg : Nat) : Option Parsed :=
  if refused args.mem optarg then some (.usage (-1))
  else
    match args.keyParam with
    | none => some (.args { args with keyParam := some optarg })
    | some keyParam => do
      let mem ← stringConcat args.mem keyParam optarg
      return .args { args with mem }

def outputTo (args : Args) (optarg : Nat) : Parsed :=
  if args.outputFile.isSome || refused args.mem optarg then .usage (-1)
  else .args { args with outputFile := some optarg }

-- The arguments from optind on. There are no more steps than arguments.
def parseArgsLoop : Nat → List Nat → Args → Option Parsed
  | _, [], args => some (.args args)
  | 0, _, _ => none
  | steps + 1, rest, args =>
    match getopt (Lib.ascii "qo") args.mem rest with
    | .option c optarg rest =>
      if c = 113 then do
        match ← queryHeader args optarg with
        | .usage status => return .usage status
        | .args args => parseArgsLoop steps rest args
      else
        match outputTo args optarg with
        | .usage status => some (.usage status)
        | .args args => parseArgsLoop steps rest args
    | .unknown optopt => some (.usage (if optopt = 104 then 0 else -1))
    | .done [] => some (.args args)
    | .done (url :: rest) =>
      if rest ≠ [] then some (.usage (-1)) else some (.args { args with urlToSnarf := some url })

def parseArgs (argv : List (List Byte)) : Option Parsed :=
  let mem := argvMemory argv
  let pointers := argvPointers 0 argv
  if pointers.any fun p => stringEquals (mem.drop p) (Lib.ascii "-h") then some (.usage 0)
  else parseArgsLoop (argv.length + 1) pointers.tail ⟨mem, none, none, none⟩

end CSE320.Snarf
