import CSE320.Spooler.Search

namespace CSE320.Spooler

open Lib (Byte ascii)

structure Printer where
  id : Nat
  name : Word
  type : Word
  enabled : Bool
  busy : Bool
deriving DecidableEq, Repr

inductive JobStatus where
  | queued
  | running
  | paused
  | completed
  | aborted
deriving DecidableEq, Repr

-- The chosen printer is an index into the list of printers.
structure Job where
  jobid : BitVec 32
  status : JobStatus
  fileName : Word
  fileType : Word
  eligiblePrinters : BitVec 32
  chosenPrinter : Option Nat
deriving DecidableEq, Repr

-- The lines of the output, as the arguments of the functions that format them. A
-- note is written to stderr.
inductive Line where
  | help
  | printerStatus (printer : Printer)
  | jobStatus (job : Job)
  | error (msg : Word)
  | note (msg : Word)
deriving DecidableEq, Repr

-- The globals of the program, with the number of calls of fork and the calls of bfs
-- that have been made.
structure State where
  list : Search
  searches : List SearchCall
  phead : List Printer
  printerId : Nat
  jhead : List Job
  jobId : BitVec 32
  forks : Nat
  out : List Line
deriving DecidableEq, Repr

def State.start : State where
  list := ⟨[], [], []⟩
  searches := []
  phead := []
  printerId := 0
  jhead := []
  jobId := 0
  forks := 0
  out := []

def State.print (line : Line) (s : State) : State := { s with out := s.out ++ [line] }

def errorMsg (msg : String) (s : State) : State := s.print (.error (ascii msg))

-- The characters of the buffer dest in msg.c, into which sprintf writes a message with a
-- word of the user.
def messageMax : Nat := 512

-- The message and its NUL fit.
def Line.fits : Line → Bool
  | .error msg => msg.length < messageMax
  | .note msg => msg.length < messageMax
  | _ => true

-- The lines that are new in a state have been written into their buffers. A function that
-- prints a word of the user returns behind the message, and its caller tests it.
def delivered (s s' : State) : Except Fault State :=
  if (s'.out.drop s.out.length).all Line.fits then .ok s' else .error .overflow

-- The format with the string in place of its %s.
def errorMsgNote (before : String) (str : Word) (after : String) (s : State) : State :=
  s.print (.note (ascii before ++ str ++ ascii after))

def tryHelp (s : State) : State := s.print (.error (ascii "try 'help' for more information\n"))

def reqArg (str : String) (s : State) : State :=
  errorMsg ("option requires an argument -- '" ++ str ++ "'") s

def invalidOpt (str : Word) (s : State) : State :=
  s.print (.error (ascii "invalid option -- '" ++ str ++ ascii "'"))

def tooManyArg (s : State) : State := errorMsg "too many argument" s

def addList (newData : Word) (s : State) : State :=
  if (searchList s.list.head newData).isSome then errorMsg "type already exists" s
  else { s with list := { s.list with head := s.list.head ++ [⟨newData, false, []⟩] } }

def addConv (data1 data2 convProg : Word) (args : List Word) (s : State) : State :=
  if data1 = data2 then s
  else
    match searchList s.list.head data1, searchList s.list.head data2 with
    | none, _ => errorMsgNote "file type '" data1 "' not compatible" s
    | some _, none => errorMsgNote "file type '" data2 "' not compatible" s
    | some d1, some _ =>
      let append (n : Node) : Node :=
        if (searchConv n.conv data2).isSome then n
          else { n with conv := n.conv ++ [⟨data2, convProg, args⟩] }
      { s with list := { s.list with head := s.list.head.modify d1 append } }

def maxPrinters : Nat := 32

def searchPrinter (head : List Printer) (name : Word) : Option Nat :=
  head.findIdx? fun p => p.name = name

def getPrinterById (head : List Printer) (id : Nat) : Option Nat := head.findIdx? fun p => p.id = id

-- The new node, or NULL.
def addPrinter (name type : Word) (s : State) : Option Nat × State :=
  if s.printerId + 1 = maxPrinters then (none, errorMsg "max printer (32)" s)
  else if (searchPrinter s.phead name).isSome then (none, errorMsg "printer already exists" s)
  else
    (some s.phead.length,
      { s with phead := s.phead ++ [⟨s.printerId, name, type, false, false⟩], printerId :=
        s.printerId + 1 })

def printPrinterStatus (printer : Nat) (s : State) : Except Fault State :=
  match s.phead[printer]? with
  | none => .error .nullPointer
  | some p => .ok (s.print (.printerStatus p))

def printPrinter (s : State) : State :=
  if s.phead = [] then errorMsg "printer is NULL" s
  else { s with out := s.out ++ s.phead.map .printerStatus }

def addJob (file ext : Word) (set : BitVec 32) (s : State) : Nat × State :=
  (s.jhead.length, { s with jhead := s.jhead ++ [⟨s.jobId, .queued, file, ext, set, none⟩], jobId :=
    s.jobId + 1 })

def searchJobid (head : List Job) (id : BitVec 32) : Option Nat :=
  head.findIdx? fun j => j.jobid = id

def printJobStatus (job : Nat) (s : State) : Except Fault State :=
  match s.jhead[job]? with
  | none => .error .nullPointer
  | some j => .ok (s.print (.jobStatus j))

def printJob (s : State) : State :=
  if s.jhead = [] then errorMsg "job is NULL" s
  else { s with out := s.out ++ s.jhead.map .jobStatus }

-- A job that is not running has no printer.
def changeJobStatus (job : Nat) (status : JobStatus) (s : State) : Except Fault State :=
  let change (j : Job) : Job :=
    if status = .queued ∨ status = .completed ∨
      status = .aborted then { j with status, chosenPrinter := none }
    else { j with status }
  printJobStatus job { s with jhead := s.jhead.modify job change }

end CSE320.Spooler
