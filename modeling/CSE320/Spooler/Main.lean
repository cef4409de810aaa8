import CSE320.Spooler.State

namespace CSE320.Spooler

open Lib (Byte ascii)

-- A text of strerror, which is short.
structure ErrorText where
  text : Word
  short : text.length ≤ 128
deriving DecidableEq

-- What fork returns: -1 with the message of its error, the number of the new process,
-- or 0 in the new process.
inductive ForkResult where
  | failed (error : ErrorText)
  | parent
  | child
deriving DecidableEq

-- The outcomes of the system calls, by the number of calls of fork before them, and
-- the places of queue and result that may be used.
structure Env where
  forkResult : Nat → ForkResult
  connects : Nat → Bool
  execs : Nat → Bool
  inBounds : Nat → Bool

def strtoiLoop (num : BitVec 32) : Word → BitVec 32 × Word
  | [] => (num, [])
  | c :: str =>
    if 47 < c.toInt ∧ c.toInt < 58 then strtoiLoop (num * 10 + (c.signExtend 32 - 48)) str
      else (num, c :: str)

-- The result is -1 for a string that is no number.
def strtoi (str : Word) : BitVec 32 :=
  let (sign, str) : BitVec 32 × Word :=
    match str with
    | c :: rest => if c = 45 then (-1, rest) else (1, c :: rest)
    | [] => (1, [])
  let (num, str) := strtoiLoop 0 str
  if str = [] then num * sign else -1

def printerSetValue (name : Word) (s : State) : BitVec 32 × State :=
  match (searchPrinter s.phead name).bind (s.phead[·]?) with
  | none => (0, errorMsgNote "'" name "' not valid printer" s)
  | some p => (1 <<< p.id, s)

-- Two or more names of printers. The first one that is not valid ends the command.
def printerSet (set : BitVec 32) : List Word → State → Option (BitVec 32) × State
  | [], s => (some set, s)
  | name :: names, s =>
    let (tempSet, s) := printerSetValue name s
    if tempSet ≠ 0 then printerSet (set ^^^ tempSet) names s else (none, s)

-- The characters behind the first dot.
def extension : Word → Option Word
  | [] => none
  | c :: str => if c = 46 then some str else extension str

-- The set of printers that the arguments name, or NULL behind a message.
def eligibleSet (names : List Word) (s : State) : Option (BitVec 32) × State :=
  match names with
  | [] => (some 0xffffffff, s)
  | [arg2] =>
    let (set, s) := printerSetValue arg2 s
    if set = 0 then (none, errorMsg "printer not compatible" s) else (some set, s)
  | names =>
    match printerSet 0 names s with
    | (none, s) => (none, s)
    | (some set, s) =>
        if set = 0 then (none, errorMsg "printer not compatible" s) else (some set, s)

def print (arg1 : Word) (names : List Word) (s : State) : Except Fault (Option Nat × State) :=
  match extension arg1 with
  | none => .ok (none, errorMsg "invalid file type" s)
  | some ext =>
    if (searchList s.list.head ext).isNone then .ok (none, errorMsg "invalid file type" s)
    else
      match eligibleSet names s with
      | (none, s') => do
        let s ← delivered s s'
        .ok (none, s)
      | (some set, s) => do
        let (newJob, s) := addJob arg1 ext set s
        let s ← printJobStatus newJob s
        .ok (some newJob, s)

def eligible (job : Job) (i : Nat) : Bool := job.eligiblePrinters &&& (1 <<< i) ≠ 0

section

variable (env : Env)

-- The printers with the identifiers from i on.
def findBfsLoop (job : Job) : Nat → Nat → State → Except Fault (Option Nat × State)
  | 0, _, s => .ok (none, s)
  | left + 1, i, s =>
    if eligible job i then
      match getPrinterById s.phead i with
      | none => findBfsLoop job left (i + 1) s
      | some printer =>
        match s.phead[printer]? with
        | none => .error .nullPointer
        | some p =>
          if p.enabled && !p.busy then do
            let list ← bfs env.inBounds job.fileType p.type s.list
            let searches := s.searches ++ [⟨job.fileType, p.type, s.list⟩]
            -- path available
            if list.result ≠ [] then .ok (some printer, { s with list, searches })
            else findBfsLoop job left (i + 1) { s with list, searches }
          else
            findBfsLoop job left (i + 1) s
    else
      findBfsLoop job left (i + 1) s

def findBfs (job : Job) (s : State) : Except Fault (Option Nat × State) :=
  findBfsLoop env job 32 0 s

def fork (s : State) : ForkResult × State :=
  let s' := { s with forks := s.forks + 1 }
  match env.forkResult s.forks with
  | .failed error => (.failed error, errorMsgNote "fork error: " error.text "" s')
  | result => (result, s')

def setBusy (printer : Nat) (busy : Bool) (s : State) : State :=
  { s with phead := s.phead.modify printer fun p => { p with busy } }

def wifexited (status : BitVec 32) : Nat := if status &&& 0x7f = 0 then 1 else 0

def exitSuccess : Nat := 0

def exitFailure : Nat := 1

-- The process that prints the job. What open and dup2 return is not tested.
def child (s : State) : Except Fault State :=
  if env.connects s.forks then
    if env.execs s.forks then .error .replaced else .error (.exited exitFailure)
  else
    .ok s

-- The process that waits for it. The status that it tests is not the status of a process.
def master (s : State) : Except Fault State :=
  let (pid, s) := fork env s
  match pid with
  | .child => child env s
  | _ =>
    let random := 0
    .error (.exited (if wifexited random = exitSuccess then exitSuccess else exitFailure))

-- Every process goes on from here: the new one is the master, the other one is back in
-- the command.
def forkConv (processPrint : State → Except Fault State) (j printer : Nat) (s : State) :
    Except Fault State := do
  let s := setBusy printer true s
  let s ← printPrinterStatus printer s
  let s := { s with
    jhead := s.jhead.modify j fun job => { job with chosenPrinter := some printer } }
  let s ← changeJobStatus j .running s
  let (pid, s) := fork env s
  match pid with
  | .child => master env s
  | _ => do
    let s := setBusy printer false s
    let s ← printPrinterStatus printer s
    let random := 0
    let s ← changeJobStatus j (if wifexited random = exitSuccess then .completed else .aborted) s
    processPrint s

-- The jobs from the cursor on.
def processJobs (processPrint : State → Except Fault State) :
    Nat → Nat → State → Except Fault State
  | 0, _, s => .ok s
  | left + 1, cursor, s =>
    match s.jhead[cursor]? with
    | none => .ok s
    | some job =>
      if job.status = .queued then do
        let (p, s) ← findBfs env job s
        match p with
        | none => processJobs processPrint left (cursor + 1) s
        | some p => do
          let s ← forkConv env processPrint cursor p s
          processJobs processPrint left (cursor + 1) s
      else
        processJobs processPrint left (cursor + 1) s

-- The calls that are nested at most as deep as the number says.
def processPrint : Nat → State → Except Fault State
  | 0, _ => .error .unfinished
  | depth + 1, s => processJobs env (processPrint depth) s.jhead.length 0 s

-- Each nested call finds one job less that is queued.
def processAll (s : State) : Except Fault State := processPrint env (s.jhead.length + 1) s

-- The number of arguments is tested first.
def noArgument (args : List Word) (s : State) (command : State → State) : State :=
  if args = [] then command s else tryHelp (tooManyArg s)

def oneArgument (name : String) (args : List Word) (s : State)
    (command : Word → State → Except Fault State) :
    Except Fault State :=
  match args with
  | [] => .ok (tryHelp (reqArg name s))
  | [arg1] => command arg1 s
  | _ => .ok (tryHelp (tooManyArg s))

def declarePrinter (args : List Word) (s : State) : Except Fault State :=
  match args with
  | [arg1, arg2] =>
    if (searchPrinter s.phead arg1).isNone && (searchList s.list.head arg2).isSome then
      match addPrinter arg1 arg2 s with
      | (none, _) => .error .nullPointer
      | (some status, s) => printPrinterStatus status s
    else
      .ok (errorMsg "file type/printer not compatible" s)
  | _ :: _ :: _ => .ok (tryHelp (tooManyArg s))
  | _ => .ok (tryHelp (reqArg "printer" s))

def declareConversion (args : List Word) (s : State) : Except Fault State :=
  match args with
  | arg1 :: arg2 :: arg3 :: rest => do
    let s ← delivered s (addConv arg1 arg2 arg3 rest s)
    processAll env s
  | _ => .ok (tryHelp (reqArg "conversion" s))

def printFile (args : List Word) (s : State) : Except Fault State :=
  match args with
  | [] => .ok (tryHelp (reqArg "print" s))
  | arg1 :: names => do
    let (newJob, s) ← print arg1 names s
    match newJob with
    | none => .ok s
    | some newJob =>
      match s.jhead[newJob]? with
      | none => .error .nullPointer
      | some job => do
        let (p, s) ← findBfs env job s
        match p with
        | none => .ok s
        | some p => forkConv env (processPrint env (s.jhead.length + 1)) newJob p s

-- The job with the number that the argument says.
def onJob (arg1 : Word) (s : State) (command : Nat → Job → Except Fault State) :
    Except Fault State :=
  let num := strtoi arg1
  if num.toInt ≥ 0 then
    match searchJobid s.jhead num with
    | none => .ok (errorMsg "job_number not found" s)
    | some j =>
      match s.jhead[j]? with
      | none => .error .nullPointer
      | some job => command j job
  else
    .ok (errorMsg "invalid job_number" s)

def cancel (arg1 : Word) (s : State) : Except Fault State :=
  onJob arg1 s fun j _ => changeJobStatus j .aborted s

def pause (arg1 : Word) (s : State) : Except Fault State :=
  onJob arg1 s fun j job =>
    if job.status = .running then changeJobStatus j .paused s
      else .ok (errorMsg "job not running" s)

def resume (arg1 : Word) (s : State) : Except Fault State :=
  onJob arg1 s fun j job =>
    if job.status = .paused then changeJobStatus j .running s else .ok (errorMsg "job not paused" s)

def setEnabled (printer : Nat) (enabled : Bool) (s : State) : State :=
  { s with phead := s.phead.modify printer fun p => { p with enabled } }

-- The printer with the name that the argument says.
def onPrinter (arg1 : Word) (s : State) (command : Nat → Printer → Except Fault State) :
    Except Fault State :=
  match searchPrinter s.phead arg1 with
  | none => delivered s (errorMsgNote "printer '" arg1 "' not compatible" s)
  | some p =>
    match s.phead[p]? with
    | none => .error .nullPointer
    | some printer => command p printer

def disable (arg1 : Word) (s : State) : Except Fault State :=
  onPrinter arg1 s fun p printer =>
    if printer.enabled then printPrinterStatus p (setEnabled p false s)
    else .ok (errorMsg "unable to disable printer" s)

def enable (arg1 : Word) (s : State) : Except Fault State :=
  onPrinter arg1 s fun p printer =>
    if !printer.enabled then do
      let s ← printPrinterStatus p (setEnabled p true s)
      processAll env s
    else
      .ok (errorMsg "unable to enable printer" s)

-- The commands that do not end the program.
def command (token : Word) (args : List Word) (s : State) : Except Fault State :=
  if token = ascii "help" then .ok (noArgument args s fun s => s.print .help)
  else if token = ascii "type" then oneArgument "type" args s fun arg1 s => .ok (addList arg1 s)
  else if token = ascii "printer" then declarePrinter args s
  else if token = ascii "conversion" then declareConversion env args s
  else if token = ascii "printers" then .ok (noArgument args s printPrinter)
  else if token = ascii "jobs" then .ok (noArgument args s printJob)
  else if token = ascii "print" then printFile env args s
  else if token = ascii "cancel" then oneArgument "cancel" args s cancel
  else if token = ascii "pause" then oneArgument "pause" args s pause
  else if token = ascii "resume" then oneArgument "resume" args s resume
  else if token = ascii "disable" then oneArgument "disable" args s disable
  else if token = ascii "enable" then oneArgument "enable" args s (enable env)
  else delivered s (tryHelp (invalidOpt token s))

-- The words of one command. The result is 0 behind quit.
def interactiveMode (words : List Word) (s : State) : Except Fault (Bool × State) :=
  match words with
  | [] => .ok (true, s)
  | token :: args =>
    if token = ascii "quit" then
      if args = [] then .ok (false, s) else .ok (true, tryHelp (tooManyArg s))
    else do
      let s ← command env token args s
      .ok (true, s)

-- The commands of a session up to the first quit.
def session : List (List Word) → State → Except Fault State
  | [], s => .ok s
  | words :: commands, s => do
    let (more, s) ← interactiveMode env words s
    if more then session commands s else .ok s

end

end CSE320.Spooler
