import CSE320.Spooler.Schedule

namespace CSE320.Spooler

open Lib (ascii)

-- The messages fit into the buffer of msg.c.
def fit (messages : List Word) : Bool := messages.all fun msg => msg.length < messageMax

def fileTypeNote (data : Word) : Word := ascii "file type '" ++ data ++ ascii "' not compatible"

def validNote (name : Word) : Word := ascii "'" ++ name ++ ascii "' not valid printer"

def printerNote (name : Word) : Word := ascii "printer '" ++ name ++ ascii "' not compatible"

def invalidNote (token : Word) : Word := ascii "invalid option -- '" ++ token ++ ascii "'"

-- The first of two types that is not declared.
def conversionComplaints (s : State) : List Word → List Word
  | arg1 :: arg2 :: _ :: _ =>
    if arg1 = arg2 then []
    else if (searchList s.list.head arg1).isNone then [fileTypeNote arg1]
    else if (searchList s.list.head arg2).isNone then [fileTypeNote arg2]
    else []
  | _ => []

-- The first name of a printer that is not declared.
def nameComplaints (s : State) (names : List Word) : List Word :=
  ((names.find? fun name => (searchPrinter s.phead name).isNone).map validNote).toList

def printComplaints (s : State) : List Word → List Word
  | arg1 :: names =>
    match extension arg1 with
    | none => []
    | some ext => if (searchList s.list.head ext).isNone then [] else nameComplaints s names
  | [] => []

def ofOne (messages : Word → List Word) : List Word → List Word
  | [arg1] => messages arg1
  | _ => []

def printerComplaints (s : State) (arg1 : Word) : List Word :=
  if (searchPrinter s.phead arg1).isNone then [printerNote arg1] else []

-- The commands whose messages have no word of the user in them.
def quietCommands : List Word :=
  [ascii "help", ascii "quit", ascii "type", ascii "printer", ascii "printers", ascii "jobs",
    ascii "cancel", ascii "pause", ascii "resume"]

-- The messages with a word of the user in them that a command prints.
def complaints (s : State) : List Word → List Word
  | [] => []
  | token :: args =>
    if token = ascii "conversion" then conversionComplaints s args
    else if token = ascii "print" then printComplaints s args
    else if token = ascii "disable" then ofOne (printerComplaints s) args
    else if token = ascii "enable" then ofOne (printerComplaints s) args
    else if quietCommands.contains token then []
    else [invalidNote token]

-- A command returns to the prompt, with that many printers more, exactly when these messages
-- fit. Otherwise the buffer of one of them is left.
def Returns (env : Env) (s : State) (messages : List Word) (more : Nat)
    (result : Except Fault State) : Prop :=
  if fit messages = true then
    ∃ s', result = .ok s' ∧ Consistent s' ∧ AtPrompt env s' ∧ s'.printerId = s.printerId + more
  else
    result = .error .overflow

theorem returns_of_ok {env : Env} {s s' : State} {more : Nat} {result : Except Fault State}
    (hresult : result = .ok s') (hs : Consistent s') (hprompt : AtPrompt env s')
    (hmore : s'.printerId = s.printerId + more) : Returns env s [] more result :=
  ⟨s', hresult, hs, hprompt, hmore⟩

theorem delivered_eq_ok {s s' r : State} : delivered s s' = .ok r ↔
    r = s' ∧ ∀ line ∈ s'.out.drop s.out.length, line.fits = true := by
  unfold delivered
  split
  · rename_i h
    rw [List.all_eq_true] at h
    exact ⟨fun heq => ⟨(Except.ok.inj heq).symm, h⟩, fun heq => by rw [heq.1]⟩
  · rename_i h
    rw [List.all_eq_true] at h
    exact ⟨fun heq => (nomatch heq), fun hfits => absurd hfits.2 h⟩

-- A message, and what is printed behind it.
theorem delivered_print {s : State} {line : Line} {rest : List Line}
    (hrest : ∀ line ∈ rest, line.fits = true) (out : List Line)
    (hout : out = s.out ++ line :: rest) :
    delivered s { s with out } =
      if line.fits = true then .ok { s with out } else .error .overflow := by
  have hnew : out.drop s.out.length = line :: rest := by rw [hout, List.drop_left]
  have hall : (line :: rest).all Line.fits = line.fits := by
    rw [List.all_cons, List.all_eq_true.mpr hrest, Bool.and_true]
  unfold delivered
  simp only [hnew, hall]

theorem tryHelp_invalidOpt (token : Word) (s : State) :
    let hint : Line := .error (ascii "try 'help' for more information\n")
    tryHelp (invalidOpt token s) =
      { s with out := s.out ++ .error (invalidNote token) :: [hint] } := by
  simp [tryHelp, invalidOpt, State.print, invalidNote]

theorem Consistent.with_out {s : State} (h : Consistent s) (out : List Line) :
    Consistent { s with out } :=
  ⟨h.queue, h.closed, h.printerId, h.limit, h.ids, h.printerTypes, h.jobTypes⟩

theorem AtPrompt.with_out {env : Env} {s : State} (h : AtPrompt env s) (out : List Line) :
    AtPrompt env { s with out } :=
  ⟨h.idle, h.settled, h.waiting⟩

theorem Consistent.print {s : State} (h : Consistent s) (line : Line) : Consistent (s.print line) :=
  h.with_out _

theorem AtPrompt.print {env : Env} {s : State} (h : AtPrompt env s) (line : Line) :
    AtPrompt env (s.print line) :=
  h.with_out _

-- A new job of a declared type.
theorem Consistent.with_job {s : State} (h : Consistent s) {job : Job} (jobId : BitVec 32)
    (out : List Line) (htype : job.fileType ∈ types s.list.head) :
    Consistent { s with jhead := s.jhead ++ [job], jobId, out } := by
  refine ⟨h.queue, h.closed, h.printerId, h.limit, h.ids, h.printerTypes, fun j hj => ?_⟩
  rcases List.mem_append.mp hj with hj | hj
  · exact h.jobTypes j hj
  · rw [List.mem_singleton.mp hj]
    exact htype

theorem setEnabled_getElem? {s : State} {i k : Nat} {enabled : Bool} {p' : Printer}
    (h : (setEnabled i enabled s).phead[k]? = some p') :
    ∃ p, s.phead[k]? = some p ∧ p'.id = p.id ∧ p'.type = p.type ∧ p'.busy = p.busy ∧
      (p'.enabled = p.enabled ∨ p'.enabled = enabled) := by
  rw [setEnabled, List.getElem?_modify] at h
  obtain ⟨p, hp, hchange⟩ := Option.map_eq_some_iff.mp h
  refine ⟨p, hp, ?_⟩
  split at hchange
  · subst hchange
    exact ⟨rfl, rfl, rfl, Or.inr rfl⟩
  · subst hchange
    exact ⟨rfl, rfl, rfl, Or.inl rfl⟩

theorem Consistent.setEnabled {s : State} (h : Consistent s) (i : Nat) (enabled : Bool) :
    Consistent (setEnabled i enabled s) := by
  refine ⟨h.queue, h.closed, ?_, h.limit, fun k p' hp' => ?_, fun p' hp' => ?_, h.jobTypes⟩
  · exact h.printerId.trans (List.length_modify ..).symm
  · obtain ⟨p, hp, hid, -⟩ := setEnabled_getElem? hp'
    rw [hid]
    exact h.ids k p hp
  · obtain ⟨k, hk⟩ := List.mem_iff_getElem?.mp hp'
    obtain ⟨p, hp, -, htype, -⟩ := setEnabled_getElem? hk
    rw [htype]
    exact h.printerTypes p (List.mem_of_getElem? hp)

theorem idle_setEnabled {s : State} (h : ∀ p ∈ s.phead, p.busy = false) (i : Nat) (enabled : Bool) :
    ∀ p ∈ (setEnabled i enabled s).phead, p.busy = false := by
  intro p' hp'
  obtain ⟨k, hk⟩ := List.mem_iff_getElem?.mp hp'
  obtain ⟨p, hp, -, -, hbusy, -⟩ := setEnabled_getElem? hk
  rw [hbusy]
  exact h p (List.mem_of_getElem? hp)

-- The words declare a new printer.
def declares (s : State) (words : List Word) : Bool :=
  match words with
  | [token, name, type] =>
    token = ascii "printer" && (searchPrinter s.phead name).isNone &&
      (searchList s.list.head type).isSome
  | _ => false

-- The printers that a session declares.
def declared (env : Env) : List (List Word) → State → Nat
  | [], _ => 0
  | words :: commands, s =>
    (if declares s words = true then 1 else 0) +
      match interactiveMode env words s with
      | .ok (true, s) => declared env commands s
      | _ => 0

-- The messages of every command of a session fit.
def worded (env : Env) : List (List Word) → State → Bool
  | [], _ => true
  | words :: commands, s =>
    fit (complaints s words) &&
      match interactiveMode env words s with
      | .ok (true, s) => worded env commands s
      | _ => true

theorem declares_iff {s : State} {words : List Word} : declares s words = true ↔
    ∃ name type, words = [ascii "printer", name, type] ∧ searchPrinter s.phead name = none ∧
      type ∈ types s.list.head := by
  constructor
  · intro h
    unfold declares at h
    split at h
    · rename_i token name type
      simp only [Bool.and_eq_true, decide_eq_true_eq, Option.isNone_iff_eq_none,
        searchList_isSome] at h
      obtain ⟨⟨rfl, hname⟩, htype⟩ := h
      exact ⟨name, type, rfl, hname, htype⟩
    · exact nomatch h
  · rintro ⟨name, type, rfl, hname, htype⟩
    rw [← searchList_isSome] at htype
    simp [declares, hname, htype]

-- The state behind the declaration of a printer.
def withPrinter (s : State) (name type : Word) : State :=
  let p : Printer := ⟨s.printerId, name, type, false, false⟩
  State.print (.printerStatus p) { s with phead := s.phead ++ [p], printerId := s.printerId + 1 }

theorem declarePrinter_eq {s : State} {name type : Word} (hname : searchPrinter s.phead name = none)
    (htype : type ∈ types s.list.head) : declarePrinter [name, type] s =
      if s.printerId + 1 = maxPrinters then .error .nullPointer
        else .ok (withPrinter s name type) := by
  rw [← searchList_isSome] at htype
  rw [declarePrinter, hname, htype, if_pos (by rfl), addPrinter]
  by_cases hmax : s.printerId + 1 = maxPrinters
  · rw [if_pos hmax, if_pos hmax]
  · rw [if_neg hmax, if_neg hmax, hname, Option.isSome_none, if_neg Bool.false_ne_true]
    simp only [printPrinterStatus, List.getElem?_concat_length]
    rfl

-- The printer that is one too many ends the program.
theorem interactiveMode_of_limit (env : Env) {s : State} {words : List Word}
    (h : declares s words = true) (hlimit : s.printerId = 31) :
    interactiveMode env words s = .error .nullPointer := by
  obtain ⟨name, type, rfl, hname, htype⟩ := declares_iff.mp h
  have hmax : s.printerId + 1 = maxPrinters := by rw [hlimit, maxPrinters]
  rw [interactiveMode, if_neg (by decide), command, if_neg (by decide),
    if_neg (by decide), if_pos rfl, declarePrinter_eq hname htype, if_pos hmax]
  rfl

theorem mem_withPrinter {s : State} {name type : Word} {p : Printer}
    (hp : p ∈ (withPrinter s name type).phead) :
    p ∈ s.phead ∨ p = ⟨s.printerId, name, type, false, false⟩ := by
  rcases List.mem_append.mp hp with hp | hp
  · exact Or.inl hp
  · exact Or.inr (List.mem_singleton.mp hp)

theorem Consistent.with_printer {s : State} (h : Consistent s) {name type : Word}
    (htype : type ∈ types s.list.head) (hlimit : s.printerId < 31) :
    Consistent (withPrinter s name type) := by
  have hcount := h.printerId
  refine ⟨h.queue, h.closed, ?_, Nat.succ_le_of_lt hlimit, fun i p hp => ?_,
    fun p hp => ?_, h.jobTypes⟩
  · show s.printerId + 1 = (s.phead ++ [_]).length
    rw [List.length_append, hcount]
    rfl
  · replace hp : (s.phead ++ [_])[i]? = some p := hp
    rw [List.getElem?_append] at hp
    split at hp
    · exact h.ids i p hp
    · obtain ⟨hi, rfl⟩ := List.getElem?_eq_some_iff.mp hp
      simp only [List.length_singleton] at hi
      simp only [List.getElem_singleton]
      omega
  · rcases mem_withPrinter hp with hp | rfl
    · exact h.printerTypes p hp
    · exact htype

-- The new printer is not enabled.
theorem AtPrompt.with_printer {env : Env} {s : State} (h : AtPrompt env s) (name type : Word) :
    AtPrompt env (withPrinter s name type) := by
  refine ⟨fun p hp => ?_, h.settled, fun j hj hqueued p hp henabled => ?_⟩
  · rcases mem_withPrinter hp with hp | rfl
    · exact h.idle p hp
    · rfl
  · rcases mem_withPrinter hp with hp | rfl
    · exact h.waiting j hj hqueued p hp henabled
    · cases henabled

section

variable {env : Env} {s : State} (hs : Consistent s) (hprompt : AtPrompt env s)

include hs hprompt

-- Only messages are printed.
theorem returns_with_out (out : List Line) : Returns env s [] 0 (.ok { s with out }) :=
  returns_of_ok rfl (hs.with_out out) (hprompt.with_out out) rfl

-- A message with a word of the user is printed, and what has none.
theorem returns_delivered {line : Line} (rest : List Line) (message : Word)
    (hline : line.fits = decide (message.length < messageMax))
    (hrest : ∀ line ∈ rest, line.fits = true) (out : List Line)
    (hout : out = s.out ++ line :: rest) :
    Returns env s [message] 0 (delivered s { s with out }) := by
  have hfit : fit [message] = line.fits := by rw [hline]; simp [fit]
  rw [Returns, hfit, delivered_print hrest out hout]
  split
  · exact ⟨_, rfl, hs.with_out out, hprompt.with_out out, rfl⟩
  · rfl

theorem returns_noArgument (args : List Word) {command : State → State}
    (hcommand : Returns env s [] 0 (.ok (command s))) :
    Returns env s [] 0 (.ok (noArgument args s command)) := by
  rw [noArgument]
  split
  · exact hcommand
  · exact returns_with_out hs hprompt _

theorem returns_oneArgument (name : String) (args : List Word)
    {command : Word → State → Except Fault State} (messages : Word → List Word)
    (hcommand : ∀ arg1, Returns env s (messages arg1) 0 (command arg1 s)) :
    Returns env s (ofOne messages args) 0 (oneArgument name args s command) := by
  rcases args with _ | ⟨arg1, _ | ⟨arg2, rest⟩⟩
  · exact returns_with_out hs hprompt _
  · exact hcommand arg1
  · exact returns_with_out hs hprompt _

-- The messages of these commands have no word of the user in them.
theorem returns_quiet (name : String) (args : List Word)
    {command : Word → State → Except Fault State}
    (hcommand : ∀ arg1, Returns env s [] 0 (command arg1 s)) :
    Returns env s [] 0 (oneArgument name args s command) := by
  have hnone : ofOne (fun _ => []) args = [] := by
    rcases args with _ | ⟨arg1, _ | ⟨arg2, rest⟩⟩
    · rfl
    · rfl
    · rfl
  exact hnone ▸ returns_oneArgument hs hprompt name args (fun _ => []) hcommand

theorem returns_printPrinter : Returns env s [] 0 (.ok (printPrinter s)) := by
  rw [printPrinter]
  split
  · exact returns_with_out hs hprompt _
  · exact returns_with_out hs hprompt _

theorem returns_printJob : Returns env s [] 0 (.ok (printJob s)) := by
  rw [printJob]
  split
  · exact returns_with_out hs hprompt _
  · exact returns_with_out hs hprompt _

theorem returns_onJob (arg1 : Word) {command : Nat → Job → Except Fault State}
    (hcommand : ∀ j job, s.jhead[j]? = some job → Returns env s [] 0 (command j job)) :
    Returns env s [] 0 (onJob arg1 s command) := by
  rw [onJob]
  split
  · split
    · exact returns_with_out hs hprompt _
    · rename_i j hj
      obtain ⟨hlt, -⟩ := List.findIdx?_eq_some_iff_getElem.mp hj
      rw [List.getElem?_eq_getElem hlt]
      exact hcommand j _ (List.getElem?_eq_getElem hlt)
  · exact returns_with_out hs hprompt _

theorem returns_onPrinter (arg1 : Word) {command : Nat → Printer → Except Fault State}
    (hcommand : ∀ i p, s.phead[i]? = some p → Returns env s [] 0 (command i p)) :
    Returns env s (printerComplaints s arg1) 0 (onPrinter arg1 s command) := by
  unfold onPrinter printerComplaints
  cases hname : searchPrinter s.phead arg1 with
  | none =>
      exact returns_delivered hs hprompt [] (printerNote arg1) rfl (List.forall_mem_nil _) _ rfl
  | some i =>
      obtain ⟨hlt, -⟩ := List.findIdx?_eq_some_iff_getElem.mp hname
      rw [Option.isNone_some, if_neg Bool.false_ne_true]
      simp only [List.getElem?_eq_getElem hlt]
      exact hcommand i _ (List.getElem?_eq_getElem hlt)

-- The job is not queued any more.
theorem returns_cancel (arg1 : Word) : Returns env s [] 0 (cancel arg1 s) := by
  refine returns_onJob hs hprompt arg1 fun j job hjob => ?_
  obtain ⟨hlt, -⟩ := List.getElem?_eq_some_iff.mp hjob
  obtain ⟨line, hline⟩ := changeJobStatus_ok hlt .aborted
  have hmem (j' : Job) (hj' : j' ∈ s.jhead.modify j (changed .aborted)) :
      j' ∈ s.jhead ∨ ∃ i ∈ s.jhead, j' = abort i := by
    obtain ⟨k, hk⟩ := List.mem_iff_getElem?.mp hj'
    rw [List.getElem?_modify] at hk
    obtain ⟨i, hi, hchange⟩ := Option.map_eq_some_iff.mp hk
    split at hchange
    · exact Or.inr ⟨i, List.mem_of_getElem? hi, hchange.symm⟩
    · exact Or.inl (hchange ▸ List.mem_of_getElem? hi)
  refine ⟨_, hline, ⟨hs.queue, hs.closed, hs.printerId, hs.limit, hs.ids, hs.printerTypes, ?_⟩,
    ⟨hprompt.idle, ?_, ?_⟩, rfl⟩
  · intro j' hj'
    rcases hmem j' hj' with hj' | ⟨i, hi, rfl⟩
    · exact hs.jobTypes j' hj'
    · exact hs.jobTypes i hi
  · intro j' hj'
    rcases hmem j' hj' with hj' | ⟨i, hi, rfl⟩
    · exact hprompt.settled j' hj'
    · exact Or.inr (Or.inr rfl)
  · intro j' hj' hqueued
    rcases hmem j' hj' with hj' | ⟨i, hi, rfl⟩
    · exact hprompt.waiting j' hj' hqueued
    · cases hqueued

-- At a prompt there is no job that runs and none that is paused.
theorem returns_pause (arg1 : Word) : Returns env s [] 0 (pause arg1 s) := by
  refine returns_onJob hs hprompt arg1 fun j job hjob => ?_
  have hstatus := hprompt.settled job (List.mem_of_getElem? hjob)
  rw [if_neg fun hrunning => by simp [hrunning] at hstatus]
  exact returns_with_out hs hprompt _

theorem returns_resume (arg1 : Word) : Returns env s [] 0 (resume arg1 s) := by
  refine returns_onJob hs hprompt arg1 fun j job hjob => ?_
  have hstatus := hprompt.settled job (List.mem_of_getElem? hjob)
  rw [if_neg fun hpaused => by simp [hpaused] at hstatus]
  exact returns_with_out hs hprompt _

-- A printer that is disabled serves no job.
theorem returns_disable (arg1 : Word) :
    Returns env s (printerComplaints s arg1) 0 (disable arg1 s) := by
  refine returns_onPrinter hs hprompt arg1 fun i p hp => ?_
  split
  · obtain ⟨hlt, -⟩ := List.getElem?_eq_some_iff.mp hp
    obtain ⟨line, hline⟩ : ∃ line, printPrinterStatus i (setEnabled i false s) =
        .ok ((setEnabled i false s).print line) :=
          printPrinterStatus_ok (by simpa [setEnabled] using hlt)
    have hfewer : AtPrompt env (setEnabled i false s) := by
      refine ⟨idle_setEnabled hprompt.idle i false, hprompt.settled,
        fun j hj hqueued p' hp' henabled heligible => ?_⟩
      obtain ⟨k, hk⟩ := List.mem_iff_getElem?.mp hp'
      obtain ⟨p, hp, hid, htype, -, hsame⟩ := setEnabled_getElem? hk
      rw [henabled] at hsame
      rw [hid] at heligible
      rw [htype]
      exact hprompt.waiting j hj hqueued p (List.mem_of_getElem? hp)
        (hsame.resolve_right (by simp)).symm heligible
    exact ⟨_, hline, (hs.setEnabled i false).print line, hfewer.print line, rfl⟩
  · exact returns_with_out hs hprompt _

theorem returns_declarePrinter (args : List Word)
    (hlimit : declares s (ascii "printer" :: args) = true → s.printerId < 31) :
    Returns env s [] (if declares s (ascii "printer" :: args) = true then 1
      else 0) (declarePrinter args s) := by
  rcases args with _ | ⟨name, _ | ⟨type, _ | ⟨third, rest⟩⟩⟩
  · exact returns_with_out hs hprompt _
  · exact returns_with_out hs hprompt _
  · by_cases hdeclares : declares s [ascii "printer", name, type] = true
    · have hless := hlimit hdeclares
      obtain ⟨name, type, heq, hname, htype⟩ := declares_iff.mp hdeclares
      obtain ⟨rfl, rfl⟩ : _ = name ∧ _ = type := by simpa using heq
      have hmax : ¬s.printerId + 1 = maxPrinters := by
        unfold maxPrinters
        omega
      rw [declarePrinter_eq hname htype, if_neg hmax, if_pos hdeclares]
      exact ⟨_, rfl, hs.with_printer htype hless, hprompt.with_printer name type, rfl⟩
    · have hfails : ¬((searchPrinter s.phead name).isNone && (searchList s.list.head type).isSome) =
          true := by
        simpa [declares] using hdeclares
      rw [declarePrinter, if_neg hfails, if_neg hdeclares]
      exact returns_with_out hs hprompt _
  · exact returns_with_out hs hprompt _

section

variable (hbounds : ∀ i, env.inBounds i = true)

include hbounds

-- The new type is found by no search for another one.
theorem returns_addList (newData : Word) : Returns env s [] 0 (.ok (addList newData s)) := by
  rw [addList]
  split
  · exact returns_with_out hs hprompt _
  · rename_i hnew
    rw [searchList_isSome] at hnew
    have htypes : types (s.list.head ++ [⟨newData, false, []⟩]) =
        types s.list.head ++ [newData] := by simp [types]
    have hmem {x : Word} (hx : x ∈ types s.list.head) :
        x ∈ types (s.list.head ++ [⟨newData, false, []⟩]) := by
      rw [htypes]
      exact List.mem_append_left _ hx
    refine ⟨_, rfl, ⟨hs.queue, ?_, hs.printerId, hs.limit, hs.ids, ?_, ?_⟩,
      ⟨hprompt.idle, hprompt.settled, ?_⟩, rfl⟩
    · intro n hn c hc
      rcases List.mem_append.mp hn with hn | hn
      · exact hmem (hs.closed n hn c hc)
      · rw [List.mem_singleton.mp hn] at hc
        cases hc
    · exact fun p hp => hmem (hs.printerTypes p hp)
    · exact fun j hj => hmem (hs.jobTypes j hj)
    · intro j hj hqueued p hp henabled heligible
      exact noPath_declare hbounds hs.queue hs.closed (hs.jobTypes j hj) (hs.printerTypes p hp) hnew
        (hprompt.waiting j hj hqueued p hp henabled heligible)

end

end

theorem declares_of_ne {token : Word} (h : token ≠ ascii "printer") (args : List Word) (s : State) :
    declares s (token :: args) = false := by
  unfold declares
  split
  · rename_i heq
    obtain ⟨rfl, -⟩ := List.cons.inj heq
    simp [h]
  · rfl

theorem returns_ite {env : Env} {s : State} {messages : List Word} {condition : Prop}
    [Decidable condition] {result other : Except Fault State}
    (h : condition → Returns env s messages 0 result)
    (h' : ¬condition → Returns env s messages 0 other) :
    Returns env s messages 0 (if condition then result else other) := by
  split
  · exact h ‹_›
  · exact h' ‹_›

-- The scheduler leaves only jobs that wait.
theorem returns_of_settles {env : Env} {s s' : State} {result : Except Fault State}
    (hresult : result = .ok s') (h : Settles s s') (hs : Consistent s)
    (hidle : ∀ p ∈ s.phead, p.busy = false)
    (hsettled : ∀ j ∈ s.jhead, j.status = .queued ∨ j.status = .completed ∨ j.status = .aborted)
    (hwaits : ∀ j ∈ s'.jhead, j.status = .queued → Waits env s' j) : Returns env s [] 0 result := by
  refine returns_of_ok hresult (h.consistent hs) ⟨h.phead ▸ hidle, fun j' hj' => ?_, hwaits⟩
    h.printerId
  obtain ⟨j, hj, hsettles⟩ := h.mem hj'
  rcases hsettles with rfl | ⟨-, rfl⟩
  · exact hsettled j' hj
  · exact Or.inr (Or.inr rfl)

theorem closed_append_conv {head : List Node} (d1 : Nat) {data2 : Word} (convProg : Word)
    (args : List Word) (h : Closed head) (hdata : data2 ∈ types head) :
    let append (n : Node) : Node :=
      if (searchConv n.conv data2).isSome then n
        else { n with conv := n.conv ++ [⟨data2, convProg, args⟩] }
    types (head.modify d1 append) = types head ∧ Closed (head.modify d1 append) := by
  intro append
  have happend (n : Node) : (append n).data = n.data ∧ ∀ c ∈ (append n).conv, c ∈ n.conv ∨
      c.dest = data2 := by
    simp only [append]
    split
    · exact ⟨rfl, fun c hc => Or.inl hc⟩
    · refine ⟨rfl, fun c hc => ?_⟩
      rcases List.mem_append.mp hc with hc | hc
      · exact Or.inl hc
      · exact Or.inr (by rw [List.mem_singleton.mp hc])
  have htypes : types (head.modify d1 append) = types head := by
    refine List.ext_getElem? fun i => ?_
    simp only [types, List.getElem?_map, List.getElem?_modify]
    cases head[i]? with
    | none => rfl
    | some n =>
        simp only [Option.map_eq_map, Option.map_some]
        split
        · rw [(happend n).1]
        · rfl
  refine ⟨htypes, fun n' hn' c hc => ?_⟩
  rw [htypes]
  obtain ⟨i, hi⟩ := List.mem_iff_getElem?.mp hn'
  rw [List.getElem?_modify] at hi
  obtain ⟨n, hn, hchange⟩ := Option.map_eq_some_iff.mp hi
  have hmem := h n (List.mem_of_getElem? hn)
  split at hchange
  · subst hchange
    rcases (happend n).2 c hc with hc | hc
    · exact hmem c hc
    · rw [hc]
      exact hdata
  · subst hchange
    exact hmem c hc

theorem printerSetValue_out (name : Word) (s : State) :
    ∃ out, (printerSetValue name s).2 = { s with out } := by
  unfold printerSetValue
  split
  · exact ⟨_, rfl⟩
  · exact ⟨s.out, rfl⟩

theorem printerSet_out (set : BitVec 32) (names : List Word) (s : State) :
    ∃ out, (printerSet set names s).2 = { s with out } := by
  induction names generalizing set s with
  | nil => exact ⟨s.out, rfl⟩
  | cons name names ih =>
      obtain ⟨out, hout⟩ := printerSetValue_out name s
      simp only [printerSet]
      split
      · obtain ⟨out', hout'⟩ := ih (set ^^^ (printerSetValue name s).1) (printerSetValue name s).2
        exact ⟨out', by rw [hout', hout]⟩
      · exact ⟨out, hout⟩

-- The names of printers are looked up without a change but messages.
theorem eligibleSet_out (names : List Word) (s : State) :
    ∃ out, (eligibleSet names s).2 = { s with out } := by
  unfold eligibleSet
  split
  · exact ⟨s.out, rfl⟩
  · rename_i arg2
    obtain ⟨out, hout⟩ := printerSetValue_out arg2 s
    simp only
    split
    · exact ⟨_, by rw [hout]; rfl⟩
    · exact ⟨out, hout⟩
  · obtain ⟨out, hout⟩ := printerSet_out 0 names s
    generalize printerSet 0 names s = result at hout
    obtain ⟨set, t⟩ := result
    cases set with
    | none => exact ⟨out, hout⟩
    | some set =>
        simp only at hout ⊢
        split
        · exact ⟨_, by rw [hout]; rfl⟩
        · exact ⟨out, hout⟩

-- A message ends the command, there is a new job at the end of the list, or a message has
-- left its buffer.
theorem print_spec (arg1 : Word) (names : List Word) (s : State) :
    (∃ out, print arg1 names s = .ok (none, { s with out })) ∨
      (∃ job jobId out, job.status = .queued ∧ job.fileType ∈ types s.list.head ∧
        print arg1 names s =
          .ok (some s.jhead.length, { s with jhead := s.jhead ++ [job], jobId, out })) ∨
      print arg1 names s = .error .overflow := by
  unfold print
  split
  · exact Or.inl ⟨_, rfl⟩
  · rename_i ext _
    split
    · exact Or.inl ⟨_, rfl⟩
    · rename_i hext
      have htype : ext ∈ types s.list.head := by
        rw [← searchList_isSome, Option.isSome_iff_ne_none]
        simpa using hext
      obtain ⟨out, hout⟩ := eligibleSet_out names s
      generalize eligibleSet names s = result at hout
      obtain ⟨set, t⟩ := result
      simp only at hout
      subst hout
      cases set with
      | none =>
          simp only [delivered]
          split
          · exact Or.inl ⟨out, rfl⟩
          · exact Or.inr (Or.inr rfl)
      | some set =>
          let job : Job := ⟨s.jobId, .queued, arg1, ext, set, none⟩
          refine Or.inr (Or.inl ⟨job, s.jobId + 1, out ++ [.jobStatus job], rfl, htype, ?_⟩)
          simp only [addJob, printJobStatus, List.getElem?_concat_length, Lib.ok_bind]
          rfl

section

variable {s : State} (hs : Consistent s)

include hs

-- A name that is declared stands for a bit, any other one for a message.
theorem printerSetValue_spec (name : Word) :
    if (searchPrinter s.phead name).isNone = true then
      printerSetValue name s = (0, s.print (.note (validNote name)))
    else
      ∃ set, set ≠ 0 ∧ printerSetValue name s = (set, s) := by
  unfold printerSetValue
  cases hname : searchPrinter s.phead name with
  | none => exact rfl
  | some i =>
      obtain ⟨hi, -⟩ := List.findIdx?_eq_some_iff_getElem.mp hname
      have hget := List.getElem?_eq_getElem hi
      have hid : (s.phead[i]).id < 32 := by
        have hcount := hs.printerId
        have hlimit := hs.limit
        rw [hs.ids i _ hget]
        omega
      rw [Option.bind_some, hget, Option.isNone_some, if_neg Bool.false_ne_true]
      refine ⟨_, fun hzero => ?_, rfl⟩
      have hpower : BitVec.twoPow 32 (s.phead[i]).id = 0 := by
        rw [BitVec.twoPow_eq]
        exact hzero
      have hbit := congrArg (fun set => set.getLsbD (s.phead[i]).id) hpower
      simp [hid] at hbit

theorem printerSet_spec (names : List Word) (set : BitVec 32) :
    match names.find? fun name => (searchPrinter s.phead name).isNone with
    | some name => printerSet set names s = (none, s.print (.note (validNote name)))
    | none => ∃ set', printerSet set names s = (some set', s) := by
  induction names generalizing set with
  | nil => exact ⟨set, rfl⟩
  | cons name names ih =>
      have hname := printerSetValue_spec hs name
      rw [List.find?_cons, printerSet]
      cases hunknown : (searchPrinter s.phead name).isNone with
      | true =>
          rw [if_pos hunknown] at hname
          simp only [hname, ne_eq, not_true_eq_false, if_false]
      | false =>
          rw [if_neg (by rw [hunknown]; exact Bool.false_ne_true)] at hname
          obtain ⟨tempSet, hne, hvalue⟩ := hname
          simp only [hvalue, if_pos hne]
          exact ih (set ^^^ tempSet)

-- The first name that is not declared is in the first message.
theorem eligibleSet_spec (names : List Word) :
    ∃ rest, (∀ line ∈ rest, line.fits = true) ∧
      match names.find? fun name => (searchPrinter s.phead name).isNone with
      | some name => eligibleSet names s =
          (none, { s with out := s.out ++ .note (validNote name) :: rest })
      | none => ∃ set, eligibleSet names s = (set, { s with out := s.out ++ rest }) := by
  have hsame : s = { s with out := s.out ++ [] } := by rw [List.append_nil]
  have hincompatible : ∀ line ∈ [Line.error (ascii "printer not compatible")],
      line.fits = true := by decide
  rcases names with _ | ⟨arg2, _ | ⟨arg3, names⟩⟩
  · exact ⟨[], List.forall_mem_nil _, some 0xffffffff, congrArg (Prod.mk _) hsame⟩
  · have hname := printerSetValue_spec hs arg2
    rw [List.find?_cons, eligibleSet]
    cases hunknown : (searchPrinter s.phead arg2).isNone with
    | true =>
        rw [if_pos hunknown] at hname
        refine ⟨_, hincompatible, ?_⟩
        simp only [hname, if_true]
        simp [errorMsg, State.print]
    | false =>
        rw [if_neg (by rw [hunknown]; exact Bool.false_ne_true)] at hname
        obtain ⟨set, hne, hvalue⟩ := hname
        refine ⟨[], List.forall_mem_nil _, some set, ?_⟩
        simp only [hvalue, if_neg hne]
        exact congrArg (Prod.mk _) hsame
  · have hset := printerSet_spec hs (arg2 :: arg3 :: names) 0
    rw [eligibleSet]
    · cases hunknown : (arg2 :: arg3 :: names).find? fun name =>
          (searchPrinter s.phead name).isNone with
      | some name =>
          rw [hunknown] at hset
          simp only at hset
          refine ⟨[], List.forall_mem_nil _, ?_⟩
          simp only [hset]
          rfl
      | none =>
          rw [hunknown] at hset
          obtain ⟨set, hset⟩ := hset
          simp only [hset]
          by_cases hzero : set = 0
          · refine ⟨_, hincompatible, none, ?_⟩
            rw [if_pos hzero]
            rfl
          · refine ⟨[], List.forall_mem_nil _, some set, ?_⟩
            rw [if_neg hzero]
            exact congrArg (Prod.mk _) hsame
    · intro h
      cases h
    · intro _ h
      cases (List.cons.inj h).2

-- The buffer is left exactly when the name in the message is too long.
theorem print_overflow_iff (arg1 : Word) (names : List Word) :
    print arg1 names s = .error .overflow ↔ fit (printComplaints s (arg1 :: names)) = false := by
  rw [print, printComplaints]
  cases extension arg1 with
  | none => exact iff_of_false (by simp) (by simp [fit])
  | some ext =>
      by_cases hext : (searchList s.list.head ext).isNone = true
      · simp only [if_pos hext]
        exact iff_of_false (by simp) (by simp [fit])
      · obtain ⟨rest, hrest, hset⟩ := eligibleSet_spec hs names
        simp only [if_neg hext, nameComplaints]
        cases hunknown : names.find? fun name => (searchPrinter s.phead name).isNone with
        | some name =>
            rw [hunknown] at hset
            simp only at hset
            have hfit : fit (Option.map validNote (some name)).toList =
                Line.fits (.note (validNote name)) := by simp [fit, Line.fits]
            simp only [hset, hfit, delivered_print hrest _ rfl]
            cases Line.fits (.note (validNote name)) with
            | true => exact iff_of_false (by simp) Bool.noConfusion
            | false => exact iff_of_true rfl rfl
        | none =>
            rw [hunknown] at hset
            obtain ⟨set, hset⟩ := hset
            rw [hset]
            refine iff_of_false ?_ (by simp [fit])
            cases set with
            | none =>
                have hdelivered : delivered s { s with out := s.out ++ rest } =
                    .ok { s with out := s.out ++ rest } :=
                  delivered_eq_ok.mpr ⟨rfl, by rwa [List.drop_left]⟩
                simp only [hdelivered, Lib.ok_bind]
                intro h
                cases h
            | some set =>
                simp only [addJob, printJobStatus, List.getElem?_concat_length, Lib.ok_bind]
                intro h
                cases h

end

section

variable {env : Env} (hbounds : ∀ i, env.inBounds i = true)
  (horiginal : ∀ n, env.forkResult n ≠ .child) {s : State}

include hbounds horiginal

theorem returns_processAll (hs : Consistent s) (hidle : ∀ p ∈ s.phead, p.busy = false)
    (hsettled : ∀ j ∈ s.jhead, j.status = .queued ∨ j.status = .completed ∨ j.status = .aborted) :
    Returns env s [] 0 (processAll env s) := by
  obtain ⟨s', hrun, hsettles, hwaits⟩ :=
    processPrint_spec hbounds horiginal (s.jhead.length + 1) hs hidle
    (Nat.lt_succ_of_le List.countP_le_length)
  exact returns_of_settles hrun hsettles hs hidle hsettled hwaits

theorem returns_enable (hs : Consistent s) (hprompt : AtPrompt env s) (arg1 : Word) :
    Returns env s (printerComplaints s arg1) 0 (enable env arg1 s) := by
  refine returns_onPrinter hs hprompt arg1 fun i p hp => ?_
  split
  · obtain ⟨hlt, -⟩ := List.getElem?_eq_some_iff.mp hp
    obtain ⟨line, hline⟩ : ∃ line, printPrinterStatus i (setEnabled i true s) =
        .ok ((setEnabled i true s).print line) :=
          printPrinterStatus_ok (by simpa [setEnabled] using hlt)
    rw [hline, Lib.ok_bind]
    exact returns_processAll hbounds horiginal ((hs.setEnabled i true).print line)
      (idle_setEnabled hprompt.idle i true)
      hprompt.settled
  · exact returns_with_out hs hprompt _

-- A message with a word of the user and the scheduler behind it.
theorem returns_delivered_all (hs : Consistent s) (hprompt : AtPrompt env s) (message : Word) :
    Returns env s [message] 0
      (delivered s (s.print (.note message)) >>= processAll env) := by
  have hfit : fit [message] = Line.fits (.note message) := by simp [fit, Line.fits]
  have hdelivered : delivered s (s.print (.note message)) = _ :=
    delivered_print (List.forall_mem_nil _) _ rfl
  rw [Returns, hfit, hdelivered]
  split
  · exact returns_processAll hbounds horiginal (hs.print (.note message)) hprompt.idle
      hprompt.settled
  · rfl

theorem returns_declareConversion (hs : Consistent s) (hprompt : AtPrompt env s)
    (args : List Word) :
    Returns env s (conversionComplaints s args) 0 (declareConversion env args s) := by
  have hsilent (t : State) (hout : t.out = s.out) : delivered s t = .ok t :=
    delivered_eq_ok.mpr ⟨rfl, by rw [hout, List.drop_length]; exact fun _ h => nomatch h⟩
  rcases args with _ | ⟨arg1, _ | ⟨arg2, _ | ⟨arg3, rest⟩⟩⟩
  · exact returns_with_out hs hprompt _
  · exact returns_with_out hs hprompt _
  · exact returns_with_out hs hprompt _
  · rw [declareConversion, conversionComplaints, addConv]
    by_cases hsame : arg1 = arg2
    · simp only [if_pos hsame, hsilent s rfl, Lib.ok_bind]
      exact returns_processAll hbounds horiginal hs hprompt.idle hprompt.settled
    · simp only [if_neg hsame]
      cases hd1 : searchList s.list.head arg1 with
      | none => exact returns_delivered_all hbounds horiginal hs hprompt _
      | some d1 =>
          cases hd2 : searchList s.list.head arg2 with
          | none => exact returns_delivered_all hbounds horiginal hs hprompt _
          | some d2 =>
              have hdata : arg2 ∈ types s.list.head := searchList_isSome.mp (by rw [hd2]; rfl)
              obtain ⟨htypes, hclosed⟩ := closed_append_conv d1 arg3 rest hs.closed hdata
              simp only [hsilent, Lib.ok_bind]
              refine returns_processAll hbounds horiginal ⟨hs.queue, hclosed, hs.printerId,
                hs.limit, hs.ids, ?_, ?_⟩ hprompt.idle hprompt.settled
              · exact fun p hp => htypes ▸ hs.printerTypes p hp
              · exact fun j hj => htypes ▸ hs.jobTypes j hj

-- What follows the creation of the job leaves the others as they are, or lets each job
-- that is still queued wait.
theorem printFile_settles {arg1 : Word} {names : List Word} {newJob : Nat} {job : Job} {t : State}
    (ht : Consistent t) (hidle : ∀ p ∈ t.phead, p.busy = false)
    (hprint : print arg1 names s = .ok (some newJob, t)) (hjob : t.jhead[newJob]? = some job)
    (hqueued : job.status = .queued) :
    ∃ s', printFile env (arg1 :: names) s = .ok s' ∧ Settles t s' ∧
      (s'.jhead = t.jhead ∧ Waits env s' job ∨ ∀ j ∈ s'.jhead, j.status = .queued →
        Waits env s' j) := by
  obtain ⟨printer, u, hfind, hsearched, hvalid, hnone⟩ := findBfs_spec hbounds job ht hidle
  have htu := hsearched.settles
  have hsame : u.jhead = t.jhead := by rw [hsearched.rest]
  have hidle' : ∀ p ∈ u.phead, p.busy = false := htu.phead ▸ hidle
  simp only [printFile, hprint, hjob, hfind, Lib.ok_bind]
  cases printer with
  | none => exact ⟨u, rfl, htu, Or.inl ⟨hsame, htu.waits hbounds ht.queue (hnone rfl)⟩⟩
  | some p =>
      obtain ⟨v, hconv, huv, -⟩ :=
        forkConv_settles horiginal (processPrint env (u.jhead.length + 1)) htu.queue hidle'
        (hsame ▸ hjob) hqueued (htu.phead ▸ hvalid p rfl)
      have htv := htu.trans huv
      have hlength : queuedJobs v.jhead ≤ v.jhead.length := List.countP_le_length
      obtain ⟨w, hrun, hvw, hwaits⟩ :=
        processPrint_spec hbounds horiginal (u.jhead.length + 1) (htv.consistent ht)
        (huv.phead ▸ hidle') (by rw [huv.jobs.length_eq]; omega)
      exact ⟨w, hconv.trans hrun, htv.trans hvw, Or.inr hwaits⟩

theorem returns_printFile (hs : Consistent s) (hprompt : AtPrompt env s) (args : List Word) :
    Returns env s (printComplaints s args) 0 (printFile env args s) := by
  rcases args with _ | ⟨arg1, names⟩
  · exact returns_with_out hs hprompt _
  · have hoverflow := print_overflow_iff hs arg1 names
    unfold Returns
    rcases print_spec arg1 names s with ⟨out, hnone⟩ | ⟨job, jobId, out, hqueued, htype, hsome⟩ |
      hleft
    · rw [hnone] at hoverflow
      rw [if_pos (by simpa using hoverflow), printFile, hnone, Lib.ok_bind]
      exact returns_with_out hs hprompt out
    · rw [hsome] at hoverflow
      rw [if_pos (by simpa using hoverflow)]
      generalize ht : ({ s with jhead := s.jhead ++ [job], jobId, out } : State) = t at hsome
      have hjhead : t.jhead = s.jhead ++ [job] := by rw [← ht]
      have hlist : t.list = s.list := by rw [← ht]
      have hphead : t.phead = s.phead := by rw [← ht]
      have hcount : t.printerId = s.printerId := by rw [← ht]
      have hmem (j : Job) (hj : j ∈ t.jhead) : j ∈ s.jhead ∨ j = job := by simpa [hjhead] using hj
      have hget : t.jhead[s.jhead.length]? = some job := by rw [hjhead, List.getElem?_concat_length]
      have hcons : Consistent t := ht ▸ hs.with_job jobId out htype
      have hidle : ∀ p ∈ t.phead, p.busy = false := hphead ▸ hprompt.idle
      have hsettled : ∀ j ∈ t.jhead, j.status = .queued ∨ j.status = .completed ∨
          j.status = .aborted := by
        intro j hj
        rcases hmem j hj with hj | rfl
        · exact hprompt.settled j hj
        · exact Or.inl hqueued
      obtain ⟨u, hrun, htu, hwaits⟩ :=
        printFile_settles hbounds horiginal hcons hidle hsome hget hqueued
      obtain ⟨v, hv, hrest⟩ :=
        returns_of_settles hrun htu hcons hidle hsettled fun j hj hwaiting => by
        rcases hwaits with ⟨hsame, hwaits⟩ | hwaits
        · rcases hmem j (hsame ▸ hj) with hj | rfl
          · exact waits_of_graph hbounds hs.queue htu.queue (hlist ▸ htu.graph)
              (htu.phead.trans hphead)
              (hprompt.waiting j hj hwaiting)
          · exact hwaits
        · exact hwaits j hj hwaiting
      rw [hcount] at hrest
      exact ⟨v, hv, hrest⟩
    · rw [if_neg (by rw [hoverflow.mp hleft]; exact Bool.false_ne_true), printFile, hleft]
      rfl

theorem returns_command (hs : Consistent s) (hprompt : AtPrompt env s) {token : Word}
    (hquit : token ≠ ascii "quit") (args : List Word)
    (hlimit : declares s (token :: args) = true → s.printerId < 31) :
    Returns env s (complaints s (token :: args)) (if declares s (token :: args) = true then 1
      else 0) (command env token args s) := by
  by_cases hprinter : token = ascii "printer"
  · subst hprinter
    have hcommand : command env (ascii "printer") args s = declarePrinter args s := by
      rw [command, if_neg (by decide), if_neg (by decide), if_pos rfl]
    rw [hcommand]
    exact returns_declarePrinter hs hprompt args hlimit
  · rw [declares_of_ne hprinter, if_neg Bool.false_ne_true, command]
    refine returns_ite (fun h => ?_) fun hhelp => ?_
    · subst h
      exact returns_noArgument hs hprompt args (returns_with_out hs hprompt _)
    refine returns_ite (fun h => ?_) fun htype => ?_
    · subst h
      exact returns_quiet hs hprompt _ args (returns_addList hs hprompt hbounds)
    refine returns_ite (fun h => absurd h hprinter) fun _ => ?_
    refine returns_ite (fun h => ?_) fun hconversion => ?_
    · subst h
      exact returns_declareConversion hbounds horiginal hs hprompt args
    refine returns_ite (fun h => ?_) fun hprinters => ?_
    · subst h
      exact returns_noArgument hs hprompt args (returns_printPrinter hs hprompt)
    refine returns_ite (fun h => ?_) fun hjobs => ?_
    · subst h
      exact returns_noArgument hs hprompt args (returns_printJob hs hprompt)
    refine returns_ite (fun h => ?_) fun hprint => ?_
    · subst h
      exact returns_printFile hbounds horiginal hs hprompt args
    refine returns_ite (fun h => ?_) fun hcancel => ?_
    · subst h
      exact returns_quiet hs hprompt _ args (returns_cancel hs hprompt)
    refine returns_ite (fun h => ?_) fun hpause => ?_
    · subst h
      exact returns_quiet hs hprompt _ args (returns_pause hs hprompt)
    refine returns_ite (fun h => ?_) fun hresume => ?_
    · subst h
      exact returns_quiet hs hprompt _ args (returns_resume hs hprompt)
    refine returns_ite (fun h => ?_) fun hdisable => ?_
    · subst h
      exact returns_oneArgument hs hprompt _ args _ (returns_disable hs hprompt)
    refine returns_ite (fun h => ?_) fun henable => ?_
    · subst h
      exact returns_oneArgument hs hprompt _ args _ (returns_enable hbounds horiginal hs hprompt)
    have hcomplaints : complaints s (token :: args) = [invalidNote token] := by
      simp [complaints, quietCommands, hprinter, hquit, hhelp, htype, hconversion, hprinters, hjobs,
        hprint, hcancel, hpause, hresume, hdisable, henable]
    rw [hcomplaints, tryHelp_invalidOpt]
    exact returns_delivered hs hprompt _ (invalidNote token) rfl (by decide) _ rfl

-- A command returns to the prompt with the invariant exactly when its messages fit.
theorem interactiveMode_spec (hs : Consistent s) (hprompt : AtPrompt env s) (words : List Word)
    (hlimit : declares s words = true → s.printerId < 31) :
    if fit (complaints s words) = true then
      ∃ more s', interactiveMode env words s = .ok (more, s') ∧ Consistent s' ∧ AtPrompt env s' ∧
        s'.printerId = s.printerId + if declares s words = true then 1 else 0
    else
      interactiveMode env words s = .error .overflow := by
  cases words with
  | nil => exact ⟨true, s, rfl, hs, hprompt, rfl⟩
  | cons token args =>
      rw [interactiveMode]
      by_cases hquit : token = ascii "quit"
      · subst hquit
        rw [if_pos rfl, declares_of_ne (by decide)]
        refine if_pos (show fit (complaints s (ascii "quit" :: args)) = true from rfl) ▸ ?_
        split
        · exact ⟨false, s, rfl, hs, hprompt, rfl⟩
        · exact ⟨true, _, rfl, hs.with_out _, hprompt.with_out _, rfl⟩
      · have hcommand := returns_command hbounds horiginal hs hprompt hquit args hlimit
        unfold Returns at hcommand
        rw [if_neg hquit]
        split
        · rename_i hfit
          rw [if_pos hfit] at hcommand
          obtain ⟨s', hrun, hrest⟩ := hcommand
          rw [hrun, Lib.ok_bind]
          exact ⟨true, s', rfl, hrest⟩
        · rename_i hfit
          rw [if_neg hfit] at hcommand
          rw [hcommand]
          rfl

-- A session of commands comes to its end, with the invariant at its last prompt, exactly
-- when the messages of all its commands fit.
theorem session_spec (commands : List (List Word)) (hs : Consistent s) (hprompt : AtPrompt env s)
    (hprinters : s.printerId + declared env commands s ≤ 31) :
    if worded env commands s = true then
      ∃ s', session env commands s = .ok s' ∧ AtPrompt env s'
    else
      session env commands s = .error .overflow := by
  induction commands generalizing s with
  | nil => exact ⟨s, rfl, hprompt⟩
  | cons words commands ih =>
      rw [declared] at hprinters
      have hlimit (h : declares s words = true) : s.printerId < 31 := by
        rw [if_pos h] at hprinters
        omega
      have hwords := interactiveMode_spec hbounds horiginal hs hprompt words hlimit
      rw [session, worded]
      cases hfit : fit (complaints s words) with
      | false =>
          rw [if_neg (by rw [hfit]; exact Bool.false_ne_true)] at hwords
          rw [hwords]
          rfl
      | true =>
          rw [if_pos hfit] at hwords
          obtain ⟨more, s', hrun, hs', hprompt', hcount⟩ := hwords
          rw [hrun, Lib.ok_bind, Bool.true_and]
          cases more with
          | false => exact ⟨s', rfl, hprompt'⟩
          | true =>
              refine ih hs' hprompt' ?_
              simp only [hrun] at hprinters
              omega

-- The last prompt of every session that comes to its end.
theorem session_prompt {commands : List (List Word)} {r : State}
    (hrun : session env commands s = .ok r) (hs : Consistent s) (hprompt : AtPrompt env s) :
    Consistent r ∧ AtPrompt env r := by
  induction commands generalizing s with
  | nil =>
      obtain rfl := Except.ok.inj hrun
      exact ⟨hs, hprompt⟩
  | cons words commands ih =>
      have hlimit (h : declares s words = true) : s.printerId < 31 := by
        by_contra hmost
        rw [session, interactiveMode_of_limit env h (by have := hs.limit; omega)] at hrun
        exact nomatch hrun
      have hmode := interactiveMode_spec hbounds horiginal hs hprompt words hlimit
      rw [session] at hrun
      split at hmode
      · obtain ⟨more, s', hwords, hs', hprompt', -⟩ := hmode
        rw [hwords, Lib.ok_bind] at hrun
        cases more with
        | false =>
            obtain rfl := Except.ok.inj hrun
            exact ⟨hs', hprompt'⟩
        | true => exact ih hrun hs' hprompt'
      · rw [hmode] at hrun
        exact nomatch hrun

end

-- The process that the user has started. The arrays queue and result have room for
-- every entry.
def unbounded (forkError : Nat → Option ErrorText) : Env where
  forkResult := fun n => (forkError n).elim .parent .failed
  connects := fun _ => true
  execs := fun _ => true
  inBounds := fun _ => true

theorem unbounded_ne_child (forkError : Nat → Option ErrorText) (n : Nat) :
    (unbounded forkError).forkResult n ≠ .child := by
  show (forkError n).elim ForkResult.parent ForkResult.failed ≠ .child
  cases forkError n with
  | none => exact fun h => nomatch h
  | some error => exact fun h => nomatch h

theorem consistent_start : Consistent .start := by
  refine ⟨rfl, ?_, rfl, Nat.zero_le _, ?_, ?_, ?_⟩
  · simp [State.start, Closed]
  · simp [State.start]
  · simp [State.start]
  · simp [State.start]

theorem atPrompt_start (env : Env) : AtPrompt env .start := by
  refine ⟨?_, ?_, ?_⟩
  all_goals simp [State.start]

-- A session that declares at most 31 printers comes to its end, with no busy printer, no job
-- that is left running, and no job that waits for nothing, exactly when the messages of its
-- commands fit.
theorem atPrompt_of_session_iff (forkError : Nat → Option ErrorText) (commands : List (List Word))
    (hprinters : declared (unbounded forkError) commands .start ≤ 31) :
    (∃ s, session (unbounded forkError) commands .start = .ok s ∧
      AtPrompt (unbounded forkError) s) ↔
      worded (unbounded forkError) commands .start = true := by
  have hspec := session_spec (fun _ => rfl) (unbounded_ne_child forkError) commands
    consistent_start (atPrompt_start _) (by rw [State.start, Nat.zero_add]; exact hprinters)
  constructor
  · rintro ⟨s, hrun, -⟩
    by_contra hlong
    rw [if_neg hlong, hrun] at hspec
    exact nomatch hspec
  · intro hworded
    rwa [if_pos hworded] at hspec

theorem atPrompt_of_waiting_job :
    let commands := [[ascii "type", ascii "txt"], [ascii "type", ascii "pdf"],
      [ascii "printer", ascii "laser", ascii "pdf"], [ascii "enable", ascii "laser"],
      [ascii "print", ascii "a.txt"],
      [ascii "conversion", ascii "txt", ascii "pdf", ascii "convert"]]
    declared (unbounded fun _ => none) commands .start ≤ 31 ∧
      ∃ s, session (unbounded fun _ => none) commands .start = .ok s ∧
        AtPrompt (unbounded fun _ => none) s := by
  intro commands
  have hprinters : declared (unbounded fun _ => none) commands .start ≤ 31 := by decide +kernel
  exact ⟨hprinters, (atPrompt_of_session_iff _ commands hprinters).mpr (by decide +kernel)⟩

-- A word of 600 characters that is no command: the message does not fit into dest.
theorem not_atPrompt_of_long_word :
    let commands := [[List.replicate 600 120]]
    declared (unbounded fun _ => none) commands .start ≤ 31 ∧
      session (unbounded fun _ => none) commands .start = .error .overflow ∧
      ¬∃ s, session (unbounded fun _ => none) commands .start = .ok s ∧
        AtPrompt (unbounded fun _ => none) s := by
  intro commands
  have hrun : session (unbounded fun _ => none) commands .start = .error .overflow := by
    decide +kernel
  refine ⟨by decide +kernel, hrun, ?_⟩
  rintro ⟨s, hsession, -⟩
  rw [hrun] at hsession
  exact nomatch hsession

end CSE320.Spooler
