import CSE320.Lib.Bits
import CSE320.Lib.Sweep
import CSE320.Spooler.Main
import Mathlib.Logic.Relation

namespace CSE320.Spooler

open Lib (ascii)
open Relation (ReflTransGen)

-- A printer, whose number is its place.
structure Device where
  name : Word
  type : Word
  enabled : Bool

-- A job, whose number is its place. It is pending until it is printed or withdrawn.
structure Order where
  file : Word
  type : Word
  devices : BitVec 32
  pending : Bool

-- What the spooler is for: the declarations, the printers, the jobs, and the log of the
-- lines that show what becomes of them.
structure Office where
  types : List Word
  conversions : List (Word × Word)
  devices : List Device
  orders : List Order
  log : List Line

def Device.printer (id : Nat) (busy : Bool) (d : Device) : Printer :=
  ⟨id, d.name, d.type, d.enabled, busy⟩

def Order.job (id : Nat) (status : JobStatus) (chosen : Option Nat) (r : Order) : Job :=
  ⟨BitVec.ofNat 32 id, status, r.file, r.type, r.devices, chosen⟩

def Order.status (r : Order) : JobStatus := if r.pending then .queued else .aborted

def Order.closed (r : Order) : Order := { r with pending := false }

namespace Office

def empty : Office := ⟨[], [], [], [], []⟩

def printers (o : Office) : List Printer := o.devices.mapIdx fun id d => d.printer id false

def jobs (o : Office) : List Job := o.orders.mapIdx fun id r => r.job id r.status none

def note (lines : List Line) (o : Office) : Office := { o with log := o.log ++ lines }

-- A conversion is used on the way only when it leads to a type that is declared later.
def Forward (o : Office) (x y : Word) : Prop :=
  (x, y) ∈ o.conversions ∧ o.types.idxOf x < o.types.idxOf y

def Convertible (o : Office) (src dest : Word) : Prop :=
  src = dest ∨ ∃ x, ReflTransGen o.Forward src x ∧ (x, dest) ∈ o.conversions

def Serves (o : Office) (r : Order) (d : Device) (id : Nat) : Prop :=
  d.enabled = true ∧ r.devices.getLsbD id = true ∧ o.Convertible r.type d.type

open Classical in
noncomputable def pickFrom (i : Nat) (o : Office) (r : Order) : Option (Device × Nat) :=
  (o.devices.zipIdx.drop i).find? fun (d, id) => o.Serves r d id

-- The first printer that can take the job.
noncomputable def pick (o : Office) (r : Order) : Option (Device × Nat) := o.pickFrom 0 r

-- The job is printed. Its printer is free again behind it.
def hand (k : Nat) (r : Order) (d : Device) (id : Nat) (o : Office) : Office :=
  note [.printerStatus (d.printer id true), .jobStatus (r.job k .running (some id)),
      .printerStatus (d.printer id false), .jobStatus (r.job k .aborted none)]
    { o with orders := o.orders.set k r.closed }

noncomputable def serve (k : Nat) (o : Office) : Office :=
  match o.orders[k]? with
  | none => o
  | some r =>
    if r.pending then
      match o.pick r with
      | none => o
      | some (d, id) => o.hand k r d id
    else o

-- Each job in turn is printed if a printer can take it.
noncomputable def sweep (o : Office) : Office := Lib.sweep serve (List.range o.orders.length) o

def place (o : Office) (name : Word) : Option Nat := o.devices.findIdx? fun d => d.name = name

def declareType (type : Word) (o : Office) : Office :=
  if type ∈ o.types then o else { o with types := o.types ++ [type] }

def declarePrinter (name type : Word) (o : Office) : Office :=
  if o.place name = none ∧ type ∈ o.types then
    let d : Device := ⟨name, type, false⟩
    note [.printerStatus (d.printer o.devices.length false)] { o with devices := o.devices ++ [d] }
  else o

def declareConversion (x y : Word) (o : Office) : Office :=
  if x ≠ y ∧ x ∈ o.types ∧ y ∈ o.types then { o with conversions := o.conversions ++ [(x, y)] }
  else o

-- The set of the printers that are named. A name that is given twice takes itself back.
def named (names : List Word) (o : Office) : Option (BitVec 32) :=
  if names = [] then some 0xffffffff
  else if ∀ name ∈ names, (o.place name).isSome then
    let set := Lib.flipped (fun name => (o.place name).getD 0) names 0
    if set = 0 then none else some set
  else none

def take (r : Order) (o : Office) : Office :=
  note [.jobStatus (r.job o.orders.length .queued none)] { o with orders := o.orders ++ [r] }

def submit (file : Word) (names : List Word) (o : Office) : Office :=
  match extension file with
  | none => o
  | some type =>
    if type ∈ o.types then
      match o.named names with
      | none => o
      | some devices => o.take ⟨file, type, devices, true⟩
    else o

-- The job with a number, which must not be negative.
def called (number : Word) (o : Office) : Option Order :=
  if (strtoi number).toInt ≥ 0 then o.orders[(strtoi number).toNat]? else none

def withdraw (number : Word) (o : Office) : Office :=
  match o.called number with
  | none => o
  | some r =>
    let k := (strtoi number).toNat
    note [.jobStatus (r.job k .aborted none)] { o with orders := o.orders.set k r.closed }

def turn (enabled : Bool) (name : Word) (o : Office) : Office :=
  match o.place name with
  | none => o
  | some id =>
    match o.devices[id]? with
    | none => o
    | some d =>
      if d.enabled = enabled then o
      else
        let d := { d with enabled }
        note [.printerStatus (d.printer id false)] { o with devices := o.devices.set id d }

-- A command with one argument.
def one (command : Word → Office → Office) (args : List Word) (o : Office) : Office :=
  match args with
  | [arg] => command arg o
  | _ => o

-- What a command does by itself.
def accept (token : Word) (args : List Word) (o : Office) : Office :=
  if token = ascii "type" then o.one declareType args
  else if token = ascii "printer" then
    match args with
    | [name, type] => o.declarePrinter name type
    | _ => o
  else if token = ascii "conversion" then
    match args with
    | x :: y :: _ :: _ => o.declareConversion x y
    | _ => o
  else if token = ascii "printers" then
    if args = [] then o.note (o.printers.map .printerStatus) else o
  else if token = ascii "jobs" then if args = [] then o.note (o.jobs.map .jobStatus) else o
  else if token = ascii "print" then
    match args with
    | file :: names => o.submit file names
    | [] => o
  else if token = ascii "cancel" then o.one withdraw args
  else if token = ascii "disable" then o.one (turn false) args
  else if token = ascii "enable" then o.one (turn true) args
  else o

-- Behind every command, what can be printed is printed.
noncomputable def step (words : List Word) (o : Office) : Office :=
  match words with
  | [] => o
  | token :: args => (o.accept token args).sweep

-- The commands up to quit.
noncomputable def run : List (List Word) → Office → Office
  | [], o => o
  | words :: commands, o => if words = [ascii "quit"] then o else run commands (o.step words)

section

variable {o : Office}

theorem pickFrom_of_le {i : Nat} (r : Order) (h : o.devices.length ≤ i) :
    o.pickFrom i r = none := by
  rw [pickFrom, List.drop_eq_nil_of_le (by rwa [List.length_zipIdx])]
  rfl

theorem pickFrom_eq {i : Nat} {d : Device} (r : Order) (hd : o.devices[i]? = some d) :
    (o.Serves r d i → o.pickFrom i r = some (d, i)) ∧
      (¬o.Serves r d i → o.pickFrom i r = o.pickFrom (i + 1) r) := by
  obtain ⟨hi, rfl⟩ := List.getElem?_eq_some_iff.mp hd
  have hzip : i < o.devices.zipIdx.length := by rwa [List.length_zipIdx]
  have hhead : o.devices.zipIdx[i] = (o.devices[i], i) := by simp
  unfold pickFrom
  rw [List.drop_eq_getElem_cons hzip, hhead]
  constructor
  · intro h
    rw [List.find?_cons_of_pos]
    simpa using h
  · intro h
    rw [List.find?_cons_of_neg]
    simpa using h

-- A job that waits for a printer, or none.
def Idle (o : Office) (k : Nat) : Prop :=
  ∀ r, o.orders[k]? = some r → r.pending = true → o.pick r = none

-- What a service does.
theorem serve_cases (k : Nat) (o : Office) :
    (∃ r d id, o.orders[k]? = some r ∧ r.pending = true ∧ o.pick r = some (d, id) ∧
      o.serve k = o.hand k r d id) ∨ o.Idle k ∧ o.serve k = o := by
  unfold serve Idle
  cases horder : o.orders[k]? with
  | none => exact Or.inr ⟨fun _ h => absurd h (Option.some_ne_none _).symm, rfl⟩
  | some r =>
      by_cases hpending : r.pending = true
      · simp only [if_pos hpending]
        cases hpick : o.pick r with
        | none =>
            refine Or.inr ⟨fun r' hr' _ => ?_, rfl⟩
            rwa [← Option.some.inj hr']
        | some found => exact Or.inl ⟨r, found.1, found.2, rfl, hpending, hpick, rfl⟩
      · refine Or.inr ⟨fun r' hr' hpending' => ?_, by simp only [if_neg hpending]⟩
        rw [← Option.some.inj hr'] at hpending'
        exact absurd hpending' hpending

theorem hand_ne (k : Nat) (r : Order) (d : Device) (id : Nat) : o.hand k r d id ≠ o := by
  intro h
  have hlog := congrArg (fun o => o.log.length) h
  simp [hand, note] at hlog

theorem serve_eq_self_iff {k : Nat} : o.serve k = o ↔ o.Idle k := by
  rcases serve_cases k o with ⟨r, d, id, horder, hpending, hpick, hserve⟩ | ⟨hidle, hserve⟩
  · rw [hserve]
    refine iff_of_false (hand_ne k r d id) fun hidle => ?_
    rw [hidle r horder hpending] at hpick
    cases hpick
  · exact iff_of_true hserve hidle

theorem pick_hand (k : Nat) (r r' : Order) (d : Device) (id : Nat) :
    (o.hand k r d id).pick r' = o.pick r' := rfl

theorem orders_hand (k : Nat) (r : Order) (d : Device) (id : Nat) :
    (o.hand k r d id).orders = o.orders.set k r.closed := rfl

-- A job that has been printed is closed, and the other ones find the printers that they
-- have found before.
theorem idle_hand {j k : Nat} {r : Order} {d : Device} {id : Nat} (h : j = k ∨ o.Idle j) :
    (o.hand k r d id).Idle j := by
  intro r' hr' hpending
  rw [pick_hand]
  rw [orders_hand, List.getElem?_set] at hr'
  by_cases hjk : k = j
  · rw [if_pos hjk] at hr'
    split at hr'
    · rw [← Option.some.inj hr'] at hpending
      cases hpending
    · cases hr'
  · rw [if_neg hjk] at hr'
    exact h.resolve_left (Ne.symm hjk) r' hr' hpending

theorem serving : Lib.Serving serve where
  served := fun k o => by
    rcases serve_cases k o with ⟨r, d, id, -, -, -, hserve⟩ | ⟨-, hserve⟩
    · rw [hserve]
      exact serve_eq_self_iff.mpr (idle_hand (Or.inl rfl))
    · rw [hserve, hserve]
  kept := fun j k o hj => by
    rcases serve_cases k o with ⟨r, d, id, -, -, -, hserve⟩ | ⟨-, hserve⟩
    · rw [hserve]
      exact serve_eq_self_iff.mpr (idle_hand (Or.inr (serve_eq_self_iff.mp hj)))
    · rw [hserve, hj]

theorem length_orders_serve (k : Nat) (o : Office) :
    (o.serve k).orders.length = o.orders.length := by
  rcases serve_cases k o with ⟨r, d, id, -, -, -, hserve⟩ | ⟨-, hserve⟩
  · rw [hserve, orders_hand, List.length_set]
  · rw [hserve]

theorem sweep_of_idle (h : ∀ k, o.Idle k) : o.sweep = o :=
  Lib.sweep_of_idle fun k _ => serve_eq_self_iff.mpr (h k)

theorem length_orders_sweep (o : Office) : o.sweep.orders.length = o.orders.length := by
  have hlength (places : List Nat) (o : Office) :
      (Lib.sweep serve places o).orders.length = o.orders.length := by
    induction places generalizing o with
    | nil => rfl
    | cons k places ih => exact (ih (o.serve k)).trans (length_orders_serve k o)
  exact hlength (List.range o.orders.length) o

-- Behind a sweep no job waits for a printer that could take it.
theorem idle_sweep (k : Nat) (o : Office) : o.sweep.Idle k := by
  by_cases hk : k < o.orders.length
  · exact serve_eq_self_iff.mp (serving.idle_of_mem (List.mem_range.mpr hk) o)
  · intro r hr
    obtain ⟨hlt, -⟩ := List.getElem?_eq_some_iff.mp hr
    rw [length_orders_sweep] at hlt
    exact absurd hlt hk

theorem sweep_serve {k : Nat} (hk : k < o.orders.length) (hbefore : ∀ j < k, o.Idle j) :
    (o.serve k).sweep = o.sweep := by
  obtain ⟨left, hleft⟩ : ∃ left, o.orders.length = k + (left + 1) :=
    ⟨o.orders.length - (k + 1), by omega⟩
  have hplaces : List.range o.orders.length =
      List.range k ++ k :: List.range' (k + 1) left := by
    rw [hleft, List.range_eq_range', ← List.range'_append_1, List.range'_succ, Nat.zero_add,
      List.range_eq_range']
  rw [sweep, sweep, length_orders_serve, hplaces]
  refine serving.sweep_again fun j hj => ?_
  exact serve_eq_self_iff.mpr (hbefore j (List.mem_range.mp hj))

end

end Office

end CSE320.Spooler
