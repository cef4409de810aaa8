import Mathlib.Data.List.Basic

namespace CSE320.Xacto

inductive TransStatus where
  | pending
  | committed
  | aborted
deriving DecidableEq, Repr

-- Pointers to TRANSACTION structures, numbered in the order of allocation.
-- The sentinel of the list of all transactions has the first number.
abbrev Ptr := Nat

def transList : Ptr := 0

-- refcnt and id are unsigned int. waitcnt is an int that never exceeds the
-- number of threads. The mutex is left out: a call that locks it twice is
-- modelled by a call that does not return.
structure Transaction where
  id : BitVec 32
  refcnt : BitVec 32
  status : TransStatus
  depends : List Ptr
  waitcnt : Nat
  sem : Nat
  next : Ptr
  prev : Ptr
deriving DecidableEq, Repr

-- Why a call does not return to its caller: the program is ended by abort(),
-- the thread waits forever, or it reads a structure that has been freed.
inductive Stop where
  | abort
  | blocked
  | fault
deriving DecidableEq, Repr

-- A freed transaction has no entry, and its number is not used again.
structure Manager where
  trans : Ptr → Option Transaction
  fresh : Nat
  uniqueId : BitVec 32

namespace Manager

def get (m : Manager) (p : Ptr) : Except Stop Transaction :=
  match m.trans p with
  | some t => .ok t
  | none => .error .fault

def set (m : Manager) (p : Ptr) (t : Transaction) : Manager :=
  { m with trans := fun q => if q = p then some t else m.trans q }

def free (m : Manager) (p : Ptr) : Manager :=
  { m with trans := fun q => if q = p then none else m.trans q }

def modify (m : Manager) (p : Ptr) (f : Transaction → Transaction) : Except Stop Manager := do
  let t ← m.get p
  return m.set p (f t)

end Manager

def transInit : Manager where
  trans := fun p =>
    if p = transList then
      some { id := -1, refcnt := 0, status := .pending, depends := [],
             waitcnt := 0, sem := 0, next := transList, prev := transList }
    else none
  fresh := 1
  uniqueId := 0

def transRef (m : Manager) : Option Ptr → Except Stop Manager
  | none => .ok m
  | some p => m.modify p fun t => { t with refcnt := t.refcnt + 1 }

-- Calloc of csapp.c ends the program when it fails, and the two initialisations
-- do not fail, so the call returns a transaction whenever it returns.
def transCreate (m : Manager) : Except Stop (Ptr × Manager) := do
  let tp := m.fresh
  let last ← m.get transList
  let m := { m with fresh := m.fresh + 1, uniqueId := m.uniqueId + 1 }.set tp
    { id := m.uniqueId, refcnt := 0, status := .pending, depends := [],
      waitcnt := 0, sem := 0, next := transList, prev := last.prev }
  let m ← transRef m (some tp)
  let m ← m.modify last.prev fun t => { t with next := tp }
  let m ← m.modify transList fun t => { t with prev := tp }
  return (tp, m)

-- The nodes of the dependency set go with the transaction. The transactions
-- they name keep the reference that trans_add_dependency took.
def unlinkFree (m : Manager) (p : Ptr) (t : Transaction) : Except Stop Manager := do
  let m ← m.modify t.next fun n => { n with prev := t.prev }
  let m ← m.modify t.prev fun n => { n with next := t.next }
  return m.free p

def transUnref (m : Manager) : Option Ptr → Except Stop Manager
  | none => .ok m
  | some p => do
    let t ← m.get p
    let t := { t with refcnt := t.refcnt - 1 }
    let m := m.set p t
    if t.refcnt = 0 then unlinkFree m p t else return m

-- The walk compares the entries it steps over. It stops at the last entry and
-- appends there, so the last entry is not compared.
def appendDependency (m : Manager) (dtp : Ptr) (id : BitVec 32) :
    List Ptr → Except Stop (Option (List Ptr))
  | [] => .ok (some [dtp])
  | [last] => .ok (some [last, dtp])
  | d :: next :: rest => do
    let t ← m.get d
    if t.id = id then
      return none
    else
      let tail ← appendDependency m dtp id (next :: rest)
      return tail.map (d :: ·)

-- trans_ref locks the mutex of its argument while tp's mutex is held, so a
-- transaction that is added to its own set waits for itself.
def transAddDependency (m : Manager) : Option Ptr → Option Ptr → Except Stop Manager
  | some tp, some dtp => do
    let t ← m.get tp
    let d ← m.get dtp
    match ← appendDependency m dtp d.id t.depends with
    | none => return m
    | some depends =>
      if dtp = tp then
        throw .blocked
      else
        transRef (m.set tp { t with depends }) (some dtp)
  | _, _ => .ok m

-- The V operations run once per waiter counted in waitcnt.
def postWaiters (m : Manager) (tp : Ptr) : Except Stop Manager :=
  m.modify tp fun t => { t with sem := t.sem + t.waitcnt }

def transAbort (m : Manager) (tp : Ptr) : Except Stop (TransStatus × Manager) := do
  let t ← m.get tp
  match t.status with
  | .pending =>
    let m ← postWaiters (m.set tp { t with status := .aborted }) tp
    return (.aborted, ← transUnref m (some tp))
  | .committed =>
    let _ ← transUnref m (some tp)
    throw .abort
  | .aborted =>
    let m ← postWaiters m tp
    return (.aborted, ← transUnref m (some tp))

-- The first loop of trans_commit: register with every pending dependency and
-- take its semaphore.
def waitDependencies (m : Manager) : List Ptr → Except Stop Manager
  | [] => .ok m
  | d :: rest => do
    let t ← m.get d
    match t.status with
    | .pending =>
      let t := { t with waitcnt := t.waitcnt + 1 }
      if t.sem = 0 then
        throw .blocked
      else
        waitDependencies (m.set d { t with sem := t.sem - 1 }) rest
    | _ => waitDependencies m rest

-- The second loop of trans_commit.
def anyAborted (m : Manager) : List Ptr → Except Stop Bool
  | [] => .ok false
  | d :: rest => do
    let t ← m.get d
    if t.status = .aborted then return true else anyAborted m rest

def transCommit (m : Manager) (tp : Ptr) : Except Stop (TransStatus × Manager) := do
  let t ← m.get tp
  let m ← waitDependencies m t.depends
  if ← anyAborted m t.depends then
    transAbort m tp
  else
    let m ← postWaiters m tp
    let m ← m.modify tp fun t => { t with status := .committed }
    let m ← transUnref m (some tp)
    return (.committed, m)

def transGetStatus (m : Manager) (tp : Ptr) : Except Stop TransStatus := do
  let t ← m.get tp
  return t.status

end CSE320.Xacto
