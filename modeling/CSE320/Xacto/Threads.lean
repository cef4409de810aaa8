import CSE320.Xacto.Transaction

namespace CSE320.Xacto

-- The two ways in which a transaction finishes.
inductive Verdict where
  | commit
  | abort
deriving DecidableEq, Repr

def Verdict.status : Verdict → TransStatus
  | .commit => .committed
  | .abort => .aborted

-- Where the owner thread of a transaction is. The dependencies that a loop has
-- not reached yet are kept, with the current one in front.
inductive Pc where
  | adding
  | waiting (rest : List Ptr)
  | register (d : Ptr) (rest : List Ptr)
  | acquire (d : Ptr) (rest : List Ptr)
  | scanning (rest : List Ptr)
  | aborting
  | abortingFinal
  | storeAborted
  | snapshot (v : Verdict)
  | posting (v : Verdict) (waitcnt : Nat)
  | counting (v : Verdict) (waitcnt : Nat)
  | storeCommitted
  | releasing (v : Verdict)
  | freeing (v : Verdict)
  | done (v : Verdict)
deriving DecidableEq, Repr

structure Threads where
  manager : Manager
  pc : Ptr → Pc

namespace Threads

def start : Threads where
  manager := transInit
  pc := fun _ => .adding

def goto (s : Threads) (manager : Manager) (tp : Ptr) (pc : Pc) : Threads where
  manager := manager
  pc := fun q => if q = tp then pc else s.pc q

-- The next step of the thread that owns tp: one mutex section, one semaphore
-- operation or one unprotected read.
def advance (s : Threads) (tp : Ptr) : Except Stop Threads :=
  match s.pc tp with
  | .adding => .error .blocked
  -- trans_commit, first loop
  | .waiting [] => do
    let t ← s.manager.get tp
    return s.goto s.manager tp (.scanning t.depends)
  | .waiting (d :: rest) => do
    let t ← s.manager.get d
    return s.goto s.manager tp (if t.status = .pending then .register d rest else .waiting rest)
  | .register d rest => do
    let manager ← s.manager.modify d fun t => { t with waitcnt := t.waitcnt + 1 }
    return s.goto manager tp (.acquire d rest)
  | .acquire d rest => do
    let t ← s.manager.get d
    if t.sem = 0 then
      throw .blocked
    else
      return s.goto (s.manager.set d { t with sem := t.sem - 1 }) tp (.waiting rest)
  -- trans_commit, second loop
  | .scanning [] => .ok (s.goto s.manager tp (.snapshot .commit))
  | .scanning (d :: rest) => do
    let t ← s.manager.get d
    return s.goto s.manager tp (if t.status = .aborted then .aborting else .scanning rest)
  -- trans_abort reads the status once for each of its two tests
  | .aborting => do
    let t ← s.manager.get tp
    return s.goto s.manager tp (if t.status = .pending then .storeAborted else .abortingFinal)
  | .abortingFinal => do
    let t ← s.manager.get tp
    if t.status = .committed then
      let _ ← transUnref s.manager (some tp)
      throw .abort
    else
      return s.goto s.manager tp (.snapshot .abort)
  | .storeAborted => do
    let manager ← s.manager.modify tp fun t => { t with status := .aborted }
    return s.goto manager tp (.snapshot .abort)
  -- the waiters are counted once and then released one by one
  | .snapshot v => do
    let t ← s.manager.get tp
    return s.goto s.manager tp (.posting v t.waitcnt)
  | .posting v 0 =>
    .ok (s.goto s.manager tp (match v with
      | .commit => .storeCommitted
      | .abort => .releasing .abort))
  | .posting v (n + 1) => do
    let manager ← s.manager.modify tp fun t => { t with sem := t.sem + 1 }
    return s.goto manager tp (.counting v (n + 1))
  | .counting v n => .ok (s.goto s.manager tp (.posting v (n - 1)))
  | .storeCommitted => do
    let manager ← s.manager.modify tp fun t => { t with status := .committed }
    return s.goto manager tp (.releasing .commit)
  -- trans_unref reads the count again after its section
  | .releasing v => do
    let manager ← s.manager.modify tp fun t => { t with refcnt := t.refcnt - 1 }
    return s.goto manager tp (.freeing v)
  | .freeing v => do
    let t ← s.manager.get tp
    let manager ← if t.refcnt = 0 then unlinkFree s.manager tp t else pure s.manager
    return s.goto manager tp (.done v)
  | .done _ => .error .blocked

inductive Action where
  | create
  | addDependency (tp dtp : Ptr)
  | commit (tp : Ptr)
  | abort (tp : Ptr)
  | advance (tp : Ptr)
deriving DecidableEq, Repr

def step (s : Threads) : Action → Except Stop Threads
  | .create => do
    let (_, manager) ← transCreate s.manager
    return { s with manager }
  | .addDependency tp dtp => do
    let manager ← transAddDependency s.manager (some tp) (some dtp)
    return { s with manager }
  | .commit tp => do
    let t ← s.manager.get tp
    return s.goto s.manager tp (.waiting t.depends)
  | .abort tp => do
    let _ ← s.manager.get tp
    return s.goto s.manager tp .aborting
  | .advance tp => s.advance tp

-- The owner adds dependencies and then makes one call of trans_commit or
-- trans_abort.
def Owned (s : Threads) : Action → Prop
  | .addDependency tp _ | .commit tp | .abort tp => s.pc tp = .adding
  | _ => True

instance (s : Threads) (a : Action) : Decidable (Owned s a) :=
  match a with
  | .create | .advance _ => .isTrue trivial
  | .addDependency tp _ | .commit tp | .abort tp => inferInstanceAs (Decidable (s.pc tp = .adding))

end Threads

end CSE320.Xacto
