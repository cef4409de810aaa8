import CSE320.Sfmm.Memory

namespace CSE320.Sfmm

-- size_t arithmetic
def padding (size : Nat) : Nat :=
  let tempSize := (size + 8) % 2 ^ 64
  if tempSize < 32 then 32
  else if tempSize % 16 = 0 then tempSize
  else (tempSize + (16 - tempSize % 16)) % 2 ^ 64

def subSize (a b : Nat) : Nat := (a + 2 ^ 64 - b) % 2 ^ 64

-- A size_t that passes through an int.
def throughInt (n : Nat) : Nat :=
  let low := n % 2 ^ 32
  if low < 2 ^ 31 then low else low + (2 ^ 64 - 2 ^ 32)

namespace State

-- Take a block out of its list.
def unlink (s : State) (x : Nat) : State :=
  let s := s.setLinkNext (s.linkPrev x) (s.linkNext x)
  s.setLinkPrev (s.linkNext x) (s.linkPrev x)

-- Put a block behind the head h of a list.
def linkFront (s : State) (h x : Nat) : State :=
  let s := s.setLinkNext x (s.linkNext h)
  let s := s.setLinkPrev x h
  let s := s.setLinkPrev (s.linkNext h) x
  s.setLinkNext h x

-- The same in the form that reads links.prev of the head for links.next.
def linkFrontPrev (s : State) (h x : Nat) : State :=
  let s := s.setLinkPrev x h
  let s := s.setLinkNext x (s.linkPrev h)
  let s := s.setLinkPrev (s.linkNext h) x
  s.setLinkNext h x

-- An assignment of a whole sf_free_list_node.
def copyNode (s : State) (dst src : Nat) : State :=
  let words := [0, 8, 16, 24, 32, 40].map fun i => (dst + i, s.mem (src + i))
  words.foldl (fun s w => s.write w.1 w.2) s

end State

variable (env : Sfutil)

-- The prologue header is built at the start of the heap and then copied to its
-- place eight bytes further on.
def prologue (s : State) : State :=
  let base := env.memStart
  let s := ((s.clearHeader base).write (base + 24) 0).write (base + 32) 0
  let s := (s.clearHeader base).setInfo base fun i => { i with allocated := true }
  let words := [0, 8, 16].map fun i => (base + 8 + i, s.mem (base + i))
  let s := words.foldl (fun s w => s.write w.1 w.2) s
  (s.write (base + 32) 0).setInfo (base + 32) fun i => { i with allocated := true }

def epilogue (s : State) : State :=
  (s.write (s.memEnd - 8) 0).setInfo (s.memEnd - 8) fun i => { i with allocated := true }

def firstBlock (env : Sfutil) : Nat := env.memStart + 40

def freeBlockSize : Nat := pageSz - 40 - 8

def initMem (s : State) : Bool × State :=
  match sfMemGrow env s with
  | (none, s) => (false, s)
  | (some _, s) =>
    let s := epilogue (prologue env s)
    let header := firstBlock env
    let s := (s.clearHeader header).setInfo header fun i =>
      { i with blockSize := Info.blocks freeBlockSize }
    let footer := s.memEnd - 16
    let s := (s.write footer 0).setInfo footer fun i =>
      { i with blockSize := Info.blocks freeBlockSize }
    match sfAddFreeList env s freeBlockSize (s.nodeNext (env.slot 0)) with
    | (none, s) => (false, s)
    | (some node, s) =>
      let s := s.setInfo (head node) fun i => { i with blockSize := Info.blocks freeBlockSize }
      let s := (s.setLinkNext (head node) header).setLinkPrev (head node) header
      (true, (s.setLinkPrev header (head node)).setLinkNext header (head node))

-- The heap grows until the size is reached. A failed call is the result -1.
def exactSize : Nat → State → Nat → Nat → Except Stop (Option Nat × State)
  | 0, _, _, _ => .error .spin
  | fuel + 1, s, size, paddSize =>
    if size < paddSize then
      match sfMemGrow env s with
      | (none, s) => .ok (none, { s with errno := .enomem })
      | (some page, s) => exactSize fuel s (size + (s.memEnd - page)) paddSize
    else
      .ok (some (throughInt size), s)

-- What the search through the lists of free blocks finds.
inductive Fit where
  | exact (node : Nat)
  | best (node : Nat)
  | none
deriving DecidableEq, Repr

def emptyList (s : State) (node : Nat) : Bool :=
  s.linkNext (head node) = head node ∧ s.linkPrev (head node) = head node

-- An empty list of the exact size is passed over, and its links are assigned the
-- values that they have.
def search (s : State) (paddSize : Nat) : Nat → Nat → Option Nat → Except Stop Fit
  | 0, _, _ => .error .spin
  | fuel + 1, cursor, successor =>
    if s.nodeSize cursor = 0 then
      .ok (match successor with
        | some node => .best node
        | Option.none => .none)
    else if s.nodeSize cursor = paddSize then
      if emptyList s cursor then search s paddSize fuel (s.nodeNext cursor) successor
      else .ok (.exact cursor)
    else if s.nodeSize cursor > paddSize then
      let successor :=
        if emptyList s cursor then successor
        else match successor with
          | Option.none => some cursor
          | some node => if s.nodeSize node > s.nodeSize cursor then some cursor else some node
      search s paddSize fuel (s.nodeNext cursor) successor
    else
      search s paddSize fuel (s.nodeNext cursor) successor

def findSize (s : State) (size : Nat) : Nat → Nat → Except Stop (Option Nat)
  | 0, _ => .error .spin
  | fuel + 1, cursor =>
    if s.nodeSize cursor = 0 then .ok none
    else if s.nodeSize cursor = size then .ok (some cursor)
    else findSize s size fuel (s.nodeNext cursor)

-- The search of the extension walks over a copy of the nodes on the stack.
def findCopy (s : State) (size : Nat) : Nat → Except Stop (Bool × State)
  | 0 => .error .spin
  | fuel + 1 =>
    if s.nodeSize env.frame = 0 then .ok (false, s)
    else if s.nodeSize env.frame = size then .ok (true, s)
    else findCopy (s.copyNode env.frame (s.nodeNext env.frame)) size fuel

def findGreaterCopy (s : State) (size : Nat) : Nat → Except Stop (Nat × State)
  | 0 => .error .spin
  | fuel + 1 =>
    let cursor := env.frame + 48
    if s.nodeSize cursor = 0 then .ok (s.nodePrev (env.slot 0), s)
    else if s.nodeSize cursor > size then .ok (s.nodePrev cursor, s)
    else findGreaterCopy (s.copyNode cursor (s.nodeNext cursor)) size fuel

inductive Extended where
  | failed
  | returned (ptr : Nat)
  | found (successor : Nat)
deriving DecidableEq, Repr

-- The header of the new block and the size that the growth has to reach it from.
def extensionStart (s : State) : Nat × Nat :=
  if (s.info (s.memEnd - 8)).prevAllocated then
    (s.memEnd - (s.info (s.memEnd - 16)).size - 8, (s.info (s.memEnd - 16)).size)
  else
    (s.memEnd, 0)

def extendHeap (s : State) (size paddSize : Nat) : Except Stop (Extended × State) := do
  let prevAllocated := (s.info (s.memEnd - 8)).prevAllocated
  let newHeader := (extensionStart s).1
  match ← exactSize env (paddSize + 1) s (extensionStart s).2 paddSize with
  | (none, s) => return (.failed, s)
  | (some newSize, s) =>
    let s := if prevAllocated then s.unlink newHeader else s
    let s := (s.clearHeader newHeader).setInfo newHeader fun i =>
      { i with requestedSize := BitVec.ofNat 32 size, blockSize := Info.blocks newSize,
               allocated := true, prevAllocated := true }
    let s := s.setInfo (s.memEnd - 16) fun i =>
      { i with requestedSize := BitVec.ofNat 32 size, blockSize := Info.blocks newSize,
               allocated := true, prevAllocated := true }
    let s := epilogue s
    if newSize = paddSize then
      -- new_header+8 counts in sf_header structures
      return (.returned (newHeader + 8 * 24), s)
    else
      let s := s.copyNode env.frame (s.nodeNext (env.slot 0))
      let (found, s) ← findCopy env s newSize (s.nodes + 1)
      if found then
        return (.found env.frame, s.linkFront (head env.frame) newHeader)
      else
        let s := s.copyNode (env.frame + 48) (s.nodeNext (env.slot 0))
        let (successor, s) ← findGreaterCopy env s newSize (s.nodes + 1)
        match sfAddFreeList env s newSize (s.nodeNext successor) with
        | (none, s) => return (.failed, { s with errno := .enomem })
        | (some node, s) =>
          let s := s.setInfo (head node) fun i => { i with blockSize := Info.blocks newSize }
          let s := s.setInfo (s.memEnd - 16) fun i => { i with blockSize := Info.blocks newSize }
          let s := (s.setLinkNext (head node) newHeader).setLinkPrev (head node) newHeader
          return (.found node,
            (s.setLinkPrev newHeader (head node)).setLinkNext newHeader (head node))

def exactFit (s : State) (size paddSize node : Nat) : Nat × State :=
  let h := head node
  let s :=
    if s.linkNext h ≠ s.linkPrev h then
      s.setInfo (s.linkNext (s.linkNext h)) fun i => { i with prevAllocated := true }
    else
      s.setInfo (s.memEnd - 8) fun i => { i with prevAllocated := true }
  let tempNode := s.linkNext h
  let s := s.setInfo tempNode fun i =>
    { i with requestedSize := BitVec.ofNat 32 size, blockSize :=
      Info.blocks paddSize, allocated := true }
  (tempNode + 8, s.unlink tempNode)

-- The first block of the list is cut: the part behind the padded size stays free.
def cutBlock (s : State) (size paddSize tempNode : Nat) : State :=
  let s := s.unlink tempNode
  let splitNode := tempNode + paddSize
  let s := s.clearHeader splitNode
  let splitSize := Info.blocks (subSize (s.info tempNode).size paddSize)
  let s := s.setInfo splitNode fun i => { i with blockSize := splitSize, prevAllocated := true }
  let s := s.setInfo (tempNode + (s.info tempNode).size - 8) fun i =>
    { i with blockSize := splitSize, prevAllocated := true }
  let s := s.setInfo tempNode fun i =>
    { i with requestedSize := BitVec.ofNat 32 size, blockSize :=
      Info.blocks paddSize, allocated := true }
  if firstBlock env = tempNode then
    s.setInfo tempNode fun i => { i with prevAllocated := true }
  else
    s

-- The two loops behind the search start at the end of the list and do nothing,
-- so a new size always goes to the end.
def splitBlock (s : State) (size paddSize successor : Nat) : Except Stop (Nat × State) := do
  let tempNode := s.linkNext (head successor)
  let splitNode := tempNode + paddSize
  let s := cutBlock env s size paddSize tempNode
  let freeSize := subSize (s.nodeSize successor) paddSize
  match ← findSize s freeSize (s.nodes + 1) (s.nodeNext (env.slot 0)) with
  | some cursor => return (tempNode + 8, s.linkFront (head cursor) splitNode)
  | none =>
    match sfAddFreeList env s freeSize (s.nodeNext (s.nodePrev (env.slot 0))) with
    | (none, s) => return (0, { s with errno := .enomem })
    | (some node, s) =>
      let s := (s.setLinkNext (head node) splitNode).setLinkPrev (head node) splitNode
      let s := (s.setLinkPrev splitNode (head node)).setLinkNext splitNode (head node)
      return (tempNode + 8,
        s.setInfo (head node) fun i => { i with blockSize := Info.blocks freeSize })

-- sf_malloc, once the heap is there.
def allocate (s : State) (size : Nat) : Except Stop (Nat × State) := do
  let paddSize := padding size
  match ← search s paddSize (s.nodes + 1) (s.nodeNext (env.slot 0)) none with
  | .exact node => return exactFit s size paddSize node
  | .best node => splitBlock env s size paddSize node
  | .none =>
    match ← extendHeap env s size paddSize with
    | (.failed, s) => return (0, s)
    | (.returned ptr, s) => return (ptr, s)
    | (.found successor, s) => splitBlock env s size paddSize successor

def sfMalloc (s : State) (size : Nat) : Except Stop (Nat × State) :=
  if size = 0 then
    .ok (0, s)
  else if env.memStart = s.memEnd then
    match initMem env s with
    | (false, s) => .ok (0, { s with errno := .enomem })
    | (true, s) => allocate env s size
  else
    allocate env s size

end CSE320.Sfmm
