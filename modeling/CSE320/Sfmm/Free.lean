import CSE320.Sfmm.Alloc

namespace CSE320.Sfmm

variable (env : Sfutil)

-- The tests of valid_ptr and valid_ptr_realloc. The sum with the requested size
-- is an unsigned int.
inductive PtrCheck where
  | valid
  | invalid
  | oversized
deriving DecidableEq, Repr

def checkPtr (s : State) (ptr : Nat) : PtrCheck :=
  let header := ptr - 8
  let i := s.info header
  if ptr = 0 then .invalid
  else if firstBlock env > header then .invalid
  else if s.memEnd + 8 < header then .invalid
  else if i.allocated = false then .invalid
  else if i.size < 32 then .invalid
  else if (i.requestedSize.toNat + 8) % 2 ^ 32 > i.size then .oversized
  else if i.prevAllocated = false ∧ (s.info (header - 8)).allocated = true then .invalid
  else .valid

def validPtr (s : State) (ptr : Nat) : Except Stop Unit :=
  match checkPtr env s ptr with
  | .valid => .ok ()
  | _ => .error .abort

def validPtrRealloc (s : State) (ptr : Nat) : Except Stop (Bool × State) :=
  match checkPtr env s ptr with
  | .valid => .ok (true, s)
  | .invalid => .ok (false, { s with errno := .einval })
  | .oversized => .error .abort

-- Where a block of some size goes in the list of sizes.
inductive Place where
  | equal (node : Nat)
  | before (node : Nat)
  | atEnd
deriving DecidableEq, Repr

def findPlace (s : State) (size : Nat) : Nat → Nat → Except Stop Place
  | 0, _ => .error .spin
  | fuel + 1, cursor =>
    if s.nodeSize cursor = size then .ok (.equal cursor)
    else if s.nodeSize cursor > size then .ok (.before cursor)
    else if s.nodeSize cursor = 0 then .ok .atEnd
    else findPlace s size fuel (s.nodeNext cursor)

def place (s : State) (size : Nat) : Except Stop Place :=
  findPlace s size (s.nodes + 1) (s.nodeNext (env.slot 0))

-- The loop that puts a free block into the list of its size. The three copies of
-- it differ in the node in front of which a largest size is added, and in how the
-- block is linked into a new list.
def insertSized (s : State) (size x last : Nat) (linkNew : State → Nat → Nat → State) :
    Except Stop State := do
  let add (next : Nat) : Except Stop State :=
    match sfAddFreeList env s size next with
    | (none, _) => .error .abort
    | (some node, s) => .ok (linkNew s (head node) x)
  match ← place env s size with
  | .equal node => return s.linkFrontPrev (head node) x
  | .before node => add node
  | .atEnd => add last

-- The last word of the next block, or the epilogue.
def footOf (s : State) (header : Nat) : Nat :=
  if (s.info header).size ≠ 0 then header + (s.info header).size - 8 else s.memEnd - 8

-- A block becomes free: its header and footer, and the two ends of the next block.
def markFree (s : State) (h : Nat) : State :=
  let headOfNext := h + (s.info h).size
  let foot := headOfNext - 8
  let footOfNext := footOf s headOfNext
  let s := s.setInfo h fun i => { i with requestedSize := 0, allocated := false }
  let s := s.setInfo foot fun _ => { s.info h with twoZeroes := 0 }
  let s := s.setInfo headOfNext fun i => { i with prevAllocated := false }
  s.setInfo footOfNext fun i => { i with prevAllocated := false }

def putIntoFree (s : State) (ptr : Nat) : Except Stop State :=
  let h := ptr - 8
  let s := markFree s h
  insertSized env s (s.info h).size h (s.nodePrev (s.nodeNext (env.slot 0))) State.linkFront

-- Two adjacent free blocks become one.
def mergeBlocks (s : State) (top bottom newFooter : Nat) : State :=
  let newSize := (s.info top).size + (s.info bottom).size
  let s := (s.unlink top).unlink bottom
  let s := s.setInfo top fun i =>
    { i with requestedSize := 0, blockSize := Info.blocks newSize, twoZeroes := 0 }
  let s := s.setInfo newFooter fun _ =>
    { allocated := false, prevAllocated := (s.info top).prevAllocated, twoZeroes := 0,
      blockSize := Info.blocks newSize, requestedSize := 0 }
  s.setInfo (newFooter + 8) fun i => { i with prevAllocated := false }

def coalesce (s : State) (top bottom newFooter : Nat) : Except Stop State :=
  let newSize := (s.info top).size + (s.info bottom).size
  let s := mergeBlocks s top bottom newFooter
  insertSized env s newSize top (s.nodeNext (env.slot 0)) State.linkFrontPrev

-- foot_of_prev is the header of the block itself, and the bit that is tested for
-- the previous block is read from the first payload word.
def sfFree (s : State) (ptr : Nat) : Except Stop State := do
  validPtr env s ptr
  let s ← putIntoFree env s ptr
  let h := ptr - 8
  let footOfPrev := ptr - 8
  let headOfPrev :=
    if (s.info footOfPrev).size ≠ 0 then footOfPrev - (s.info footOfPrev).size else env.memStart
  let headOfNext := h + (s.info h).size
  let foot := headOfNext - 8
  let footOfNext := footOf s headOfNext
  let s ← if (s.info ptr).prevAllocated = true ∧ headOfPrev ≠ env.memStart then
      coalesce env s headOfPrev h foot
    else
      pure s
  if (s.info headOfNext).allocated = false ∧ footOfNext ≠ s.memEnd - 8 then
    coalesce env s h headOfNext footOfNext
  else
    return s

-- The value of an int variable that is assigned a size_t.
def toInt (n : Nat) : Int := if n % 2 ^ 32 < 2 ^ 31 then (n % 2 ^ 32 : Nat)
    else (n % 2 ^ 32 : Nat) - 2 ^ 32

-- A block is cut for sf_realloc: the remainder is marked free, and a footer is
-- written at the end of the part that stays allocated.
def shrinkBlock (s : State) (h size : Nat) (oldSize paddSize : Int) : State :=
  let remaining : Info :=
    { allocated := false, prevAllocated := true, twoZeroes := 0,
      blockSize := BitVec.ofInt 28 ((oldSize - paddSize) / 16), requestedSize := 0 }
  let s := s.setInfo (h + paddSize).toNat fun _ => remaining
  let s := s.setInfo (h + oldSize - 8).toNat fun _ => remaining
  let s := s.setInfo h fun i =>
    { i with requestedSize := BitVec.ofNat 32 size, blockSize := BitVec.ofInt 28 (paddSize / 16),
             allocated := true }
  let s := s.setInfo (h + paddSize - 8).toNat fun _ =>
    { allocated := true, prevAllocated := true, twoZeroes := 0,
      blockSize := BitVec.ofInt 28 (paddSize / 16), requestedSize := BitVec.ofNat 32 size }
  let nextBlock := (h + oldSize).toNat
  let s := s.setInfo nextBlock fun i => { i with prevAllocated := false }
  s.setInfo (nextBlock + (s.info nextBlock).size - 8) fun i => { i with prevAllocated := false }

-- A larger size is handed to malloc, memcpy and free of the C library, which does
-- not own the block.
def sfRealloc (s : State) (ptr size : Nat) : Except Stop (Nat × State) := do
  let (valid, s) ← validPtrRealloc env s ptr
  if ¬valid then
    return (0, s)
  else
    let h := ptr - 8
    let oldSize : Int := (s.info h).size
    let paddSize := toInt (padding size)
    if paddSize > oldSize then
      throw .undefined
    else if paddSize < oldSize then
      let remainder := (h + paddSize).toNat
      let nextBlock := (h + oldSize).toNat
      let s := shrinkBlock s h size oldSize paddSize
      let feet := nextBlock + (s.info nextBlock).size - 8
      let s ← insertSized env s (oldSize - paddSize).toNat remainder (s.nodeNext (env.slot 0))
        State.linkFront
      if (s.info nextBlock).allocated = false ∧ (s.info nextBlock).size ≠ 0 then
        let s ← coalesce env s remainder nextBlock feet
        return (ptr, s)
      else
        return (ptr, s)
    else
      return (ptr, s.setInfo h fun i => { i with requestedSize := BitVec.ofNat 32 size })

end CSE320.Sfmm
