import Mathlib.Algebra.Group.Int.Defs
import Mathlib.Algebra.GroupWithZero.Nat
import Mathlib.Data.List.Basic

namespace CSE320.Sfmm

-- sf_block_info: the bit fields of one word, lowest bits first.
structure Info where
  allocated : Bool
  prevAllocated : Bool
  twoZeroes : BitVec 2
  blockSize : BitVec 28
  requestedSize : BitVec 32
deriving DecidableEq, Repr

namespace Info

def ofWord (w : Nat) : Info where
  allocated := w % 2 == 1
  prevAllocated := w / 2 % 2 == 1
  twoZeroes := BitVec.ofNat 2 (w / 4)
  blockSize := BitVec.ofNat 28 (w / 16)
  requestedSize := BitVec.ofNat 32 (w / 2 ^ 32)

def toWord (i : Info) : Nat :=
  i.allocated.toNat + 2 * i.prevAllocated.toNat + 4 * i.twoZeroes.toNat + 16 * i.blockSize.toNat +
    2 ^ 32 * i.requestedSize.toNat

-- block_size<<4
def size (i : Info) : Nat := i.blockSize.toNat * 16

-- The value of a field that is assigned size>>4.
def blocks (size : Nat) : BitVec 28 := BitVec.ofNat 28 (size / 16)

theorem ofWord_toWord (i : Info) : ofWord i.toWord = i := by
  obtain ⟨a, p, z, b, r⟩ := i
  have ha : a.toNat ≤ 1 := Bool.toNat_le a
  have hp : p.toNat ≤ 1 := Bool.toNat_le p
  have hz := z.isLt
  have hb := b.isLt
  have hr := r.isLt
  simp only [ofWord, toWord, Info.mk.injEq]
  refine ⟨?_, ?_, BitVec.eq_of_toNat_eq ?_, BitVec.eq_of_toNat_eq ?_, BitVec.eq_of_toNat_eq ?_⟩
  · have hbit : (a.toNat + 2 * p.toNat + 4 * z.toNat + 16 * b.toNat + 2 ^ 32 * r.toNat) % 2 =
        a.toNat := by
      omega
    rw [hbit]
    cases a <;> rfl
  · have hbit : (a.toNat + 2 * p.toNat + 4 * z.toNat + 16 * b.toNat + 2 ^ 32 * r.toNat) / 2 % 2 =
        p.toNat := by
      omega
    rw [hbit]
    cases p <;> rfl
  · rw [BitVec.toNat_ofNat]
    omega
  · rw [BitVec.toNat_ofNat]
    omega
  · rw [BitVec.toNat_ofNat]
    omega

theorem size_blocks {n : Nat} (hdiv : n % 16 = 0) (hn : n < 2 ^ 32) (i : Info) :
    ({ i with blockSize := blocks n } : Info).size = n := by
  simp only [size, blocks, BitVec.toNat_ofNat]
  omega

theorem size_mod (i : Info) : i.size % 16 = 0 := Nat.mul_mod_left _ _

end Info

inductive Errno where
  | unset
  | enomem
  | einval
deriving DecidableEq, Repr

-- Why a call does not return: abort(), a libc call on a pointer that libc does
-- not own, or a loop over a list that does not come to its end.
inductive Stop where
  | abort
  | undefined
  | spin
deriving DecidableEq, Repr

-- What the allocator is linked against: the heap starts at memStart and ends at
-- memLimit at the latest, slot 0 is sf_free_list_head, slot k is the k-th node
-- that sf_add_free_list hands out, frame holds the two nodes on the stack of
-- sf_malloc, and the two sequences say which calls succeed.
structure Sfutil where
  memStart : Nat
  memLimit : Nat
  slot : Nat → Nat
  frame : Nat
  grows : Nat → Bool
  adds : Nat → Bool

-- Memory holds one number for each address of an eight-byte word.
structure State where
  mem : Nat → Nat
  memEnd : Nat
  nodes : Nat
  growCalls : Nat
  addCalls : Nat
  errno : Errno

namespace State

def write (s : State) (a v : Nat) : State :=
  { s with mem := fun b => if b = a then v else s.mem b }

def info (s : State) (a : Nat) : Info := Info.ofWord (s.mem a)

def setInfo (s : State) (a : Nat) (f : Info → Info) : State := s.write a (f (s.info a)).toWord

-- sf_header: the information word, links.next and links.prev.
def linkNext (s : State) (h : Nat) : Nat := s.mem (h + 8)

def linkPrev (s : State) (h : Nat) : Nat := s.mem (h + 16)

def setLinkNext (s : State) (h v : Nat) : State := s.write (h + 8) v

def setLinkPrev (s : State) (h v : Nat) : State := s.write (h + 16) v

-- memset of a whole sf_header
def clearHeader (s : State) (h : Nat) : State := ((s.write h 0).write (h + 8) 0).write (h + 16) 0

-- sf_free_list_node: size, the sf_header head, next and prev.
def nodeSize (s : State) (n : Nat) : Nat := s.mem n

def nodeNext (s : State) (n : Nat) : Nat := s.mem (n + 32)

def nodePrev (s : State) (n : Nat) : Nat := s.mem (n + 40)

variable (s : State) {a b v : Nat} (f : Info → Info)

theorem mem_write_ne (h : b ≠ a) : (s.write a v).mem b = s.mem b := if_neg h

theorem info_write_self : (s.write a v).info a = Info.ofWord v := by
  simp [info, write]

theorem info_write_ne (h : b ≠ a) : (s.write a v).info b = s.info b := by
  rw [info, info, mem_write_ne s h]

theorem mem_setInfo_ne (h : b ≠ a) : (s.setInfo a f).mem b = s.mem b := mem_write_ne s h

@[simp] theorem info_setInfo_self : (s.setInfo a f).info a = f (s.info a) := by
  rw [setInfo, info_write_self, Info.ofWord_toWord]

theorem info_setInfo_ne (h : b ≠ a) : (s.setInfo a f).info b = s.info b := info_write_ne s h

theorem setInfo_congr {g : Info → Info} (h : f (s.info a) = g (s.info a)) :
    s.setInfo a f = s.setInfo a g := by
  rw [setInfo, setInfo, h]

theorem setInfo_comm (g : Info → Info) (h : a ≠ b) :
    (s.setInfo a f).setInfo b g = (s.setInfo b g).setInfo a f := by
  have hmem : ((s.setInfo a f).setInfo b g).mem = ((s.setInfo b g).setInfo a f).mem := by
    funext w
    simp only [setInfo, write, info, if_neg h, if_neg h.symm]
    by_cases hwa : w = a
    · subst hwa
      simp [h]
    · simp [hwa]
  simp only [setInfo, write] at hmem ⊢
  rw [hmem]

@[simp] theorem setInfo_memEnd : (s.setInfo a f).memEnd = s.memEnd := rfl

end State

def head (n : Nat) : Nat := n + 8

-- PAGE_SZ
def pageSz : Nat := 4096

variable (env : Sfutil)

def start (mem : Nat → Nat) : State where
  mem := fun a =>
    if a = env.slot 0 then 0
    else if a = env.slot 0 + 32 ∨ a = env.slot 0 + 40 then env.slot 0
    else mem a
  memEnd := env.memStart
  nodes := 0
  growCalls := 0
  addCalls := 0
  errno := .unset

def sfMemGrow (s : State) : Option Nat × State :=
  if env.grows s.growCalls ∧ s.memEnd + pageSz ≤ env.memLimit then
    (some s.memEnd, { s with memEnd := s.memEnd + pageSz, growCalls := s.growCalls + 1 })
  else
    (none, { s with growCalls := s.growCalls + 1, errno := .enomem })

-- The new node gets an empty list and a place just before next.
def sfAddFreeList (s : State) (size next : Nat) : Option Nat × State :=
  if env.adds s.addCalls then
    let node := env.slot (s.nodes + 1)
    let s := s.write node size
    let s := (s.setLinkNext (head node) (head node)).setLinkPrev (head node) (head node)
    let prev := s.nodePrev next
    let s := (s.write (node + 32) next).write (node + 40) prev
    let s := (s.write (prev + 32) node).write (next + 40) node
    (some node, { s with nodes := s.nodes + 1, addCalls := s.addCalls + 1 })
  else
    (none, { s with addCalls := s.addCalls + 1 })

end CSE320.Sfmm
