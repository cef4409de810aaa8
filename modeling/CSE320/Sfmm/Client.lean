import CSE320.Lib.Run
import CSE320.Sfmm.Free

namespace CSE320.Sfmm

-- An allocation that a client owns: the pointer and the requested size.
structure Live where
  ptr : Nat
  size : Nat
deriving DecidableEq, Repr

structure World where
  heap : State
  live : List Live

inductive Op where
  | malloc (size : Nat)
  | free (ptr : Nat)
  | realloc (ptr size : Nat)
  | store (ptr offset : Nat) (byte : BitVec 8)
deriving DecidableEq, Repr

-- Storing one byte changes one word.
def storeByte (s : State) (a : Nat) (byte : BitVec 8) : State :=
  let word := a - a % 8
  let weight := 256 ^ (a % 8)
  let old := s.mem word
  s.write word (old / (weight * 256) * (weight * 256) + byte.toNat * weight + old % weight)

variable (env : Sfutil)

def exec (w : World) : Op → Except Stop World
  | .malloc size => do
    let (ptr, heap) ← sfMalloc env w.heap size
    return { heap, live := if ptr = 0 then w.live else ⟨ptr, size⟩ :: w.live }
  | .free ptr => do
    let heap ← sfFree env w.heap ptr
    return { heap, live := w.live.filter (·.ptr ≠ ptr) }
  | .realloc ptr size => do
    let (ptr', heap) ← sfRealloc env w.heap ptr size
    return { heap, live := if ptr' = 0 then w.live
      else ⟨ptr', size⟩ :: w.live.filter (·.ptr ≠ ptr) }
  | .store ptr offset byte => .ok { w with heap := storeByte w.heap (ptr + offset) byte }

-- A well-behaved client frees and reallocates what it owns, and stores only
-- inside the requested bytes. Sizes are of type size_t.
def Allowed (w : World) : Op → Prop
  | .malloc size => size < 2 ^ 64
  | .free ptr => ∃ l ∈ w.live, l.ptr = ptr
  | .realloc ptr size => size < 2 ^ 64 ∧ ∃ l ∈ w.live, l.ptr = ptr
  | .store ptr offset _ => ∃ l ∈ w.live, l.ptr = ptr ∧ offset < l.size

instance (w : World) (op : Op) : Decidable (Allowed w op) :=
  match op with
  | .malloc size => inferInstanceAs (Decidable (size < 2 ^ 64))
  | .free ptr => inferInstanceAs (Decidable (∃ l ∈ w.live, l.ptr = ptr))
  | .realloc ptr size => inferInstanceAs (Decidable (size < 2 ^ 64 ∧ ∃ l ∈ w.live, l.ptr = ptr))
  | .store ptr offset _ => inferInstanceAs (Decidable (∃ l ∈ w.live, l.ptr = ptr ∧ offset < l.size))

-- The headers that a walk from the end of the prologue visits, the epilogue last.
inductive Walk (s : State) : Nat → Prop
  | first : Walk s (firstBlock env)
  | next {a : Nat} (ha : Walk s a) (hend : a < s.memEnd - 8) : Walk s (a + (s.info a).size)

def IsBlock (s : State) (a : Nat) : Prop := Walk env s a ∧ a < s.memEnd - 8

def FreeBlock (s : State) (a : Nat) : Prop := IsBlock env s a ∧ (s.info a).allocated = false

-- The words of the heap that the allocator reads again: the prologue and the
-- epilogue, the headers, and the links and footers of free blocks.
def Relied (s : State) (word : Nat) : Prop :=
  (env.memStart ≤ word ∧ word < firstBlock env) ∨ word = s.memEnd - 8 ∨ IsBlock env s word ∨
    ∃ a, FreeBlock env s a ∧ (word = a + 8 ∨ word = a + 16 ∨ word = a + (s.info a).size - 8)

structure HeapSafe (w : World) : Prop where
  aligned : ∀ l ∈ w.live, l.ptr % 16 = 0
  bounded : ∀ l ∈ w.live, firstBlock env ≤ l.ptr ∧ l.ptr + l.size ≤ w.heap.memEnd - 8
  disjoint : w.live.Pairwise fun l l' => l.ptr + l.size ≤ l'.ptr ∨ l'.ptr + l'.size ≤ l.ptr
  clear : ∀ l ∈ w.live, ∀ word, Relied env w.heap word →
    l.ptr + l.size ≤ word ∨ word + 8 ≤ l.ptr

def World.start (mem : Nat → Nat) : World where
  heap := Sfmm.start env mem
  live := []

end CSE320.Sfmm
