import Mathlib.Data.List.Basic

namespace CSE320.Lib

abbrev Byte := BitVec 8

-- The bytes of a word, the least significant one first.
def byte (x : BitVec 32) (i : Nat) : Byte := x.extractLsb' (8 * i) 8

def word (a b c d : Byte) : BitVec 32 := d ++ c ++ b ++ a

def le32 (x : BitVec 32) : List Byte := [byte x 0, byte x 1, byte x 2, byte x 3]

-- The word with its bytes in the opposite order.
def swap32 (x : BitVec 32) : BitVec 32 := word (byte x 3) (byte x 2) (byte x 1) (byte x 0)

@[simp] theorem word_bytes (x : BitVec 32) :
    word (byte x 0) (byte x 1) (byte x 2) (byte x 3) = x := by
  unfold word byte
  ext i hi
  simp only [BitVec.getElem_append, BitVec.getElem_extractLsb']
  split
  · grind
  · split
    · grind
    · split <;> grind

section

variable (a b c d : Byte)

@[simp] theorem byte_word_zero : byte (word a b c d) 0 = a := by
  unfold word byte
  ext i hi
  simp
  grind

@[simp] theorem byte_word_one : byte (word a b c d) 1 = b := by
  unfold word byte
  ext i hi
  simp
  grind

@[simp] theorem byte_word_two : byte (word a b c d) 2 = c := by
  unfold word byte
  ext i hi
  simp
  grind

@[simp] theorem byte_word_three : byte (word a b c d) 3 = d := by
  unfold word byte
  ext i hi
  simp
  grind

end

-- A byte is what is left of the word when it is shifted down to the lowest place.
theorem setWidth_sshiftRight (x : BitVec 32) {i : Nat} (hi : i < 4) :
    (x.sshiftRight (8 * i)).setWidth 8 = byte x i := by
  unfold byte
  ext j hj
  simp only [BitVec.getElem_setWidth, BitVec.getLsbD_sshiftRight, BitVec.getElem_extractLsb']
  have hlt : 8 * i + j < 32 := by omega
  have hj32 : ¬32 ≤ j := by omega
  simp [hlt, hj32]

@[simp] theorem le32_length (x : BitVec 32) : (le32 x).length = 4 := rfl

theorem le32_swap32 (x : BitVec 32) : le32 (swap32 x) = (le32 x).reverse := by
  simp [le32, swap32]

@[simp] theorem swap32_swap32 (x : BitVec 32) : swap32 (swap32 x) = x := by
  rw [swap32, swap32]
  simp

end CSE320.Lib
