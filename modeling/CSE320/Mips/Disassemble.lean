import CSE320.Lib.Run
import CSE320.Mips.Main

namespace CSE320.Mips

open Lib (Byte ascii)

-- The complete words of the input, in the byte order of the host.
def words (endi : Bool) : List Byte → List (BitVec 32)
  | a :: b :: c :: d :: stdin =>
    (if endi then bigEndian (Lib.word a b c d) else Lib.word a b c d) :: words endi stdin
  | _ => []

-- The line for one word, from a record that has held no other word.
def lineOf (addr word : BitVec 32) : Option (List Byte) :=
  match disassembleWord false .zero addr word with
  | .ok (_, line) => some line
  | .error _ => none

-- What a word means: the entry of the table and the arguments.
def decodeWord (addr value : BitVec 32) : Option (InstrInfo × (Fin 3 → BitVec 32)) := do
  let opcode ← decodeOpcode value
  let info ← lookup opcode
  let args ← decodeArgs info opcode addr value
  return (info, args)

-- Every opcode that the tables lead to has an entry in the instrTable.
theorem lookup_of_table : ∀ opcode ∈ opcodeTable ++ specialTable,
    opcode ≠ .special → opcode ≠ .bcond → opcode ≠ .illegl →
      ∃ info ∈ instrTable, lookup opcode = some info := by
  decide +kernel

theorem getD_mem {α : Type} {l : List α} {i : Nat} {d : α} (h : l.getD i d ≠ d) :
    l.getD i d ∈ l := by
  rw [List.getD_eq_getElem?_getD] at h ⊢
  cases hi : l[i]? with
  | none =>
      rw [hi] at h
      exact absurd rfl h
  | some a => exact List.mem_of_getElem? hi

theorem lookup_of_decodeOpcode {value : BitVec 32} {opcode : Opcode}
    (h : decodeOpcode value = some opcode) :
    ∃ info ∈ instrTable, lookup opcode = some info := by
  have hspecials : Opcode.special ∉ specialTable ∧ Opcode.bcond ∉ specialTable := by decide
  have hbranches : ∀ opcode ∈ [Opcode.opBltz, .opBgez, .opBltzal, .opBgezal],
      ∃ info ∈ instrTable, lookup opcode = some info := by decide +kernel
  unfold decodeOpcode at h
  simp only at h
  split at h
  · split at h
    · cases h
    · rename_i hne
      obtain rfl := Option.some.inj h
      have hmem := getD_mem hne
      refine lookup_of_table _ (List.mem_append_right _ hmem) ?_ ?_ hne
      · exact fun he => hspecials.1 (he ▸ hmem)
      · exact fun he => hspecials.2 (he ▸ hmem)
  · rename_i hspecial
    split at h
    · -- the branches that share an opcode
      refine hbranches opcode ?_
      repeat' split at h
      all_goals cases h
      all_goals simp
    · rename_i hbcond
      split at h
      · rename_i hne
        obtain rfl := Option.some.inj h
        exact lookup_of_table _ (List.mem_append_left _ (getD_mem hne)) hspecial hbcond hne
      · cases h

-- The old content of the record plays no part in what is decoded.
theorem decode_eq (ip : Instruction) (addr : BitVec 32) :
    match decodeWord addr ip.value with
    | none => decode ip addr = .error .rejected
    | some (info, args) =>
        ∃ ip', decode ip addr = .ok ip' ∧ ip'.info = some info ∧ ip'.args = args := by
  unfold decodeWord decode
  cases hop : decodeOpcode ip.value with
  | none => rfl
  | some opcode =>
      obtain ⟨info, -, hinfo⟩ := lookup_of_decodeOpcode hop
      simp only [hinfo, Option.some_or, Option.bind_eq_bind, Option.bind_some]
      cases decodeArgs info opcode addr ip.value with
      | none => rfl
      | some args => exact ⟨_, rfl, rfl, rfl⟩

def printLine (info : InstrInfo) (args : Fin 3 → BitVec 32) : List Byte :=
  Lib.printf (ascii info.format) [args 0, args 1, args 2] ++ [10]

theorem disassembleWord_eq (endi : Bool) (instr : Instruction) (addr word : BitVec 32) :
    match decodeWord addr (if endi then bigEndian word else word) with
    | none => disassembleWord endi instr addr word = .error .rejected
    | some (info, args) =>
        ∃ instr', disassembleWord endi instr addr word = .ok (instr', printLine info args) := by
  have hdecode := decode_eq { instr with value := if endi then bigEndian word else word } addr
  unfold disassembleWord
  cases hword : decodeWord addr (if endi then bigEndian word else word) with
  | none =>
      simp only [hword] at hdecode
      rw [hdecode]
      rfl
  | some entry =>
      simp only [hword] at hdecode
      obtain ⟨ip', hip, hinfo, hargs⟩ := hdecode
      rw [hip, Lib.ok_bind, hinfo, hargs]
      exact ⟨ip', rfl⟩

theorem lineOf_eq (addr word : BitVec 32) :
    lineOf addr word = (decodeWord addr word).map fun entry => printLine entry.1 entry.2 := by
  have hword := disassembleWord_eq false .zero addr word
  simp only [Bool.false_eq_true, if_false] at hword
  unfold lineOf
  cases hd : decodeWord addr word with
  | none =>
      simp only [hd] at hword
      rw [hword]
      rfl
  | some entry =>
      simp only [hd] at hword
      obtain ⟨instr', heq⟩ := hword
      rw [heq]
      rfl

-- The lines of the words from an address on.
def linesFrom (addr : BitVec 32) (ws : List (BitVec 32)) : List (Option (List Byte)) :=
  ws.mapIdx fun i word => lineOf (addr + BitVec.ofNat 32 (4 * i)) word

theorem linesFrom_cons (addr word : BitVec 32) (ws : List (BitVec 32)) :
    linesFrom addr (word :: ws) = lineOf addr word :: linesFrom (addr + 4) ws := by
  unfold linesFrom
  have hplace (i : Nat) : addr + BitVec.ofNat 32 (4 * (i + 1)) =
      addr + 4 + BitVec.ofNat 32 (4 * i) := by
    rw [BitVec.add_assoc, Nat.mul_add, Nat.add_comm, BitVec.ofNat_add]
    rfl
  simp only [List.mapIdx_cons, hplace, Nat.mul_zero, BitVec.add_zero]

-- The lines up to the first word that is not decoded.
def Outcome.ofLines (lines : List (Option (List Byte))) : Outcome where
  status := if lines.all Option.isSome then .success else .failure
  stdout := ((lines.takeWhile Option.isSome).filterMap id).flatten

theorem disassembleLoop_eq (endi : Bool) (instr : Instruction) (addr : BitVec 32)
    (stdin : List Byte) :
    disassembleLoop endi instr addr stdin = .ofLines (linesFrom addr (words endi stdin)) := by
  induction stdin using words.induct generalizing instr addr with
  | case1 a b c d stdin ih =>
      have hline := lineOf_eq addr (if endi then bigEndian (Lib.word a b c d) else Lib.word a b c d)
      have hword := disassembleWord_eq endi instr addr (Lib.word a b c d)
      rw [disassembleLoop, words, linesFrom_cons]
      cases hd : decodeWord addr (if endi then bigEndian (Lib.word a b c d) else Lib.word a b c d)
        with
      | none =>
          simp only [hd] at hword
          rw [hd] at hline
          rw [hword, hline]
          rfl
      | some entry =>
          simp only [hd] at hword
          rw [hd] at hline
          obtain ⟨instr', heq⟩ := hword
          rw [heq, hline]
          simp only [ih, Outcome.after, Outcome.ofLines]
          simp
  | case2 stdin hstop =>
      have hwords : words endi stdin = [] := by
        unfold words
        split
        · exact absurd rfl (hstop _ _ _ _ _)
        · rfl
      rw [hwords]
      unfold disassembleLoop
      split
      · exact absurd rfl (hstop _ _ _ _ _)
      · rfl

-- The output is one line for each word, up to the first word that is not decoded.
-- The line depends on the word and its address only.
theorem disassemble_eq (endi : Bool) (addr : BitVec 32) (stdin : List Byte) :
    disassemble endi addr stdin = .ofLines ((words endi stdin).mapIdx fun i word =>
      lineOf (addr + BitVec.ofNat 32 (4 * i)) word) :=
  disassembleLoop_eq endi .zero addr stdin

end CSE320.Mips
