import CSE320.Lib.Run
import CSE320.Mips.Main
import Mathlib.Tactic.IntervalCases

namespace CSE320.Mips

open Lib (Byte)

-- Each complete word of a stream with its bytes in the opposite order.
def reverseWords : List Byte → List Byte
  | a :: b :: c :: d :: stream => d :: c :: b :: a :: reverseWords stream
  | stream => stream

-- The number of lines that the assembler accepts.
def acceptedLines (endi : Bool) (instr : Instruction) (addr : BitVec 32) : List (List Byte) → Nat
  | [] => 0
  | userInput :: rest =>
    match assembleLine endi instr addr userInput with
    | .error _ => 0
    | .ok (instr, _) => acceptedLines endi instr (addr + 4) rest + 1

theorem byte_bigEndian (num : BitVec 32) :
    Lib.byte (bigEndian num) 0 = Lib.byte num 3 ∧ Lib.byte (bigEndian num) 1 = Lib.byte num 2 ∧
      Lib.byte (bigEndian num) 2 = Lib.byte num 1 ∧
        Lib.byte (bigEndian num) 3 = Lib.byte num 0 := by
  unfold bigEndian Lib.byte
  refine ⟨?_, ?_, ?_, ?_⟩ <;> ext i hi <;> interval_cases i <;> simp

theorem bigEndian_eq (num : BitVec 32) : bigEndian num = Lib.swap32 num := by
  obtain ⟨hzero, hone, htwo, hthree⟩ := byte_bigEndian num
  rw [← Lib.word_bytes (bigEndian num), hzero, hone, htwo, hthree, Lib.swap32]

theorem bigEndian_word (a b c d : Byte) : bigEndian (Lib.word d c b a) = Lib.word a b c d := by
  simp [bigEndian_eq, Lib.swap32]

-- The bytes are written from the lowest one up.
theorem putBytes_eq (value : BitVec 32) : ∃ left, putBytes 4 value = (Lib.le32 value, left) := by
  have hzero := Lib.setWidth_sshiftRight value (show 0 < 4 by decide)
  have hone := Lib.setWidth_sshiftRight value (show 1 < 4 by decide)
  have htwo := Lib.setWidth_sshiftRight value (show 2 < 4 by decide)
  have hthree := Lib.setWidth_sshiftRight value (show 3 < 4 by decide)
  rw [Nat.mul_zero, BitVec.sshiftRight_zero] at hzero
  refine ⟨(putBytes 4 value).2, ?_⟩
  simp only [putBytes, ← BitVec.sshiftRight_add, Nat.reduceAdd]
  rw [hzero, hone, htwo, hthree, Lib.le32]

-- Two records that differ in the value at most.
def SameRest (instr instr' : Instruction) : Prop :=
  { instr with value := 0 } = { instr' with value := 0 }

theorem encode_sameRest {ip ip' : Instruction} (h : SameRest ip ip') (addr : BitVec 32) :
    encode ip addr = encode ip' addr := by
  obtain ⟨value, info, regs, extra, args⟩ := ip
  obtain ⟨value', info', regs', extra', args'⟩ := ip'
  simp only [SameRest, Instruction.mk.injEq, true_and] at h
  obtain ⟨rfl, rfl, rfl, rfl⟩ := h
  rfl

-- The line is accepted in both byte orders or in none, and the bytes are those of
-- one word.
theorem assembleLine_endian {instr instr' : Instruction} (h : SameRest instr instr')
    (addr : BitVec 32) (userInput : List Byte) :
    (∃ e, assembleLine true instr addr userInput = .error e ∧
        assembleLine false instr' addr userInput = .error e) ∨
      ∃ next next' value, assembleLine true instr addr userInput =
        .ok (next, (Lib.le32 value).reverse) ∧
        assembleLine false instr' addr userInput = .ok (next', Lib.le32 value) ∧
          SameRest next next' := by
  obtain ⟨value, info, regs, extra, args⟩ := instr
  obtain ⟨value', info', regs', extra', args'⟩ := instr'
  simp only [SameRest, Instruction.mk.injEq, true_and] at h
  obtain ⟨rfl, rfl, rfl, rfl⟩ := h
  unfold assembleLine
  cases findFormat userInput with
  | none => exact Or.inl ⟨_, rfl, rfl⟩
  | some found =>
      obtain ⟨info, scanned⟩ := found
      simp only
      split
      · exact Or.inl ⟨_, rfl, rfl⟩
      split
      · exact Or.inl ⟨_, rfl, rfl⟩
      split
      · exact Or.inl ⟨_, rfl, rfl⟩
      have hsame : SameRest
          (transfer ⟨value, some info, regs, extra, storeArgs scanned.values args⟩ info)
          (transfer ⟨value', some info, regs, extra, storeArgs scanned.values args⟩ info) := rfl
      rw [encode_sameRest hsame]
      cases encode (transfer ⟨value', some info, regs, extra, storeArgs scanned.values args⟩ info)
        addr with
      | error e => exact Or.inl ⟨e, rfl, rfl⟩
      | ok ip =>
          obtain ⟨left, hleft⟩ := putBytes_eq (bigEndian ip.value)
          obtain ⟨left', hleft'⟩ := putBytes_eq ip.value
          rw [bigEndian_eq, Lib.le32_swap32, ← bigEndian_eq] at hleft
          refine Or.inr ⟨{ ip with value := left }, { ip with value := left' }, ip.value,
            ?_, ?_, rfl⟩
          · simp only [Lib.ok_bind, if_true, hleft, Lib.pure_eq_ok]
          · simp only [Lib.ok_bind, Bool.false_eq_true, if_false, hleft', Lib.pure_eq_ok]

theorem reverseWords_le32 (value : BitVec 32) (stream : List Byte) :
    reverseWords (Lib.le32 value ++ stream) = (Lib.le32 value).reverse ++ reverseWords stream := rfl

theorem assembleLoop_endian {instr instr' : Instruction} (h : SameRest instr instr')
    (addr : BitVec 32) (lines : List (List Byte)) :
    acceptedLines true instr addr lines = acceptedLines false instr' addr lines ∧
      (assembleLoop true instr addr lines).status = (assembleLoop false instr' addr lines).status ∧
      (assembleLoop true instr addr lines).stdout =
        reverseWords (assembleLoop false instr' addr lines).stdout := by
  induction lines generalizing instr instr' addr with
  | nil => exact ⟨rfl, rfl, rfl⟩
  | cons userInput rest ih =>
      rw [acceptedLines, acceptedLines, assembleLoop, assembleLoop]
      rcases assembleLine_endian h addr userInput with ⟨e, hbig, hlittle⟩ |
        ⟨next, next', value, hbig, hlittle, hnext⟩
      · rw [hbig, hlittle]
        exact ⟨rfl, rfl, rfl⟩
      · obtain ⟨hcount, hstatus, hout⟩ := ih hnext (addr + 4)
        rw [hbig, hlittle]
        refine ⟨congrArg (· + 1) hcount, hstatus, ?_⟩
        show _ ++ _ = reverseWords (_ ++ _)
        rw [hout, reverseWords_le32]

-- Reversing each word is undone by the conversion.
theorem disassembleLoop_endian (instr : Instruction) (addr : BitVec 32) (stdin : List Byte) :
    disassembleLoop false instr addr stdin =
      disassembleLoop true instr addr (reverseWords stdin) := by
  induction stdin using reverseWords.induct generalizing instr addr with
  | case1 a b c d stdin ih =>
      have hword : disassembleWord true instr addr (Lib.word d c b a) =
          disassembleWord false instr addr (Lib.word a b c d) := by
        unfold disassembleWord
        rw [if_pos rfl, bigEndian_word]
        rfl
      rw [reverseWords, disassembleLoop, disassembleLoop, hword]
      cases disassembleWord false instr addr (Lib.word a b c d) with
      | error e => rfl
      | ok result => simp only [ih]
  | case2 stdin hstop =>
      have hsame : reverseWords stdin = stdin := by
        unfold reverseWords
        split
        · exact absurd rfl (hstop _ _ _ _ _)
        · rfl
      rw [hsame]
      unfold disassembleLoop
      split
      · exact absurd rfl (hstop _ _ _ _ _)
      · rfl

-- The byte order changes neither what is accepted nor how a run ends, and it
-- permutes the bytes of each word.
theorem endianness_permutes_bytes (addr : BitVec 32) (text stream : List Byte) :
    acceptedLines true .zero addr (userInputs text.length text) =
        acceptedLines false .zero addr (userInputs text.length text) ∧
      (assemble true addr text).status = (assemble false addr text).status ∧
      (assemble true addr text).stdout = reverseWords (assemble false addr text).stdout ∧
      disassemble false addr stream = disassemble true addr (reverseWords stream) := by
  obtain ⟨hcount, hstatus, hout⟩ :=
    assembleLoop_endian (show SameRest .zero .zero from rfl) addr (userInputs text.length text)
  exact ⟨hcount, hstatus, hout, disassembleLoop_endian .zero addr stream⟩

end CSE320.Mips
