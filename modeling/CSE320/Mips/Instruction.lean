import CSE320.Lib.Format
import Mathlib.Algebra.GroupWithZero.Nat
import Mathlib.Data.Fin.VecNotation
import Mathlib.Data.Fintype.Pi

namespace CSE320.Mips

inductive Opcode where
  | op0 | opAdd | opAddi | opAddiu | opAddu | opAnd | opAndi | opBeq | opBgez | opBgezal | opBgtz
  | opBlez | opBltz | opBltzal | opBne | op15 | opDiv | opDivu | opJ | opJal | opJalr | opJr | opLb
  | opLbu | opLh | opLhu | opLui | opLw | opLwl | opLwr | op30 | opMfhi | opMflo | op33 | opMthi
  | opMtlo | opMult | opMultu | opNor | opOr | opOri | opRfe | opSb | opSh | opSll | opSllv | opSlt
  | opSlti | opSltiu | opSltu | opSra | opSrav | opSrl | opSrlv | opSub | opSubu | opSw | opSwl
  | opSwr | opXor | opXori | opSyscall | opBreak | opUnimp | special | bcond | illegl
deriving DecidableEq, Repr

-- An instruction type: none, immediate operand, jump or register.
inductive InstrType where
  | ntyp
  | ityp
  | jtyp
  | rtyp
deriving DecidableEq, Repr

-- Where an argument comes from: nowhere, one of the register fields, or another
-- part of the instruction word.
inductive Source where
  | nsrc
  | rs
  | rt
  | rd
  | extra
deriving DecidableEq, Repr

-- The operands of an instruction are numbered from 0.
instance neZero_operands : NeZero 3 := ⟨by decide⟩

structure InstrInfo where
  opcode : Opcode
  type : InstrType
  srcs : Fin 3 → Source
  format : String
deriving DecidableEq

open Opcode InstrType Source

-- Size of the opcodeTable and the specialTable.
def numElem : Nat := 64

-- Bits 31:26 of the instruction word.
def opcodeTable : List Opcode :=
  [special, bcond, opJ, opJal, opBeq, opBne, opBlez, opBgtz,
   opAddi, opAddiu, opSlti, opSltiu, opAndi, opOri, opXori, opLui,
   opUnimp, opUnimp, opUnimp, opUnimp, illegl, illegl, illegl, illegl,
   illegl, illegl, illegl, illegl, illegl, illegl, illegl, illegl,
   opLb, opLh, opLwl, opLw, opLbu, opLhu, opLwr, illegl,
   opSb, opSh, opSwl, opSw, illegl, illegl, opSwr, illegl,
   opUnimp, opUnimp, opUnimp, opUnimp, illegl, illegl, illegl, illegl,
   opUnimp, opUnimp, opUnimp, opUnimp, illegl, illegl, illegl, illegl]

-- Bits 5:0 of the special instructions.
def specialTable : List Opcode :=
  [opSll, illegl, opSrl, opSra, opSllv, illegl, opSrlv, opSrav,
   opJr, opJalr, illegl, illegl, opSyscall, opBreak, illegl, illegl,
   opMfhi, opMthi, opMflo, opMtlo, illegl, illegl, illegl, illegl,
   opMult, opMultu, opDiv, opDivu, illegl, illegl, illegl, illegl,
   opAdd, opAddu, opSub, opSubu, opAnd, opOr, opXor, opNor,
   illegl, illegl, opSlt, opSltu, illegl, illegl, illegl, illegl,
   illegl, illegl, illegl, illegl, illegl, illegl, illegl, illegl,
   illegl, illegl, illegl, illegl, illegl, illegl, illegl, illegl]

def instrTable : List InstrInfo :=
  [⟨illegl, ntyp, ![nsrc, nsrc, nsrc], "ILLEGAL"⟩,
   ⟨opAdd, rtyp, ![rd, rs, rt], "add $%d,$%d,$%d"⟩,
   ⟨opAddi, ityp, ![rt, rs, extra], "addi $%d,$%d,%d"⟩,
   ⟨opAddiu, ityp, ![rt, rs, extra], "addiu $%d,$%d,%d"⟩,
   ⟨opAddu, rtyp, ![rd, rs, rt], "addu $%d,$%d,$%d"⟩,
   ⟨opAnd, rtyp, ![rd, rs, rt], "and $%d,$%d,$%d"⟩,
   ⟨opAndi, ityp, ![rt, rs, extra], "andi $%d,$%d,0x%x"⟩,
   ⟨opBeq, ityp, ![rs, rt, extra], "beq $%d,$%d,%d"⟩,
   ⟨opBgez, ityp, ![rs, extra, nsrc], "bgez $%d,%d"⟩,
   ⟨opBgezal, ityp, ![rs, extra, nsrc], "bgezal $%d,%d"⟩,
   ⟨opBgtz, ityp, ![rs, extra, nsrc], "bgtz $%d,%d"⟩,
   ⟨opBlez, ityp, ![rs, extra, nsrc], "blez $%d,%d"⟩,
   ⟨opBltz, ityp, ![rs, extra, nsrc], "bltz $%d,%d"⟩,
   ⟨opBltzal, ityp, ![rs, extra, nsrc], "bltzal $%d,%d"⟩,
   ⟨opBne, ityp, ![rs, rt, extra], "bne $%d,$%d,%d"⟩,
   ⟨illegl, ntyp, ![nsrc, nsrc, nsrc], "ILLEGAL"⟩,
   ⟨opDiv, rtyp, ![rs, rt, nsrc], "div $%d,$%d"⟩,
   ⟨opDivu, rtyp, ![rs, rt, nsrc], "divu $%d,$%d"⟩,
   ⟨opJ, jtyp, ![extra, nsrc, nsrc], "j 0x%x"⟩,
   ⟨opJal, jtyp, ![extra, nsrc, nsrc], "jal 0x%x"⟩,
   ⟨opJalr, rtyp, ![rd, rs, nsrc], "jalr $%d,$%d"⟩,
   ⟨opJr, rtyp, ![rs, nsrc, nsrc], "jr $%d"⟩,
   ⟨opLb, ityp, ![rt, extra, rs], "lb $%d,%d($%d)"⟩,
   ⟨opLbu, ityp, ![rt, extra, rs], "lbu $%d,%d($%d)"⟩,
   ⟨opLh, ityp, ![rt, extra, rs], "lh $%d,%d($%d)"⟩,
   ⟨opLhu, ityp, ![rt, extra, rs], "lhu $%d,%d($%d)"⟩,
   ⟨opLui, ityp, ![rt, extra, nsrc], "lui $%d,0x%x"⟩,
   ⟨opLw, ityp, ![rt, extra, rs], "lw $%d,%d($%d)"⟩,
   ⟨opLwl, ityp, ![rt, extra, rs], "lwl $%d,%d($%d)"⟩,
   ⟨opLwr, ityp, ![rt, extra, rs], "lwr $%d,%d($%d)"⟩,
   ⟨illegl, ntyp, ![nsrc, nsrc, nsrc], "ILLEGAL"⟩,
   ⟨opMfhi, rtyp, ![rd, nsrc, nsrc], "mfhi $%d"⟩,
   ⟨opMflo, rtyp, ![rd, nsrc, nsrc], "mflo $%d"⟩,
   ⟨illegl, ntyp, ![nsrc, nsrc, nsrc], "ILLEGAL"⟩,
   ⟨opMthi, rtyp, ![rs, nsrc, nsrc], "mthi $%d"⟩,
   ⟨opMtlo, rtyp, ![rs, nsrc, nsrc], "mtlo $%d"⟩,
   ⟨opMult, rtyp, ![rs, rt, nsrc], "mult $%d,$%d"⟩,
   ⟨opMultu, rtyp, ![rs, rt, nsrc], "multu $%d,$%d"⟩,
   ⟨opNor, rtyp, ![rd, rs, rt], "nor $%d,$%d,$%d"⟩,
   ⟨opOr, rtyp, ![rd, rs, rt], "or $%d,$%d,$%d"⟩,
   ⟨opOri, ityp, ![rt, rs, extra], "ori $%d,$%d,0x%x"⟩,
   ⟨opRfe, ntyp, ![nsrc, nsrc, nsrc], "rfe"⟩,
   ⟨opSb, ityp, ![rt, extra, rs], "sb $%d,%d($%d)"⟩,
   ⟨opSh, ityp, ![rt, extra, rs], "sh $%d,%d($%d)"⟩,
   ⟨opSll, rtyp, ![rd, rt, extra], "sll $%d,$%d,%d"⟩,
   ⟨opSllv, rtyp, ![rd, rt, rs], "sllv $%d,$%d,$%d"⟩,
   ⟨opSlt, rtyp, ![rd, rs, rt], "slt $%d,$%d,$%d"⟩,
   ⟨opSlti, ityp, ![rt, rs, extra], "slti $%d,$%d,%d"⟩,
   ⟨opSltiu, ityp, ![rt, rs, extra], "sltiu $%d,$%d,%d"⟩,
   ⟨opSltu, rtyp, ![rd, rs, rt], "sltu $%d,$%d,$%d"⟩,
   ⟨opSra, rtyp, ![rd, rt, extra], "sra $%d,$%d,%d"⟩,
   ⟨opSrav, rtyp, ![rd, rt, rs], "srav $%d,$%d,$%d"⟩,
   ⟨opSrl, rtyp, ![rd, rt, extra], "srl $%d,$%d,%d"⟩,
   ⟨opSrlv, rtyp, ![rd, rt, rs], "srlv $%d,$%d,$%d"⟩,
   ⟨opSub, rtyp, ![rd, rs, rt], "sub $%d,$%d,$%d"⟩,
   ⟨opSubu, rtyp, ![rd, rs, rt], "subu $%d,$%d,$%d"⟩,
   ⟨opSw, ityp, ![rt, extra, rs], "sw $%d,%d($%d)"⟩,
   ⟨opSwl, ityp, ![rt, extra, rs], "swl $%d,%d($%d)"⟩,
   ⟨opSwr, ityp, ![rt, extra, rs], "swr $%d,%d($%d)"⟩,
   ⟨opXor, rtyp, ![rd, rs, rt], "xor $%d,$%d,$%d"⟩,
   ⟨opXori, ityp, ![rt, rs, extra], "xori $%d,$%d,0x%x"⟩,
   ⟨opSyscall, rtyp, ![nsrc, nsrc, nsrc], "syscall"⟩,
   ⟨opBreak, rtyp, ![extra, nsrc, nsrc], "break 0x%x"⟩,
   ⟨opUnimp, ntyp, ![nsrc, nsrc, nsrc], "Unimplemented"⟩]

end CSE320.Mips
