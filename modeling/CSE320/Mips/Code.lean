import CSE320.Mips.Instruction

namespace CSE320.Mips

open Lib (Byte)

-- The record that is reused for all instructions. A NULL info is none.
structure Instruction where
  value : BitVec 32
  info : Option InstrInfo
  regs : Fin 3 → Byte
  extra : BitVec 32
  args : Fin 3 → BitVec 32
deriving DecidableEq

def Instruction.zero : Instruction where
  value := 0
  info := none
  regs := fun _ => 0
  extra := 0
  args := fun _ => 0

-- Why encode or decode gives no instruction: it returns 0, or it reads through a
-- NULL pointer.
inductive Failure where
  | rejected
  | nullPointer
deriving DecidableEq, Repr

def bigEndian (num : BitVec 32) : BitVec 32 :=
  let temp1 := num <<< 24
  let temp2 := num >>> 24
  -- swap the first and last
  let num := num &&& 0x00FFFF00
  let num := num ||| temp1
  let num := num ||| temp2
  -- swap the middle 2
  let temp1 := num >>> 8
  let temp2 := num <<< 8
  let temp1 := temp1 &&& 0x0000FF00
  let temp2 := temp2 &&& 0x00FF0000
  let num := num &&& 0xFF0000FF
  let num := num ||| temp1
  num ||| temp2

def hasSpecial : Bool := (opcodeTable.take numElem).contains .special

-- The index in the specialTable, for bits 5:0 of the value.
def isSpecial (opcode : Opcode) : Option (BitVec 32) :=
  match (specialTable.take numElem).idxOf? opcode with
  | some i => if hasSpecial then some (BitVec.ofNat 32 i) else none
  | none => none

-- The index in the opcodeTable, for bits 31:26 of the value.
def isNotSpecial (opcode : Opcode) : Option (BitVec 32) :=
  ((opcodeTable.take numElem).idxOf? opcode).map fun i => BitVec.ofNat 32 i <<< 26

def isBranch : Opcode → Bool
  | .opBeq | .opBgez | .opBgezal | .opBgtz | .opBlez | .opBltz | .opBltzal | .opBne => true
  | _ => false

def findBcond : Option (BitVec 32) :=
  ((opcodeTable.take numElem).idxOf? .bcond).map fun i => BitVec.ofNat 32 i <<< 26

-- The part of the value that names the instruction. The branches that share an
-- opcode differ in bits 20:16.
def opcodeBits (opcode : Opcode) : Option (BitVec 32) :=
  match (match opcode with
    | .opBgez => findBcond.map (· ||| 0x10000)
    | .opBltzal => findBcond.map (· ||| 0x100000)
    | .opBgezal => findBcond.map (· ||| 0x110000)
    | .opBltz => findBcond
    | _ => none) with
  | some value => some value
  | none =>
    match isSpecial opcode with
    | some value => some value
    | none => isNotSpecial opcode

-- An EXTRA argument as it goes into the value.
def encodeExtra (info : InstrInfo) (ipExtra addr arg : BitVec 32) : Option (BitVec 32) :=
  if info.opcode = .opBreak then
    some ((arg <<< 12).sshiftRight 6)
  else
    match info.type with
    | .rtyp => some ((arg &&& 0x1F) <<< 6)
    | .ityp =>
      let extra := if isBranch info.opcode then (arg - (addr + 4)).sshiftRight 2 else arg
      if extra ≠ ipExtra then none else some (extra &&& 0xFFFF)
    | .jtyp =>
      if ipExtra &&& 0xF0000000 ≠ addr &&& 0xF0000000 then
        none
      else
        let pc := (addr - 4) &&& 0xF0000000
        some ((arg - pc).sshiftRight 2 &&& 0x3FFFFFF)
    | .ntyp => some arg

def encodeReg (shift : Nat) (mask arg : BitVec 32) : Option (BitVec 32) :=
  if arg.toInt > 31 ∨ arg.toInt < 0 then none else some ((arg <<< shift) &&& mask)

-- What an argument adds to the value. A source that is none must be zero.
def encodeArg (info : InstrInfo) (ipExtra addr : BitVec 32) :
    Source → BitVec 32 → Option (BitVec 32)
  | .extra, arg => encodeExtra info ipExtra addr arg
  | .rs, arg => encodeReg 21 0x3E00000 arg
  | .rt, arg => encodeReg 16 0x1F0000 arg
  | .rd, arg => encodeReg 11 0xF800 arg
  | .nsrc, arg => if arg ≠ 0 then none else some 0

def encodeInfo (info : InstrInfo) (ipExtra addr : BitVec 32) (args : Fin 3 → BitVec 32) :
    Option (BitVec 32) :=
  if info.type = .ntyp then
    none
  else do
    let value ← opcodeBits info.opcode
    let arg0 ← encodeArg info ipExtra addr (info.srcs 0) (args 0)
    let arg1 ← encodeArg info ipExtra addr (info.srcs 1) (args 1)
    let arg2 ← encodeArg info ipExtra addr (info.srcs 2) (args 2)
    return value ||| arg0 ||| arg1 ||| arg2

def encode (ip : Instruction) (addr : BitVec 32) : Except Failure Instruction :=
  match ip.info with
  | none => .error .nullPointer
  | some info =>
    match encodeInfo info ip.extra addr ip.args with
    | none => .error .rejected
    | some value => .ok { ip with value }

-- The opcode of an instruction word.
def decodeOpcode (value : BitVec 32) : Option Opcode :=
  let op := value >>> 26
  let opcode := opcodeTable.getD op.toNat .illegl
  if opcode = .special then
    let opcode := specialTable.getD (value &&& 0x3F).toNat .illegl
    if opcode = .illegl then none else some opcode
  else if opcode = .bcond then
    let op := value.sshiftRight 16 &&& 0x1F
    if op = 0 then some .opBltz
    else if op = 1 then some .opBgez
    else if op = 16 then some .opBltzal
    else if op = 17 then some .opBgezal
    else none
  else if opcode ≠ .illegl then
    some opcode
  else
    none

-- The value with all bits but the lower 16 set to the sign of these.
def signExtend (value : BitVec 32) : BitVec 32 :=
  if value.sshiftRight 15 &&& 1 ≠ 0 then value ||| 0xFFFF0000 else value &&& 0xFFFF

def decodeExtra (info : InstrInfo) (opcode : Opcode) (addr value : BitVec 32) :
    Option (BitVec 32) :=
  if opcode = .opBreak then
    some (value.sshiftRight 6 &&& 0x000FFFFF)
  else
    match info.type with
    | .rtyp => some (value.sshiftRight 6 &&& 0x1F)
    | .ityp =>
      let extra := signExtend value
      some (if isBranch info.opcode then (extra <<< 2) + (addr + 4) else extra)
    | .jtyp => some (((value &&& 0x03FFFFFF) <<< 2) + ((addr + 4) &&& 0xF0000000))
    | .ntyp => none

def decodeArg (info : InstrInfo) (opcode : Opcode) (addr value : BitVec 32) :
    Source → Option (BitVec 32)
  | .extra => decodeExtra info opcode addr value
  | .rs => some (value.sshiftRight 21 &&& 0x1F)
  | .rt => some (value.sshiftRight 16 &&& 0x1F)
  | .rd => some (value.sshiftRight 11 &&& 0x1F)
  | .nsrc => some 0

def decodeArgs (info : InstrInfo) (opcode : Opcode) (addr value : BitVec 32) :
    Option (Fin 3 → BitVec 32) := do
  let arg0 ← decodeArg info opcode addr value (info.srcs 0)
  let arg1 ← decodeArg info opcode addr value (info.srcs 1)
  let arg2 ← decodeArg info opcode addr value (info.srcs 2)
  return ![arg0, arg1, arg2]

-- The entry of the instrTable. Without one the old info stays.
def lookup (opcode : Opcode) : Option InstrInfo :=
  (instrTable.take numElem).find? (opcode = ·.opcode)

-- The field extra keeps its content unless a source is EXTRA.
def decodedExtra (info : InstrInfo) (opcode : Opcode) (addr value old : BitVec 32) : BitVec 32 :=
  if info.srcs 0 = .extra ∨ info.srcs 1 = .extra ∨ info.srcs 2 = .extra then
    (decodeExtra info opcode addr value).getD old
  else
    old

def decode (ip : Instruction) (addr : BitVec 32) : Except Failure Instruction :=
  match decodeOpcode ip.value with
  | none => .error .rejected
  | some opcode =>
    match (lookup opcode).or ip.info with
    | none => .error .nullPointer
    | some info =>
      match decodeArgs info opcode addr ip.value with
      | none => .error .rejected
      | some args => .ok { ip with
          info := some info
          regs := ![((ip.value &&& 0x03e00000).sshiftRight 21).setWidth 8,
            ((ip.value &&& 0x001f0000).sshiftRight 16).setWidth 8,
            ((ip.value &&& 0x0000f800).sshiftRight 11).setWidth 8]
          extra := decodedExtra info opcode addr ip.value ip.extra
          args }

end CSE320.Mips
