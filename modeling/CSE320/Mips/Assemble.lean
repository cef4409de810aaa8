import CSE320.Mips.Endian

namespace CSE320.Mips

open Lib (Byte ascii)

-- The operands in the record behind some lines, none of which sets all of them.
def leftover (args : Fin 3 → BitVec 32) (lines : List (List Byte)) : Fin 3 → BitVec 32 :=
  lines.foldl (fun args userInput =>
    match findFormat userInput with
    | none => args
    | some (_, scanned) => storeArgs scanned.values args) args

-- The operands that an instruction does not have are zero.
def Clean (info : InstrInfo) (args : Fin 3 → BitVec 32) : Prop :=
  ∀ j, info.srcs j = .nsrc → args j = 0

instance (info : InstrInfo) (args : Fin 3 → BitVec 32) : Decidable (Clean info args) :=
  inferInstanceAs (Decidable (∀ j, info.srcs j = .nsrc → args j = 0))

-- The operand goes into its field. A branch target is compared with the offset
-- that is made from it, and a jump stays in the region of its address.
def operandFits (info : InstrInfo) (addr : BitVec 32) (src : Source) (arg : BitVec 32) : Bool :=
  match src with
  | .nsrc => true
  | .rs | .rt | .rd => 0 ≤ arg.toInt ∧ arg.toInt ≤ 31
  | .extra =>
    match info.type with
    | .ityp => !isBranch info.opcode || (arg - (addr + 4)).sshiftRight 2 = arg
    | .jtyp => arg &&& 0xF0000000 = addr &&& 0xF0000000
    | .rtyp | .ntyp => true

-- A line that can be assembled at an address: its text, its operands and its
-- instruction pass the tests.
def acceptable (addr : BitVec 32) (userInput : List Byte) : Bool :=
  match findFormat userInput with
  | none => false
  | some (info, scanned) =>
    wellFormed info scanned.count userInput && countedArg info =
      scanned.count && info.type ≠ .ntyp &&
      (List.finRange 3).all fun j => operandFits info addr (info.srcs j) (scanned.values.getD j 0)

-- The instruction word of a line, on a record without leftovers.
def lineCode (addr : BitVec 32) (userInput : List Byte) : BitVec 32 :=
  match findFormat userInput with
  | none => 0
  | some (info, scanned) =>
    let instr := transfer { Instruction.zero with args := storeArgs scanned.values fun _ => 0 } info
    (encodeInfo info instr.extra addr instr.args).getD 0

-- What becomes of each line that is reached: the bytes that are written for it, or
-- the status the run ends with.
def lineResults (endi : Bool) (instr : Instruction) (addr : BitVec 32) :
    List (List Byte) → List (Except Status (List Byte))
  | [] => []
  | userInput :: rest =>
    match assembleLine endi instr addr userInput with
    | .error e => [.error e.status]
    | .ok (instr, bytes) => .ok bytes :: lineResults endi instr (addr + 4) rest

def Outcome.ofResults : List (Except Status (List Byte)) → Outcome
  | [] => ⟨.success, []⟩
  | .error status :: _ => ⟨status, []⟩
  | .ok bytes :: rest => (Outcome.ofResults rest).after bytes

theorem assembleLoop_eq_results (endi : Bool) (instr : Instruction) (addr : BitVec 32)
    (lines : List (List Byte)) :
    assembleLoop endi instr addr lines = .ofResults (lineResults endi instr addr lines) := by
  induction lines generalizing instr addr with
  | nil => rfl
  | cons userInput rest ih =>
      rw [assembleLoop, lineResults]
      cases assembleLine endi instr addr userInput with
      | error e => rfl
      | ok result => simp only [Outcome.ofResults, ih]

-- Two texts treat a line the same way: the same four bytes are written for it, or
-- both runs end with EXIT_FAILURE at it.
def SameTreatment (result result' : Option (Except Status (List Byte))) : Prop :=
  (∃ bytes, bytes.length = 4 ∧ result = some (.ok bytes) ∧ result' = some (.ok bytes)) ∨
    (result = some (.error .failure) ∧ result' = some (.error .failure))

-- The operands of an instruction come first, one of them at most is EXTRA, and
-- what is not NTYP has an opcode.
theorem instrTable_sources : ∀ info ∈ instrTable,
    (∀ j : Fin 3, info.srcs j = .nsrc ↔ countedArg info ≤ (j.val : Int)) ∧
      (∀ i j, info.srcs i = .extra → info.srcs j = .extra → i = j) ∧
      (info.type ≠ .ntyp → (opcodeBits info.opcode).isSome = true) ∧
      (info.opcode = .opBreak → info.type = .rtyp) := by
  decide +kernel

theorem findFormat_mem {userInput : List Byte} {info : InstrInfo} {scanned : Lib.Scan}
    (h : findFormat userInput = some (info, scanned)) : info ∈ instrTable := by
  have hmem := List.mem_of_find?_eq_some h
  obtain ⟨entry, hentry, heq⟩ := List.mem_map.mp hmem
  obtain ⟨rfl, -⟩ := Prod.mk.inj heq
  exact List.mem_of_mem_take hentry

theorem findFormat_count {userInput : List Byte} {info : InstrInfo} {scanned : Lib.Scan}
    (h : findFormat userInput = some (info, scanned)) :
    scanned.count = scanned.values.length ∨ scanned.count = -1 := by
  have hmem := List.mem_of_find?_eq_some h
  obtain ⟨entry, -, heq⟩ := List.mem_map.mp hmem
  obtain ⟨-, rfl⟩ := Prod.mk.inj heq
  exact Lib.scan_count _ _ _

-- The register and the EXTRA operands are encoded when they fit, and an operand
-- that the instruction does not have when it is zero.
theorem encodeArg_isSome {info : InstrInfo} (hinfo : info ∈ instrTable) {extra addr arg : BitVec 32}
    {src : Source} (hextra : src = .extra → extra = arg) :
    (encodeArg info extra addr src arg).isSome = true ↔
      operandFits info addr src arg = true ∧ (src = .nsrc → arg = 0) := by
  obtain ⟨-, -, -, hbreak⟩ := instrTable_sources info hinfo
  have hreg (shift : Nat) (mask : BitVec 32) :
      (encodeReg shift mask arg).isSome = true ↔ 0 ≤ arg.toInt ∧ arg.toInt ≤ 31 := by
    unfold encodeReg
    split
    · simp only [Option.isSome_none, Bool.false_eq_true, false_iff]
      omega
    · simp only [Option.isSome_some, true_iff]
      omega
  cases src with
  | nsrc => simp [encodeArg, operandFits]
  | rs => simp [encodeArg, operandFits, hreg]
  | rt => simp [encodeArg, operandFits, hreg]
  | rd => simp [encodeArg, operandFits, hreg]
  | extra =>
      obtain rfl := hextra rfl
      rw [encodeArg, encodeExtra, operandFits]
      by_cases hop : info.opcode = .opBreak
      · simp [hop, hbreak hop]
      · rw [if_neg hop]
        cases info.type with
        | ntyp => simp
        | rtyp => simp
        | ityp => cases isBranch info.opcode <;> simp
        | jtyp =>
            by_cases hpc : extra &&& 0xF0000000 = addr &&& 0xF0000000 <;> simp

-- The extra field that is set for the operands.
theorem transfer_extra {info : InstrInfo} (hinfo : info ∈ instrTable)
    (instr : Instruction) {j : Fin 3} (hj : info.srcs j = .extra) :
    (transfer instr info).extra = instr.args j := by
  obtain ⟨-, hone, -, -⟩ := instrTable_sources info hinfo
  have hfin : List.finRange 3 = [0, 1, 2] := rfl
  have hother (i : Fin 3) (hi : i ≠ j) : info.srcs i ≠ .extra := fun h => hi (hone i j h hj)
  simp only [transfer, hfin, List.foldl_cons, List.foldl_nil]
  match j with
  | 0 => rw [if_pos hj, if_neg (hother 1 (by decide)), if_neg (hother 2 (by decide))]
  | 1 => rw [if_pos hj, if_neg (hother 2 (by decide))]
  | 2 => rw [if_pos hj]

-- The parts that the word is put together from.
theorem encodeInfo_eq_some {info : InstrInfo} {extra addr value : BitVec 32}
    {args : Fin 3 → BitVec 32} :
    encodeInfo info extra addr args = some value ↔
      info.type ≠ .ntyp ∧ ∃ bits, opcodeBits info.opcode = some bits ∧ ∃ fields : Fin 3 → BitVec 32,
        (∀ j, encodeArg info extra addr (info.srcs j) (args j) = some (fields j)) ∧
          value = bits ||| fields 0 ||| fields 1 ||| fields 2 := by
  unfold encodeInfo
  split
  · rename_i htype
    simp [htype]
  · rename_i htype
    simp only [Option.bind_eq_bind, Option.bind_eq_some_iff, Option.pure_def, Option.some.injEq]
    constructor
    · rintro ⟨bits, hbits, arg0, harg0, arg1, harg1, arg2, harg2, rfl⟩
      refine ⟨htype, bits, hbits, ![arg0, arg1, arg2], fun j => ?_, rfl⟩
      match j with
      | 0 => exact harg0
      | 1 => exact harg1
      | 2 => exact harg2
    · rintro ⟨-, bits, hbits, fields, hfields, rfl⟩
      exact ⟨bits, hbits, _, hfields 0, _, hfields 1, _, hfields 2, rfl⟩

theorem encodeInfo_isSome {info : InstrInfo} (hinfo : info ∈ instrTable) {extra : BitVec 32}
    {args : Fin 3 → BitVec 32} (hextra : ∀ j, info.srcs j = .extra → extra = args j)
    (addr : BitVec 32) :
    (encodeInfo info extra addr args).isSome = true ↔
      info.type ≠ .ntyp ∧ (∀ j, operandFits info addr (info.srcs j) (args j) = true) ∧
        Clean info args := by
  obtain ⟨-, -, hbits, -⟩ := instrTable_sources info hinfo
  have harg (j : Fin 3) : (encodeArg info extra addr (info.srcs j) (args j)).isSome = true ↔
      operandFits info addr (info.srcs j) (args j) = true ∧ (info.srcs j = .nsrc → args j = 0) :=
    encodeArg_isSome hinfo (hextra j)
  rw [Option.isSome_iff_exists]
  constructor
  · rintro ⟨value, hvalue⟩
    obtain ⟨htype, bits, -, fields, hfields, -⟩ := encodeInfo_eq_some.mp hvalue
    have hfits (j : Fin 3) := (harg j).mp (by rw [hfields j]; rfl)
    exact ⟨htype, fun j => (hfits j).1, fun j => (hfits j).2⟩
  · rintro ⟨htype, hfits, hclean⟩
    obtain ⟨bits, hbits⟩ := Option.isSome_iff_exists.mp (hbits htype)
    have hsome (j : Fin 3) := Option.isSome_iff_exists.mp ((harg j).mpr ⟨hfits j, hclean j⟩)
    choose fields hfields using hsome
    exact ⟨_, encodeInfo_eq_some.mpr ⟨htype, bits, hbits, fields, hfields, rfl⟩⟩

-- Only the operands that the instruction has go into the word.
theorem encodeInfo_congr {info : InstrInfo} {extra extra' addr : BitVec 32}
    {args args' : Fin 3 → BitVec 32} (hclean : Clean info args) (hclean' : Clean info args')
    (hextra : ∀ j, info.srcs j = .extra → extra = extra')
    (hargs : ∀ j, info.srcs j ≠ .nsrc → args j = args' j) :
    encodeInfo info extra addr args = encodeInfo info extra' addr args' := by
  have harg (j : Fin 3) :
      encodeArg info extra addr (info.srcs j) (args j) =
        encodeArg info extra' addr (info.srcs j) (args' j) := by
    by_cases hj : info.srcs j = .nsrc
    · rw [hclean j hj, hclean' j hj, hj]
      rfl
    · rw [hargs j hj]
      cases hsrc : info.srcs j with
      | extra => rw [hextra j hsrc]
      | nsrc => exact absurd hsrc hj
      | rs => rfl
      | rt => rfl
      | rd => rfl
  unfold encodeInfo
  rw [harg 0, harg 1, harg 2]

-- When there are as many values as operands, the leftovers are in the other places.
theorem storeArgs_eq {info : InstrInfo} (hinfo : info ∈ instrTable) {values : List (BitVec 32)}
    (hcount : countedArg info = values.length) (args : Fin 3 → BitVec 32) (j : Fin 3) :
    storeArgs values args j = if info.srcs j = .nsrc then args j else values.getD j 0 := by
  obtain ⟨hsources, -, -, -⟩ := instrTable_sources info hinfo
  have hj := hsources j
  rw [hcount] at hj
  unfold storeArgs
  split
  · rename_i hnone
    have hle : values.length ≤ j.val := by
      have := hj.mp hnone
      omega
    rw [List.getD_eq_getElem?_getD, List.getElem?_eq_none hle]
    rfl
  · rename_i hsome
    have hlt : j.val < values.length := by
      by_contra hge
      exact hsome (hj.mpr (by omega))
    rw [List.getD_eq_getElem?_getD, List.getD_eq_getElem?_getD, List.getElem?_eq_getElem hlt]
    rfl

theorem registersInRange_of_fits {info : InstrInfo} (addr : BitVec 32) {args : Fin 3 → BitVec 32}
    (h : ∀ j, operandFits info addr (info.srcs j) (args j) = true) :
    registersInRange info args = true := by
  unfold registersInRange
  rw [List.all_eq_true]
  intro j _
  have hj := h j
  cases hsrc : info.srcs j <;> simp_all [isRegister, operandFits]

section

variable {info : InstrInfo} (hinfo : info ∈ instrTable) {values : List (BitVec 32)}
  (hcount : countedArg info = values.length)

include hinfo hcount

theorem fits_storeArgs (args : Fin 3 → BitVec 32) (addr : BitVec 32) (j : Fin 3) :
    operandFits info addr (info.srcs j) (storeArgs values args j) =
      operandFits info addr (info.srcs j) (values.getD j 0) := by
  rw [storeArgs_eq hinfo hcount]
  split
  · rename_i hnone
    rw [hnone]
    rfl
  · rfl

theorem clean_storeArgs (args : Fin 3 → BitVec 32) :
    Clean info (storeArgs values args) ↔ Clean info args := by
  refine forall_congr' fun j => imp_congr_right fun hnone => ?_
  rw [storeArgs_eq hinfo hcount, if_pos hnone]

-- The word is made when the operands of the instruction fit and the others are
-- zero, and it is the one that a record without leftovers gives.
theorem encode_transfer (instr : Instruction) (addr : BitVec 32) :
    let encoded (instr : Instruction) :=
      encodeInfo info (transfer { instr with args := storeArgs values instr.args } info).extra addr
        (storeArgs values instr.args)
    if info.type ≠ .ntyp ∧ (∀ j, operandFits info addr (info.srcs j) (values.getD j 0) = true) ∧
        Clean info instr.args then
      (encoded instr).isSome = true ∧ encoded instr = encoded .zero
    else
      encoded instr = none := by
  intro encoded
  have hextra (instr : Instruction) (j : Fin 3) (hj : info.srcs j = .extra) :
      (transfer { instr with args := storeArgs values instr.args } info).extra =
        storeArgs values instr.args j :=
    transfer_extra hinfo _ hj
  have hsome := encodeInfo_isSome hinfo (hextra instr) addr
  simp only [fits_storeArgs hinfo hcount, clean_storeArgs hinfo hcount] at hsome
  split
  · rename_i h
    refine ⟨hsome.mpr h, encodeInfo_congr ?_ ?_ ?_ ?_⟩
    · exact (clean_storeArgs hinfo hcount _).mpr h.2.2
    · exact (clean_storeArgs hinfo hcount _).mpr fun _ _ => rfl
    · intro j hj
      rw [hextra instr j hj, hextra .zero j hj, storeArgs_eq hinfo hcount,
        storeArgs_eq hinfo hcount, hj]
      rfl
    · intro j hj
      rw [storeArgs_eq hinfo hcount, storeArgs_eq hinfo hcount, if_neg hj, if_neg hj]
  · rename_i h
    exact Option.not_isSome_iff_eq_none.mp (mt hsome.mp h)

end

-- The bytes of a word in the order of the output.
def outputBytes (endi : Bool) (value : BitVec 32) : List Byte :=
  if endi then (Lib.le32 value).reverse else Lib.le32 value

theorem putBytes_output (endi : Bool) (value : BitVec 32) :
    (putBytes 4 (if endi then bigEndian value else value)).1 = outputBytes endi value := by
  obtain ⟨left, hleft⟩ := putBytes_eq (if endi then bigEndian value else value)
  rw [hleft, outputBytes]
  cases endi with
  | false => rfl
  | true => rw [if_pos rfl, if_pos rfl, bigEndian_eq, Lib.le32_swap32]

-- A line is assembled when it is acceptable and the record holds no leftovers in
-- the places of operands that it does not have. The bytes are those of its word.
theorem assembleLine_eq (endi : Bool) (instr : Instruction) (addr : BitVec 32)
    (userInput : List Byte) :
    if acceptable addr userInput = true ∧
        ∀ entry ∈ findFormat userInput, Clean entry.1 instr.args then
      ∃ next, assembleLine endi instr addr userInput =
          .ok (next, outputBytes endi (lineCode addr userInput)) ∧
        next.args = leftover instr.args [userInput]
    else
      assembleLine endi instr addr userInput = .error .rejected := by
  unfold assembleLine acceptable lineCode
  cases hfind : findFormat userInput with
  | none => simp
  | some found =>
      obtain ⟨info, scanned⟩ := found
      have hinfo := findFormat_mem hfind
      simp only [Option.mem_def, Option.some.injEq, forall_eq', Bool.and_eq_true, decide_eq_true_eq]
      by_cases hform : wellFormed info scanned.count userInput = true
      swap
      · simp [hform]
      by_cases hcount : countedArg info = scanned.count
      swap
      · simp [hcount]
      have hlen : countedArg info = scanned.values.length := by
        have hpos : 0 ≤ countedArg info := Int.natCast_nonneg _
        rcases findFormat_count hfind with h | h
        · omega
        · omega
      have hencode := encode_transfer hinfo hlen instr addr
      have hfields : (List.finRange 3).all (fun j =>
          operandFits info addr (info.srcs j) (scanned.values.getD j 0)) = true ↔
          ∀ j, operandFits info addr (info.srcs j) (scanned.values.getD j 0) = true := by
        simp
      simp only [hform, hcount, hfields, Bool.not_true, Bool.false_eq_true, if_false, true_and,
        ne_eq, not_true_eq_false, and_assoc]
      split
      · rename_i haccept
        rw [if_pos haccept] at hencode
        obtain ⟨hsome, hzero⟩ := hencode
        obtain ⟨value, hvalue⟩ := Option.isSome_iff_exists.mp hsome
        have hregs : registersInRange info (storeArgs scanned.values instr.args) = true := by
          refine registersInRange_of_fits addr fun j => ?_
          rw [fits_storeArgs hinfo hlen]
          exact haccept.2.1 j
        have hcode : encodeInfo info
            (transfer { Instruction.zero with
              args := storeArgs scanned.values fun _ => 0 } info).extra addr
            (storeArgs scanned.values fun _ => 0) = some value := hzero.symm.trans hvalue
        have hencoded : encode (transfer { instr with
            info := some info
            args := storeArgs scanned.values instr.args } info) addr =
            .ok { transfer { instr with
              args := storeArgs scanned.values instr.args } info with value } := by
          simp only [encode, transfer] at hvalue ⊢
          rw [hvalue]
        have hleft : leftover instr.args [userInput] = storeArgs scanned.values instr.args := by
          simp [leftover, hfind]
        rw [hregs, hencoded, hleft]
        refine ⟨{ transfer { instr with args := storeArgs scanned.values instr.args } info with
            value := (putBytes 4 (if endi then bigEndian value else value)).2 }, ?_, rfl⟩
        show Except.ok (_, (putBytes 4 (if endi then bigEndian value else value)).1) =
          Except.ok (_, outputBytes endi
            ((encodeInfo info _ addr (storeArgs scanned.values fun _ => 0)).getD 0))
        rw [putBytes_output, hcode]
        rfl
      · rename_i hreject
        rw [if_neg hreject] at hencode
        split
        · rfl
        · simp only [encode, transfer] at hencode ⊢
          rw [hencode]
          rfl

theorem leftover_cons (args : Fin 3 → BitVec 32) (userInput : List Byte)
    (lines : List (List Byte)) :
    leftover args (userInput :: lines) = leftover (leftover args [userInput]) lines := rfl

-- What becomes of a line depends on the line, its address and the leftovers of
-- the lines before it.
theorem lineResults_getElem (endi : Bool) (instr : Instruction) (addr : BitVec 32)
    {lines : List (List Byte)} {i : Nat} {line : List Byte} (hline : lines[i]? = some line)
    (hreach : i < (lineResults endi instr addr lines).length) :
    (lineResults endi instr addr lines)[i]? = some (
      if acceptable (addr + BitVec.ofNat 32 (4 * i)) line = true ∧
          ∀ entry ∈ findFormat line, Clean entry.1 (leftover instr.args (lines.take i)) then
        .ok (outputBytes endi (lineCode (addr + BitVec.ofNat 32 (4 * i)) line))
      else
        .error .failure) := by
  induction lines generalizing instr addr i with
  | nil => simp at hline
  | cons userInput rest ih =>
      have hstep := assembleLine_eq endi instr addr userInput
      rw [lineResults] at hreach ⊢
      cases i with
      | zero =>
          obtain rfl : userInput = line := by simpa using hline
          have haddr : addr + BitVec.ofNat 32 (4 * 0) = addr := BitVec.add_zero _
          have hnil : leftover instr.args [] = instr.args := rfl
          rw [haddr, List.take_zero, hnil]
          split at hstep
          · rename_i haccept
            obtain ⟨next, heq, -⟩ := hstep
            rw [heq, if_pos haccept]
            rfl
          · rename_i hreject
            rw [hstep, if_neg hreject]
            rfl
      | succ i =>
          have haddr : addr + 4 + BitVec.ofNat 32 (4 * i) =
              addr + BitVec.ofNat 32 (4 * (i + 1)) := by
            rw [BitVec.add_assoc, Nat.mul_add, Nat.add_comm, BitVec.ofNat_add]
            rfl
          split at hstep
          · obtain ⟨next, heq, hnext⟩ := hstep
            rw [heq] at hreach ⊢
            have hrest := ih next (addr + 4) (by simpa using hline) (by simpa using hreach)
            rw [haddr, hnext, ← leftover_cons] at hrest
            rw [List.take_succ_cons]
            exact hrest
          · rw [hstep] at hreach
            simp at hreach

theorem sameTreatment_ite {p q : Prop} [Decidable p] [Decidable q] {bytes : List Byte}
    (hlen : bytes.length = 4) :
    SameTreatment (some (if p then .ok bytes else .error .failure))
        (some (if q then .ok bytes else .error .failure)) ↔ (p ↔ q) := by
  unfold SameTreatment
  by_cases hp : p
  · by_cases hq : q
    · simp [hp, hq, hlen]
    · simp [hp, hq]
  · by_cases hq : q
    · simp [hp, hq]
    · simp [hp, hq]

-- A line that two runs reach is treated the same way in both exactly when it is
-- not acceptable at its address, or the leftovers stop it in both runs or in none.
theorem sameTreatment_iff (endi : Bool) (addr : BitVec 32) (text text' : List Byte) (i : Nat)
    (line : List Byte) (hline : (userInputs text.length text)[i]? = some line)
    (hline' : (userInputs text'.length text')[i]? = some line)
    (hreach : i < (lineResults endi .zero addr (userInputs text.length text)).length)
    (hreach' : i < (lineResults endi .zero addr (userInputs text'.length text')).length) :
    SameTreatment (lineResults endi .zero addr (userInputs text.length text))[i]?
        (lineResults endi .zero addr (userInputs text'.length text'))[i]? ↔
      (acceptable (addr + BitVec.ofNat 32 (4 * i)) line = true → ∀ entry ∈ findFormat line,
        (Clean entry.1 (leftover (fun _ => 0) ((userInputs text.length text).take i)) ↔
          Clean entry.1 (leftover (fun _ => 0) ((userInputs text'.length text').take i)))) := by
  have hlength (value : BitVec 32) : (outputBytes endi value).length = 4 := by
    cases endi <;> rfl
  have hzero : Instruction.zero.args = fun _ => 0 := rfl
  rw [lineResults_getElem endi .zero addr hline hreach,
    lineResults_getElem endi .zero addr hline' hreach', hzero, sameTreatment_ite (hlength _),
    and_congr_right_iff]
  cases findFormat line with
  | none => simp
  | some entry => simp

def textLines (lines : List String) : List Byte :=
  (lines.map fun line => ascii line ++ [10]).flatten

theorem sameTreatment_of_jumps :
    let text := textLines ["jr $1", "jr $4"]
    let text' := textLines ["mthi $2", "jr $4"]
    SameTreatment (lineResults false .zero 0x1000 (userInputs text.length text))[1]?
      (lineResults false .zero 0x1000 (userInputs text'.length text'))[1]? := by
  refine (sameTreatment_iff false 0x1000 _ _ 1 (ascii "jr $4" ++ [10]) ?_ ?_ ?_ ?_).mpr fun _ => ?_
  · decide +kernel
  · decide +kernel
  · decide +kernel
  · decide +kernel
  · decide +kernel

-- The third operand of the first line is what jr finds where it has no operand.
theorem not_sameTreatment_of_leftover :
    let text := textLines ["jr $1", "jr $4"]
    let text' := textLines ["add $1,$2,$3", "jr $4"]
    (userInputs text.length text)[1]? = some (ascii "jr $4" ++ [10]) ∧
      (userInputs text'.length text')[1]? = some (ascii "jr $4" ++ [10]) ∧
      1 < (lineResults false .zero 0x1000 (userInputs text.length text)).length ∧
      1 < (lineResults false .zero 0x1000 (userInputs text'.length text')).length ∧
      ¬SameTreatment (lineResults false .zero 0x1000 (userInputs text.length text))[1]?
        (lineResults false .zero 0x1000 (userInputs text'.length text'))[1]? := by
  intro text text'
  have hresult : (lineResults false .zero 0x1000 (userInputs text.length text))[1]? =
      some (.ok [8, 0, 128, 0]) := by
    decide +kernel
  have hresult' : (lineResults false .zero 0x1000 (userInputs text'.length text'))[1]? =
      some (.error .failure) := by
    decide +kernel
  rw [hresult, hresult']
  refine ⟨by decide +kernel, by decide +kernel, (List.getElem?_eq_some_iff.mp hresult).1,
    (List.getElem?_eq_some_iff.mp hresult').1, ?_⟩
  rintro (⟨bytes, -, -, h⟩ | ⟨h, -⟩)
  · cases h
  · cases h

end CSE320.Mips
