import CSE320.Mips.Assemble
import CSE320.Mips.Disassemble

namespace CSE320.Mips

-- The bits of the word that an operand goes to.
def fieldMask (info : InstrInfo) : Source → BitVec 32
  | .nsrc => 0
  | .rs => 0x3E00000
  | .rt => 0x1F0000
  | .rd => 0xF800
  | .extra =>
    if info.opcode = .opBreak then 0x3FFFFC0
    else
      match info.type with
      | .rtyp => 0x7C0
      | .ityp => 0xFFFF
      | .jtyp => 0x3FFFFFF
      | .ntyp => 0

-- The bits of the word that name the instruction.
def opcodeMask (bits : BitVec 32) : BitVec 32 :=
  match opcodeTable.getD (bits >>> 26).toNat .illegl with
  | .special => 0xFC00003F
  | .bcond => 0xFC1F0000
  | _ => 0xFC000000

-- The upper four bits of an address, which a jump does not change.
def region (addr : BitVec 32) : BitVec 32 := addr &&& 0xF0000000

-- An operand that has a place in the word of an instruction at an address. An
-- immediate operand may be meant with or without a sign.
def Representable (info : InstrInfo) (addr : BitVec 32) (src : Source) (arg : BitVec 32) : Prop :=
  match src with
  | .nsrc => True
  | .rs | .rt | .rd => arg.toNat < 32
  | .extra =>
    if info.opcode = .opBreak then arg.toNat < 2 ^ 20
    else
      match info.type with
      | .rtyp => arg.toNat < 32
      | .ityp =>
        if isBranch info.opcode then ∃ offset : BitVec 16, arg =
          offset.signExtend 32 <<< 2 + (addr + 4)
        else -2 ^ 15 ≤ arg.toInt ∧ arg.toInt < 2 ^ 16
      | .jtyp => arg.toNat % 4 = 0 ∧ (region arg = region addr ∨ region arg = region (addr + 4))
      | .ntyp => False

-- The operands that come back: a branch target that is equal to its own offset, an
-- immediate operand below 2^15, a break code below 2^19, and a jump that is not in
-- the last word of its region.
def Survives (info : InstrInfo) (addr : BitVec 32) (src : Source) (arg : BitVec 32) : Prop :=
  match src with
  | .nsrc | .rs | .rt | .rd => True
  | .extra =>
    if info.opcode = .opBreak then arg.toNat < 2 ^ 19
    else
      match info.type with
      | .rtyp | .ntyp => True
      | .ityp =>
        if isBranch info.opcode then (arg - (addr + 4)).sshiftRight 2 = arg else arg.toInt < 2 ^ 15
      | .jtyp => region addr = region (addr + 4)

-- The operands that come back from the fields of a word.
def Kept (info : InstrInfo) (addr : BitVec 32) (src : Source) (arg : BitVec 32) : Prop :=
  match src with
  | .nsrc | .rs | .rt | .rd => True
  | .extra =>
    if info.opcode = .opBreak then arg.toNat < 2 ^ 19
    else
      match info.type with
      | .rtyp => arg.toNat < 32
      | .ityp =>
        (-2 ^ 15 ≤ arg.toInt ∧ arg.toInt < 2 ^ 15) ∧
          (isBranch info.opcode = true → (arg - (addr + 4)).toNat % 4 = 0)
      | .jtyp => arg.toNat % 4 = 0 ∧ region addr = region (addr + 4)
      | .ntyp => True

-- The bits that name an instruction are outside its fields and lead back to it.
def namesInstruction (info : InstrInfo) (bits : BitVec 32) : Prop :=
  (∀ j, bits &&& fieldMask info (info.srcs j) = 0) ∧
    (∀ j, fieldMask info (info.srcs j) &&& opcodeMask bits = 0) ∧ bits &&& opcodeMask bits = bits ∧
    decodeOpcode bits = some info.opcode

instance (info : InstrInfo) (bits : BitVec 32) : Decidable (namesInstruction info bits) :=
  inferInstanceAs (Decidable (_ ∧ _ ∧ _ ∧ _))

-- The fields of an instruction do not overlap, and its opcode leads to it.
theorem instrTable_fields : ∀ info ∈ instrTable,
    (∀ i j, i ≠ j → fieldMask info (info.srcs i) &&& fieldMask info (info.srcs j) = 0) ∧
      (info.type ≠ .ntyp → (opcodeBits info.opcode).all (namesInstruction info ·) = true ∧
        lookup info.opcode = some info) := by
  decide +kernel

theorem fieldMask_disjoint : ∀ info ∈ instrTable, ∀ i j, i ≠ j →
    fieldMask info (info.srcs i) &&& fieldMask info (info.srcs j) = 0 :=
  fun info hinfo => (instrTable_fields info hinfo).1

theorem opcodeBits_spec : ∀ info ∈ instrTable, info.type ≠ .ntyp →
    (opcodeBits info.opcode).all (namesInstruction info ·) = true :=
  fun info hinfo htype => ((instrTable_fields info hinfo).2 htype).1

theorem lookup_opcode : ∀ info ∈ instrTable, info.type ≠ .ntyp → lookup info.opcode = some info :=
  fun info hinfo htype => ((instrTable_fields info hinfo).2 htype).2

section

variable {w : Nat} {bits mask : BitVec w} {fields masks : Fin 3 → BitVec w}

theorem and_of_disjoint {x m k : BitVec w} (hx : x &&& k = x) (hk : k &&& m = 0#w) :
    x &&& m = 0#w := by
  rw [← hx, BitVec.and_assoc, hk, BitVec.and_zero]

-- A word is put together from parts that do not overlap.
theorem and_mask_bits (hbits : bits &&& mask = bits)
    (hfields : ∀ j, fields j &&& masks j = fields j) (hdisjoint : ∀ j, masks j &&& mask = 0#w) :
    (bits ||| fields 0 ||| fields 1 ||| fields 2) &&& mask = bits := by
  simp only [BitVec.and_or_distrib_right, hbits, and_of_disjoint (hfields _) (hdisjoint _),
    BitVec.or_zero]

theorem and_mask_field (hbits : ∀ j, bits &&& masks j = 0#w)
    (hfields : ∀ j, fields j &&& masks j = fields j)
    (hdisjoint : ∀ i j, i ≠ j → masks i &&& masks j = 0#w) (j : Fin 3) :
    (bits ||| fields 0 ||| fields 1 ||| fields 2) &&& masks j = fields j := by
  have hother (i : Fin 3) (hi : i ≠ j) : fields i &&& masks j = 0#w :=
    and_of_disjoint (hfields i) (hdisjoint i j hi)
  simp only [BitVec.and_or_distrib_right, hbits]
  match j with
  | 0 => simp [hfields 0, hother 1 (by decide), hother 2 (by decide)]
  | 1 => simp [hfields 1, hother 0 (by decide), hother 2 (by decide)]
  | 2 => simp [hfields 2, hother 0 (by decide), hother 1 (by decide)]

end

-- Words with the same bits that name the instruction have the same opcode fields.
theorem opcodeFields_of_bits {value bits : BitVec 32} (h : value &&& opcodeMask bits = bits) :
    value >>> 26 = bits >>> 26 ∧
      (opcodeTable.getD (bits >>> 26).toNat .illegl = .special → value &&& 0x3F = bits &&& 0x3F) ∧
      (opcodeTable.getD (bits >>> 26).toNat .illegl = .bcond →
        value.sshiftRight 16 &&& 0x1F = bits.sshiftRight 16 &&& 0x1F) := by
  have hsame (m : BitVec 32) (hm : opcodeMask bits &&& m = m) : value &&& m = bits &&& m := by
    calc value &&& m = value &&& (opcodeMask bits &&& m) := by rw [hm]
      _ = value &&& opcodeMask bits &&& m := (BitVec.and_assoc ..).symm
      _ = bits &&& m := by rw [h]
  refine ⟨?_, fun hspecial => ?_, fun hbcond => ?_⟩
  · have hshift (x : BitVec 32) : x >>> 26 = (x &&& 0xFC000000) >>> 26 := by
      ext i hi
      interval_cases i <;> simp
    rw [hshift value, hshift bits, hsame]
    unfold opcodeMask
    split <;> rfl
  · refine hsame _ ?_
    rw [opcodeMask, hspecial]
    rfl
  · have hshift (x : BitVec 32) : x.sshiftRight 16 &&& 0x1F =
        (x &&& 0x1F0000).sshiftRight 16 &&& 0x1F := by
      ext i hi
      interval_cases i <;> simp [BitVec.getElem_sshiftRight]
    have hmid : value &&& 0x1F0000 = bits &&& 0x1F0000 := by
      refine hsame _ ?_
      rw [opcodeMask, hbcond]
      rfl
    rw [hshift value, hshift bits, hmid]

-- The opcode depends on the bits that name the instruction only.
theorem decodeOpcode_of_bits {value bits : BitVec 32} (h : value &&& opcodeMask bits = bits) :
    decodeOpcode value = decodeOpcode bits := by
  obtain ⟨htop, hlow, hmid⟩ := opcodeFields_of_bits h
  unfold decodeOpcode
  simp only [htop]
  by_cases hspecial : opcodeTable.getD (bits >>> 26).toNat .illegl = .special
  · rw [hlow hspecial, if_pos hspecial, if_pos hspecial]
  · by_cases hbcond : opcodeTable.getD (bits >>> 26).toNat .illegl = .bcond
    · rw [hmid hbcond, if_neg hspecial, if_neg hspecial]
    · rw [if_neg hspecial, if_neg hspecial, if_neg hbcond, if_neg hbcond]

-- The lower 16 bits with their sign.
theorem signExtend_eq (value : BitVec 32) :
    signExtend value = (value.setWidth 16).signExtend 32 := by
  have hbit : value.sshiftRight 15 &&& 1 = if value.getLsbD 15 then 1 else 0 := by
    ext i hi
    interval_cases i <;> cases h : value.getLsbD 15 <;> simp_all [BitVec.getElem_sshiftRight]
  unfold signExtend
  rw [hbit]
  cases h : value.getLsbD 15 with
  | true =>
      ext i hi
      interval_cases i <;> simp_all [BitVec.getElem_signExtend, BitVec.msb_eq_getLsbD_last]
  | false =>
      ext i hi
      interval_cases i <;> simp_all [BitVec.getElem_signExtend, BitVec.msb_eq_getLsbD_last]

-- An operand is read from its field only.
theorem decodeArg_field {info : InstrInfo} (addr value : BitVec 32) (src : Source) :
    decodeArg info info.opcode addr value src =
      decodeArg info info.opcode addr (value &&& fieldMask info src) src := by
  cases src with
  | nsrc => rfl
  | rs =>
      simp only [decodeArg, fieldMask, Option.some.injEq]
      ext i hi
      interval_cases i <;> simp [BitVec.getElem_sshiftRight]
  | rt =>
      simp only [decodeArg, fieldMask, Option.some.injEq]
      ext i hi
      interval_cases i <;> simp [BitVec.getElem_sshiftRight]
  | rd =>
      simp only [decodeArg, fieldMask, Option.some.injEq]
      ext i hi
      interval_cases i <;> simp [BitVec.getElem_sshiftRight]
  | extra =>
      simp only [decodeArg, decodeExtra, fieldMask]
      by_cases hbreak : info.opcode = .opBreak
      · simp only [hbreak, if_true, Option.some.injEq]
        ext i hi
        interval_cases i <;> simp [BitVec.getElem_sshiftRight]
      · simp only [hbreak, if_false]
        cases info.type with
        | ntyp => rfl
        | rtyp =>
            simp only [Option.some.injEq]
            ext i hi
            interval_cases i <;> simp [BitVec.getElem_sshiftRight]
        | ityp =>
            have hlow : signExtend value = signExtend (value &&& 0xFFFF) := by
              rw [signExtend_eq, signExtend_eq]
              congr 1
              ext i hi
              interval_cases i <;> simp
            simp only [hlow]
        | jtyp =>
            simp only [Option.some.injEq]
            congr 2
            rw [BitVec.and_assoc, BitVec.and_self]

theorem and_eq_self_iff {arg : BitVec 32} {n : Nat} (hn : n ≤ 32) :
    arg &&& BitVec.ofNat 32 (2 ^ n - 1) = arg ↔ arg.toNat < 2 ^ n := by
  have hle : 2 ^ n ≤ 2 ^ 32 := Nat.pow_le_pow_right (by decide) hn
  have hpos : 0 < 2 ^ n := Nat.pow_pos (by decide)
  rw [← BitVec.toNat_inj, BitVec.toNat_and, BitVec.toNat_ofNat, Nat.mod_eq_of_lt (by omega),
    Nat.and_two_pow_sub_one_eq_mod]
  constructor
  · intro h
    rw [← h]
    exact Nat.mod_lt _ hpos
  · exact Nat.mod_eq_of_lt

-- A register operand in its field.
theorem register_field (arg : BitVec 32) :
    (arg <<< 21 &&& 0x3E00000).sshiftRight 21 &&& 0x1F = arg &&& 0x1F ∧
      (arg <<< 16 &&& 0x1F0000).sshiftRight 16 &&& 0x1F = arg &&& 0x1F ∧
      (arg <<< 11 &&& 0xF800).sshiftRight 11 &&& 0x1F = arg &&& 0x1F ∧
      ((arg &&& 0x1F) <<< 6).sshiftRight 6 &&& 0x1F = arg &&& 0x1F := by
  refine ⟨?_, ?_, ?_, ?_⟩
  all_goals
    ext i hi
    interval_cases i <;> simp [BitVec.getElem_sshiftRight]

theorem break_field (arg : BitVec 32) :
    ((arg <<< 12).sshiftRight 6).sshiftRight 6 &&& 0x000FFFFF = arg &&& 0xFFFFF := by
  ext i hi
  interval_cases i <;> simp [BitVec.getElem_sshiftRight]

-- The sign of a break code reaches the bits that name the instruction.
theorem break_top (arg : BitVec 32) :
    ((arg <<< 12).sshiftRight 6) >>> 26 = if arg.getLsbD 19 then 0x3F else 0 := by
  cases h : arg.getLsbD 19
  all_goals
    ext i hi
    interval_cases i <;> simp_all [BitVec.getElem_sshiftRight, BitVec.getMsbD]

-- An operand of 16 bits with its sign.
theorem immediate_iff (arg : BitVec 32) :
    signExtend (arg &&& 0xFFFF) = arg ↔ -2 ^ 15 ≤ arg.toInt ∧ arg.toInt < 2 ^ 15 := by
  have hlow : (arg &&& 0xFFFF).setWidth 16 = arg.setWidth 16 := by
    ext i hi
    interval_cases i <;> simp
  rw [signExtend_eq, hlow, ← BitVec.toInt_inj, BitVec.toInt_signExtend_of_le (by decide),
    BitVec.toInt_setWidth]
  rw [BitVec.toInt_eq_toNat_cond]
  rw [Int.bmod_def]
  have hlt := arg.isLt
  split <;> split <;> omega

theorem branch_field (offset : BitVec 16) :
    (offset.signExtend 32 <<< 2).sshiftRight 2 = offset.signExtend 32 ∧
      signExtend (offset.signExtend 32 &&& 0xFFFF) = offset.signExtend 32 := by
  constructor
  · ext i hi
    interval_cases i <;> simp [BitVec.getElem_signExtend, BitVec.getElem_sshiftRight,
      BitVec.msb_eq_getLsbD_last]
  · rw [signExtend_eq]
    congr 1
    ext i hi
    interval_cases i <;> simp [BitVec.getElem_signExtend]

theorem shift_back {d : BitVec 32} : d.sshiftRight 2 <<< 2 = d ↔ d.toNat % 4 = 0 := by
  have hbits : d.sshiftRight 2 <<< 2 = (d >>> 2) <<< 2 := by
    ext i hi
    interval_cases i <;> simp [BitVec.getElem_sshiftRight]
  have hlt := d.isLt
  rw [hbits, ← BitVec.toNat_inj, BitVec.toNat_shiftLeft, BitVec.toNat_ushiftRight, Nat.shiftLeft_eq,
    Nat.shiftRight_eq_div_pow]
  omega

theorem branch_iff {arg pc : BitVec 32} (h : (arg - pc).sshiftRight 2 = arg) :
    signExtend (arg &&& 0xFFFF) <<< 2 + pc = arg ↔
      (-2 ^ 15 ≤ arg.toInt ∧ arg.toInt < 2 ^ 15) ∧ (arg - pc).toNat % 4 = 0 := by
  rw [← immediate_iff, ← shift_back, h, ← BitVec.eq_sub_iff_add_eq]
  constructor
  · intro heq
    have hshift : signExtend (arg &&& 0xFFFF) = arg := by
      rw [signExtend_eq] at heq ⊢
      rw [← (branch_field _).1, heq, h]
    exact ⟨hshift, by rw [hshift] at heq; exact heq⟩
  · rintro ⟨hself, hback⟩
    rw [hself, hback]

theorem region_toNat (x : BitVec 32) : (region x).toNat = x.toNat / 2 ^ 28 * 2 ^ 28 := by
  have hshift : region x = (x >>> 28) <<< 28 := by
    unfold region
    ext i hi
    interval_cases i <;> simp
  have hlt := x.isLt
  rw [hshift, BitVec.toNat_shiftLeft, BitVec.toNat_ushiftRight, Nat.shiftLeft_eq,
    Nat.shiftRight_eq_div_pow]
  omega

theorem jump_iff {arg addr : BitVec 32} :
    (((arg - region (addr - 4)).sshiftRight 2 &&& 0x3FFFFFF) &&& 0x03FFFFFF) <<< 2 +
      region (addr + 4) = arg ↔
      arg.toNat % 4 = 0 ∧ region arg = region (addr + 4) := by
  have hfield (x : BitVec 32) : ((x.sshiftRight 2 &&& 0x3FFFFFF) &&& 0x03FFFFFF) <<< 2 =
      (x >>> 2) <<< 6 >>> 4 := by
    ext i hi
    interval_cases i <;> simp [BitVec.getElem_sshiftRight]
  have hvalue (x : BitVec 32) : ((x >>> 2) <<< 6 >>> 4).toNat = x.toNat % 2 ^ 28 / 4 * 4 := by
    rw [BitVec.toNat_ushiftRight, BitVec.toNat_shiftLeft, BitVec.toNat_ushiftRight,
      Nat.shiftLeft_eq, Nat.shiftRight_eq_div_pow, Nat.shiftRight_eq_div_pow]
    omega
  have hpc := region_toNat (addr - 4)
  have hnext := region_toNat (addr + 4)
  have harg := region_toNat arg
  have hlt := arg.isLt
  have hlt' := (addr + 4).isLt
  have hlt'' := (addr - 4).isLt
  rw [hfield, ← BitVec.toNat_inj, ← BitVec.toNat_inj, BitVec.toNat_add, hvalue, BitVec.toNat_sub,
    harg, hnext, hpc]
  omega

theorem encodeReg_eq_some {shift : Nat} {mask arg field : BitVec 32}
    (h : encodeReg shift mask arg = some field) :
    arg.toNat < 32 ∧ field = arg <<< shift &&& mask := by
  unfold encodeReg at h
  split at h
  · cases h
  · rename_i hrange
    refine ⟨?_, (Option.some.inj h).symm⟩
    rw [BitVec.toInt_eq_toNat_cond] at hrange
    split at hrange <;> omega

-- A field holds its operand only. The exception is a break code with bit 19 set.
theorem encodeArg_mask {info : InstrInfo} {extra addr arg field : BitVec 32} {src : Source}
    (htype : info.type ≠ .ntyp) (hfield : encodeArg info extra addr src arg = some field)
    (hbreak : info.opcode = .opBreak → src = .extra → arg.getLsbD 19 = false) :
    field &&& fieldMask info src = field := by
  cases src with
  | nsrc =>
      simp only [encodeArg, ne_eq, ite_not] at hfield
      split at hfield
      · cases hfield
        exact BitVec.and_self
      · cases hfield
  | rs =>
      obtain ⟨-, rfl⟩ := encodeReg_eq_some hfield
      rw [fieldMask, BitVec.and_assoc, BitVec.and_self]
  | rt =>
      obtain ⟨-, rfl⟩ := encodeReg_eq_some hfield
      rw [fieldMask, BitVec.and_assoc, BitVec.and_self]
  | rd =>
      obtain ⟨-, rfl⟩ := encodeReg_eq_some hfield
      rw [fieldMask, BitVec.and_assoc, BitVec.and_self]
  | extra =>
      simp only [encodeArg, encodeExtra] at hfield
      simp only [fieldMask]
      by_cases hop : info.opcode = .opBreak
      · simp only [hop, if_true, Option.some.injEq] at hfield ⊢
        subst hfield
        have hbit : arg[19] = false := by
          rw [← BitVec.getLsbD_eq_getElem]
          exact hbreak hop rfl
        ext i hi
        interval_cases i <;> simp [BitVec.getElem_sshiftRight, BitVec.getMsbD, hbit]
      · simp only [hop, if_false] at hfield ⊢
        cases hinfo : info.type with
        | ntyp => exact absurd hinfo htype
        | rtyp =>
            simp only [hinfo, Option.some.injEq] at hfield ⊢
            subst hfield
            ext i hi
            interval_cases i <;> simp
        | ityp =>
            simp only [hinfo, ne_eq, ite_not] at hfield ⊢
            generalize (if isBranch info.opcode = true then (arg - (addr + 4)).sshiftRight 2
              else arg) = x at hfield
            split at hfield
            · cases hfield
              rw [BitVec.and_assoc, BitVec.and_self]
            · cases hfield
        | jtyp =>
            simp only [hinfo, ne_eq, ite_not] at hfield ⊢
            split at hfield
            · cases hfield
              rw [BitVec.and_assoc, BitVec.and_self]
            · cases hfield

-- What the operands come back as.
theorem decodeArg_encodeArg {info : InstrInfo} {addr arg field : BitVec 32} {src : Source}
    (htype : info.type ≠ .ntyp) (hfield : encodeArg info arg addr src arg = some field)
    (hbreak : info.opcode = .opBreak → src = .extra → arg.getLsbD 19 = false) :
    decodeArg info info.opcode addr field src = some arg ↔ Kept info addr src arg := by
  have hreg : arg &&& 0x1F = arg ↔ arg.toNat < 32 := and_eq_self_iff (n := 5) (by decide)
  obtain ⟨hrs, hrt, hrd, hshift⟩ := register_field arg
  cases src with
  | nsrc =>
      simp only [encodeArg, ne_eq, ite_not] at hfield
      split at hfield
      · rename_i harg
        exact iff_of_true (congrArg some harg.symm) trivial
      · cases hfield
  | rs =>
      obtain ⟨hlt, rfl⟩ := encodeReg_eq_some hfield
      exact iff_of_true (congrArg some (hrs.trans (hreg.mpr hlt))) trivial
  | rt =>
      obtain ⟨hlt, rfl⟩ := encodeReg_eq_some hfield
      exact iff_of_true (congrArg some (hrt.trans (hreg.mpr hlt))) trivial
  | rd =>
      obtain ⟨hlt, rfl⟩ := encodeReg_eq_some hfield
      exact iff_of_true (congrArg some (hrd.trans (hreg.mpr hlt))) trivial
  | extra =>
      simp only [encodeArg, encodeExtra] at hfield
      simp only [decodeArg, decodeExtra, Kept]
      by_cases hop : info.opcode = .opBreak
      · simp only [hop, if_true, Option.some.injEq] at hfield ⊢
        subst hfield
        have hbit := hbreak hop rfl
        have hcode : arg &&& 0xFFFFF = arg ↔ arg.toNat < 2 ^ 20 :=
          and_eq_self_iff (n := 20) (by decide)
        rw [break_field, hcode]
        rw [BitVec.getLsbD, Nat.testBit_eq_decide_div_mod_eq, decide_eq_false_iff_not] at hbit
        omega
      · simp only [hop, if_false] at hfield ⊢
        cases hinfo : info.type with
        | ntyp => exact absurd hinfo htype
        | rtyp =>
            simp only [hinfo, Option.some.injEq] at hfield ⊢
            rw [← hfield, hshift, hreg]
        | ityp =>
            simp only [hinfo, ne_eq, ite_not] at hfield ⊢
            cases hbranch : isBranch info.opcode with
            | false =>
                simp only [hbranch, Bool.false_eq_true, if_false, if_true, Option.some.injEq,
                  false_implies, and_true] at hfield ⊢
                rw [← hfield, immediate_iff]
            | true =>
                simp only [hbranch, if_true, true_implies] at hfield ⊢
                split at hfield
                · rename_i hequal
                  rw [← Option.some.inj hfield, hequal, Option.some.injEq, branch_iff hequal]
                · cases hfield
        | jtyp =>
            simp only [hinfo, ne_eq, ite_not] at hfield ⊢
            split at hfield
            · rename_i hregion
              have hregion : region arg = region addr := hregion
              rw [← Option.some.inj hfield, Option.some.injEq]
              refine Iff.trans jump_iff ?_
              rw [hregion]
            · cases hfield

-- Among the operands that have a place in the word.
theorem kept_iff_survives {info : InstrInfo} {addr arg field : BitVec 32} {src : Source}
    (hrep : Representable info addr src arg)
    (hfield : encodeArg info arg addr src arg = some field) :
    Kept info addr src arg ↔ Survives info addr src arg := by
  cases src with
  | nsrc => rfl
  | rs => rfl
  | rt => rfl
  | rd => rfl
  | extra =>
      simp only [encodeArg, encodeExtra] at hfield
      simp only [Representable] at hrep
      simp only [Kept, Survives]
      by_cases hop : info.opcode = .opBreak
      · simp only [hop, if_true]
      · simp only [hop, if_false] at hfield hrep ⊢
        cases htype : info.type with
        | ntyp => rfl
        | rtyp =>
            simp only [htype, iff_true] at hrep ⊢
            exact hrep
        | ityp =>
            simp only [htype, ne_eq, ite_not] at hfield hrep ⊢
            cases hbranch : isBranch info.opcode with
            | false =>
                simp only [hbranch, Bool.false_eq_true, if_false, false_implies, and_true] at hrep ⊢
                exact and_iff_right hrep.1
            | true =>
                simp only [hbranch, if_true, true_implies] at hfield hrep ⊢
                obtain ⟨offset, hoffset⟩ := hrep
                split at hfield
                · rename_i hequal
                  refine iff_of_true ((branch_iff hequal).mp ?_) hequal
                  have hdiff : arg = offset.signExtend 32 := by
                    rw [← hequal, hoffset, BitVec.add_sub_cancel, (branch_field offset).1]
                  rw [hdiff, (branch_field offset).2, ← hoffset, hdiff]
                · cases hfield
        | jtyp =>
            simp only [htype] at hrep ⊢
            exact and_iff_right hrep.1

theorem operandFits_of_survives {info : InstrInfo} (hinfo : info ∈ instrTable)
    {addr arg : BitVec 32} {src : Source} (hrep : Representable info addr src arg)
    (hsurvives : Survives info addr src arg) :
    operandFits info addr src arg = true := by
  have hreg (h : arg.toNat < 32) : 0 ≤ arg.toInt ∧ arg.toInt ≤ 31 := by
    rw [BitVec.toInt_eq_toNat_cond]
    split <;> omega
  cases src with
  | nsrc => rfl
  | rs => exact decide_eq_true (hreg hrep)
  | rt => exact decide_eq_true (hreg hrep)
  | rd => exact decide_eq_true (hreg hrep)
  | extra =>
      simp only [Representable] at hrep
      simp only [Survives] at hsurvives
      have hbreak := (instrTable_sources info hinfo).2.2.2
      simp only [operandFits]
      cases htype : info.type with
      | ntyp => rfl
      | rtyp => rfl
      | ityp =>
          have hop : info.opcode ≠ .opBreak := fun h => by simp [hbreak h] at htype
          simp only [hop, if_false, htype] at hsurvives
          cases hbranch : isBranch info.opcode with
          | false => rfl
          | true =>
              rw [if_pos hbranch] at hsurvives
              exact decide_eq_true hsurvives
      | jtyp =>
          have hop : info.opcode ≠ .opBreak := fun h => by simp [hbreak h] at htype
          simp only [hop, if_false, htype] at hrep hsurvives
          refine decide_eq_true ?_
          rcases hrep.2 with h | h
          · exact h
          · exact h.trans hsurvives.symm

theorem decodeArg_isSome {info : InstrInfo} (htype : info.type ≠ .ntyp) (value addr : BitVec 32)
    (src : Source) :
    ∃ arg, decodeArg info info.opcode addr value src = some arg := by
  cases src with
  | nsrc => exact ⟨_, rfl⟩
  | rs => exact ⟨_, rfl⟩
  | rt => exact ⟨_, rfl⟩
  | rd => exact ⟨_, rfl⟩
  | extra =>
      rw [decodeArg, decodeExtra]
      split
      · exact ⟨_, rfl⟩
      · cases h : info.type with
        | ntyp => exact absurd h htype
        | rtyp => exact ⟨_, rfl⟩
        | ityp => exact ⟨_, rfl⟩
        | jtyp => exact ⟨_, rfl⟩

-- A break code with bit 19 set makes the word illegal.
theorem top_of_break {value arg : BitVec 32} (hvalue : value ||| (arg <<< 12).sshiftRight 6 = value)
    (hbit : arg.getLsbD 19 = true) : value >>> 26 = 0x3F := by
  have htop := break_top arg
  rw [hbit, if_pos rfl] at htop
  have hones : value >>> 26 ||| 0x3F = 0x3F := by
    ext i hi
    interval_cases i <;> simp
  rw [← hones, ← htop, ← BitVec.ushiftRight_or_distrib, hvalue]

theorem decodeOpcode_of_break {value arg : BitVec 32}
    (hvalue : value ||| (arg <<< 12).sshiftRight 6 = value) (hbit : arg.getLsbD 19 = true) :
    decodeOpcode value = none := by
  unfold decodeOpcode
  rw [top_of_break hvalue hbit]
  rfl

theorem or_field (bits : BitVec 32) (fields : Fin 3 → BitVec 32) (j : Fin 3) :
    bits ||| fields 0 ||| fields 1 ||| fields 2 ||| fields j =
      bits ||| fields 0 ||| fields 1 ||| fields 2 := by
  ext i hi
  match j with
  | 0 => grind
  | 1 => grind
  | 2 => grind

-- A word whose fields hold their operands only is decoded field by field.
theorem decodeWord_fields {info : InstrInfo} (hinfo : info ∈ instrTable) (htype : info.type ≠ .ntyp)
    {bits : BitVec 32} (hbits : opcodeBits info.opcode = some bits) {fields : Fin 3 → BitVec 32}
    (hmask : ∀ j, fields j &&& fieldMask info (info.srcs j) = fields j) (addr : BitVec 32) :
    ∃ args, decodeWord addr (bits ||| fields 0 ||| fields 1 ||| fields 2) = some (info, args) ∧
      ∀ j, decodeArg info info.opcode addr (fields j) (info.srcs j) = some (args j) := by
  obtain ⟨hfree, hmasks, hnamed, hopcode⟩ : namesInstruction info bits := by
    have hspec := opcodeBits_spec info hinfo htype
    rw [hbits] at hspec
    simpa using hspec
  have hfields := and_mask_field hfree hmask (fieldMask_disjoint info hinfo)
  have hop : decodeOpcode (bits ||| fields 0 ||| fields 1 ||| fields 2) = some info.opcode := by
    rw [decodeOpcode_of_bits (and_mask_bits hnamed hmask hmasks), hopcode]
  have hsome (j : Fin 3) := decodeArg_isSome htype (fields j) addr (info.srcs j)
  choose args hargs using hsome
  refine ⟨args, ?_, hargs⟩
  simp only [decodeWord, hop, lookup_opcode info hinfo htype, Option.bind_eq_bind,
    Option.bind_some, decodeArgs,
    decodeArg_field addr (bits ||| fields 0 ||| fields 1 ||| fields 2), hfields, hargs,
    Option.pure_def, Option.some.injEq, Prod.mk.injEq, true_and]
  funext j
  match j with
  | 0 => rfl
  | 1 => rfl
  | 2 => rfl

-- What the word of an instruction is decoded as.
theorem decodeWord_kept {info : InstrInfo} (hinfo : info ∈ instrTable)
    {extra addr value : BitVec 32} {args : Fin 3 → BitVec 32}
    (hextra : ∀ j, info.srcs j = .extra → extra = args j)
    (hvalue : encodeInfo info extra addr args = some value) :
    (decodeWord addr value = none ∧ ¬∀ j, Kept info addr (info.srcs j) (args j)) ∨
      ∃ args', decodeWord addr value = some (info, args') ∧
        (∀ j, info.srcs j = .nsrc → args' j = 0) ∧
        (args' = args ↔ ∀ j, Kept info addr (info.srcs j) (args j)) := by
  obtain ⟨htype, bits, hbits, fields, hfields, rfl⟩ := encodeInfo_eq_some.mp hvalue
  have hfields' (j : Fin 3) : encodeArg info (args j) addr (info.srcs j) (args j) =
      some (fields j) := by
    rw [← hfields j]
    cases hsrc : info.srcs j with
    | extra => rw [hextra j hsrc]
    | nsrc => rfl
    | rs => rfl
    | rt => rfl
    | rd => rfl
  by_cases hbreak : ∃ j, info.opcode = .opBreak ∧ info.srcs j = .extra ∧ (args j).getLsbD 19 = true
  · left
    obtain ⟨j, hop, hsrc, hbit⟩ := hbreak
    have hsub := or_field bits fields j
    have hfield := hfields' j
    simp only [hsrc, encodeArg, encodeExtra, hop, if_true, Option.some.injEq] at hfield
    rw [← hfield] at hsub
    refine ⟨?_, fun hall => ?_⟩
    · rw [decodeWord, decodeOpcode_of_break hsub hbit]
      rfl
    · have hkept := hall j
      simp only [hsrc, Kept, hop, if_true] at hkept
      rw [BitVec.getLsbD, Nat.testBit_lt_two_pow hkept] at hbit
      cases hbit
  · right
    have hclear (j : Fin 3) (hop : info.opcode = .opBreak) (hsrc : info.srcs j = .extra) :
        (args j).getLsbD 19 = false := Bool.eq_false_iff.mpr fun hbit => hbreak ⟨j, hop, hsrc, hbit⟩
    have hmask (j : Fin 3) := encodeArg_mask htype (hfields' j) (hclear j)
    obtain ⟨args', hword, hargs'⟩ := decodeWord_fields hinfo htype hbits hmask addr
    refine ⟨args', hword, ?_, ?_⟩
    · intro j hj
      have harg := hargs' j
      rw [hj] at harg
      exact (Option.some.inj harg).symm
    · rw [funext_iff]
      refine forall_congr' fun j => ?_
      rw [← decodeArg_encodeArg htype (hfields' j) (hclear j), hargs' j, Option.some.injEq]

-- The word of an instruction gives the instruction back, with the operands that
-- survive.
theorem decodeWord_encodeInfo {info : InstrInfo} (hinfo : info ∈ instrTable)
    {extra addr value : BitVec 32} {args : Fin 3 → BitVec 32}
    (hextra : ∀ j, info.srcs j = .extra → extra = args j)
    (hrep : ∀ j, Representable info addr (info.srcs j) (args j))
    (hvalue : encodeInfo info extra addr args = some value) :
    (decodeWord addr value = none ∧ ¬∀ j, Survives info addr (info.srcs j) (args j)) ∨
      ∃ args', decodeWord addr value = some (info, args') ∧
        (∀ j, info.srcs j = .nsrc → args' j = 0) ∧
        (args' = args ↔ ∀ j, Survives info addr (info.srcs j) (args j)) := by
  have hsame : (∀ j, Kept info addr (info.srcs j) (args j)) ↔
      ∀ j, Survives info addr (info.srcs j) (args j) := by
    obtain ⟨-, -, -, fields, hfields, -⟩ := encodeInfo_eq_some.mp hvalue
    refine forall_congr' fun j => ?_
    have hfield := hfields j
    cases hsrc : info.srcs j with
    | extra =>
        have hrep := hrep j
        rw [hsrc] at hfield hrep
        rw [hextra j hsrc] at hfield
        exact kept_iff_survives hrep hfield
    | nsrc => rfl
    | rs => rfl
    | rt => rfl
    | rd => rfl
  have hkept := decodeWord_kept hinfo hextra hvalue
  rwa [hsame] at hkept

end CSE320.Mips
