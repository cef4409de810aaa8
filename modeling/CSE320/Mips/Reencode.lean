import CSE320.Mips.Field
import Mathlib.Tactic.FinCases

namespace CSE320.Mips

-- Instructions with registers or an immediate operand only. A break code and the
-- target of a branch or jump are kept in other forms.
def Plain (info : InstrInfo) : Prop :=
  (info.type = .rtyp ∧ info.opcode ≠ .opBreak) ∨ (info.type = .ityp ∧ isBranch info.opcode = false)

-- The bits of a word that mean something: those that name the instruction and the
-- fields that its sources name.
def usedMask (info : InstrInfo) (value : BitVec 32) : BitVec 32 :=
  opcodeMask value ||| fieldMask info (info.srcs 0) ||| fieldMask info (info.srcs 1) |||
    fieldMask info (info.srcs 2)

-- A search through the tables finds the index that the opcode was read at.
theorem opcodeBits_of_tables : ∀ i < 64, ∀ info ∈ instrTable, info.type ≠ .ntyp →
    (opcodeTable.getD i .illegl = info.opcode →
      opcodeBits info.opcode = some (BitVec.ofNat 32 i <<< 26)) ∧
      (specialTable.getD i .illegl = info.opcode →
        opcodeBits info.opcode = some (BitVec.ofNat 32 i)) := by
  decide +kernel

theorem index_of_special : ∀ i < 64, opcodeTable.getD i .illegl = .special → i = 0 := by
  decide

theorem isBranch_of_bcond : ∀ info ∈ instrTable,
    info.opcode ∈ [Opcode.opBltz, .opBgez, .opBltzal, .opBgezal] →
      isBranch info.opcode = true ∧ info.type = .ityp := by
  decide +kernel

theorem and_opcode_field (value : BitVec 32) :
    value &&& (0xFC000000 : BitVec 32) = (value >>> 26) <<< 26 := by
  ext i hi
  interval_cases i <;> simp

-- The bits that name the instruction of a word are those that encode starts with.
theorem opcodeBits_of_unshared {info : InstrInfo} {value : BitVec 32} (hinfo : info ∈ instrTable)
    (htype : info.type ≠ .ntyp)
    (hshared : info.opcode ∉ [Opcode.opBltz, .opBgez, .opBltzal, .opBgezal])
    (h : decodeOpcode value = some info.opcode) :
    opcodeBits info.opcode = some (value &&& opcodeMask value) := by
  have htop : (value >>> 26).toNat < 64 := by
    have hlt := value.isLt
    rw [BitVec.toNat_ushiftRight, Nat.shiftRight_eq_div_pow]
    omega
  have hlow : (value &&& 0x3F).toNat < 64 := by
    rw [BitVec.toNat_and]
    exact Nat.lt_of_le_of_lt Nat.and_le_right (by decide)
  unfold decodeOpcode at h
  simp only at h
  split at h
  · rename_i hspecial
    split at h
    · cases h
    · -- the opcode field of SPECIAL is zero, so the function field is the index
      have hzero : value >>> 26 = 0 := BitVec.eq_of_toNat_eq (index_of_special _ htop hspecial)
      have hmask : value &&& 0xFC00003F = value &&& 0x3F := by
        rw [show (0xFC00003F : BitVec 32) = 0xFC000000 ||| 0x3F from rfl,
          BitVec.and_or_distrib_left, and_opcode_field, hzero]
        simp
      rw [(opcodeBits_of_tables _ hlow info hinfo htype).2 (Option.some.inj h), opcodeMask,
        hspecial, hmask, BitVec.ofNat_toNat, BitVec.setWidth_eq]
  · rename_i hspecial
    split at h
    · -- the opcodes of BCOND are branches
      refine absurd ?_ hshared
      repeat' split at h
      all_goals simp_all
    · rename_i hbcond
      split at h
      · have hmask : opcodeMask value = 0xFC000000 := by
          rw [opcodeMask]
          split
          · exact absurd ‹_› hspecial
          · exact absurd ‹_› hbcond
          · rfl
        rw [(opcodeBits_of_tables _ htop info hinfo htype).1 (Option.some.inj h), hmask,
          and_opcode_field, BitVec.ofNat_toNat, BitVec.setWidth_eq]
      · cases h

theorem opcodeBits_of_decodeOpcode {info : InstrInfo} {value : BitVec 32}
    (hinfo : info ∈ instrTable) (hplain : Plain info) (h : decodeOpcode value = some info.opcode) :
    opcodeBits info.opcode = some (value &&& opcodeMask value) := by
  have htype : info.type ≠ .ntyp := by
    rcases hplain with ⟨ht, -⟩ | ⟨ht, -⟩ <;> simp [ht]
  refine opcodeBits_of_unshared hinfo htype (fun hshared => ?_) h
  obtain ⟨hbranch, hityp⟩ := isBranch_of_bcond info hinfo hshared
  rcases hplain with ⟨ht, -⟩ | ⟨-, hno⟩
  · rw [ht] at hityp
    cases hityp
  · rw [hbranch] at hno
    cases hno

-- A register that was read from its field is in range.
theorem encodeReg_eq {shift : Nat} {mask arg : BitVec 32} (h : arg.toNat < 32) :
    encodeReg shift mask arg = some (arg <<< shift &&& mask) := by
  have hint : arg.toInt = arg.toNat := BitVec.toInt_eq_toNat_of_lt (by omega)
  exact if_neg (by omega)

theorem and_lt (x : BitVec 32) : (x &&& 0x1F).toNat < 32 := by
  rw [BitVec.toNat_and]
  exact Nat.lt_of_le_of_lt Nat.and_le_right (by decide)

-- An operand of a plain instruction goes back to the field that it was read from.
theorem encodeArg_decodeArg {info : InstrInfo} (hinfo : info ∈ instrTable) (hplain : Plain info)
    {addr value arg : BitVec 32} {src : Source}
    (h : decodeArg info info.opcode addr value src = some arg) :
    encodeArg info arg addr src arg = some (value &&& fieldMask info src) := by
  cases src with
  | nsrc =>
      cases h
      simp [encodeArg, fieldMask]
  | rs =>
      cases h
      rw [encodeArg, encodeReg_eq (and_lt _), fieldMask, Option.some.injEq]
      ext i hi
      interval_cases i <;> simp [BitVec.getElem_sshiftRight]
  | rt =>
      cases h
      rw [encodeArg, encodeReg_eq (and_lt _), fieldMask, Option.some.injEq]
      ext i hi
      interval_cases i <;> simp [BitVec.getElem_sshiftRight]
  | rd =>
      cases h
      rw [encodeArg, encodeReg_eq (and_lt _), fieldMask, Option.some.injEq]
      ext i hi
      interval_cases i <;> simp [BitVec.getElem_sshiftRight]
  | extra =>
      simp only [decodeArg, decodeExtra] at h
      simp only [encodeArg, encodeExtra, fieldMask]
      rcases hplain with ⟨ht, hbreak⟩ | ⟨ht, hbranch⟩
      · simp only [if_neg hbreak, ht, Option.some.injEq] at h ⊢
        subst h
        ext i hi
        interval_cases i <;> simp [BitVec.getElem_sshiftRight]
      · have hbreak : info.opcode ≠ .opBreak := fun hop => by
          simp [(instrTable_sources info hinfo).2.2.2 hop] at ht
        simp only [if_neg hbreak, ht, hbranch, Bool.false_eq_true, if_false,
          Option.some.injEq] at h ⊢
        rw [← h, signExtend_eq, if_neg (not_not_intro rfl), Option.some.injEq]
        ext i hi
        interval_cases i <;> simp [BitVec.getElem_signExtend]

-- The record that decode leaves: the entry of the table, its operands, and the
-- field extra for the operand that is none of the registers.
theorem decode_eq_ok {ip ip' : Instruction} {addr : BitVec 32} (h : decode ip addr = .ok ip') :
    ∃ info ∈ instrTable, ip'.info = some info ∧ ip'.value = ip.value ∧
      decodeOpcode ip.value = some info.opcode ∧
      (∀ j, decodeArg info info.opcode addr ip.value (info.srcs j) = some (ip'.args j)) ∧
      ∀ j, info.srcs j = .extra → ip'.extra = ip'.args j := by
  unfold decode at h
  cases hop : decodeOpcode ip.value with
  | none =>
      rw [hop] at h
      cases h
  | some opcode =>
      obtain ⟨info, hinfo, hlookup⟩ := lookup_of_decodeOpcode hop
      have hopcode : opcode = info.opcode := by
        have hfound := List.find?_some hlookup
        exact of_decide_eq_true hfound
      subst hopcode
      simp only [hop, hlookup, Option.some_or] at h
      cases hargs : decodeArgs info info.opcode addr ip.value with
      | none =>
          rw [hargs] at h
          cases h
      | some args =>
          rw [hargs] at h
          have hip := (Except.ok.inj h).symm
          subst hip
          have harg (j : Fin 3) : decodeArg info info.opcode addr ip.value (info.srcs j) =
              some (args j) := by
            simp only [decodeArgs, Option.bind_eq_bind, Option.bind_eq_some_iff, Option.pure_def,
              Option.some.injEq] at hargs
            obtain ⟨arg0, harg0, arg1, harg1, arg2, harg2, rfl⟩ := hargs
            fin_cases j
            · exact harg0
            · exact harg1
            · exact harg2
          refine ⟨info, hinfo, rfl, rfl, rfl, harg, fun j hj => ?_⟩
          have hsome : info.srcs 0 = .extra ∨ info.srcs 1 = .extra ∨ info.srcs 2 = .extra := by
            fin_cases j
            · exact Or.inl hj
            · exact Or.inr (Or.inl hj)
            · exact Or.inr (Or.inr hj)
          have hextra := harg j
          rw [hj, decodeArg] at hextra
          simp only [decodedExtra, if_pos hsome, hextra, Option.getD_some]

-- The record that decode makes of a word with registers or an immediate operand is
-- encoded as the same word, without the bits that mean nothing.
theorem encode_decode {ip ip' : Instruction} {addr : BitVec 32} {info : InstrInfo}
    (hdecode : decode ip addr = .ok ip') (hinfo : ip'.info = some info) (hplain : Plain info) :
    encode ip' addr = .ok { ip' with value := ip.value &&& usedMask info ip.value } := by
  obtain ⟨info', hmem, hinfo', -, hop, hargs, hextra⟩ := decode_eq_ok hdecode
  obtain rfl : info = info' := Option.some.inj (hinfo.symm.trans hinfo')
  have htype : info.type ≠ .ntyp := by
    rcases hplain with ⟨ht, -⟩ | ⟨ht, -⟩ <;> simp [ht]
  have hfields (j : Fin 3) : encodeArg info ip'.extra addr (info.srcs j) (ip'.args j) =
      some (ip.value &&& fieldMask info (info.srcs j)) := by
    rw [← encodeArg_decodeArg hmem hplain (hargs j)]
    cases hj : info.srcs j with
    | extra => rw [hextra j hj]
    | nsrc => rfl
    | rs => rfl
    | rt => rfl
    | rd => rfl
  have hvalue : encodeInfo info ip'.extra addr ip'.args =
      some (ip.value &&& usedMask info ip.value) := by
    refine encodeInfo_eq_some.mpr ⟨htype, _, opcodeBits_of_decodeOpcode hmem hplain hop, _,
      hfields, ?_⟩
    simp only [usedMask, BitVec.and_or_distrib_left]
  rw [encode, hinfo]
  simp only [hvalue]

-- sll with bits in the field rs, which it does not use.
theorem encode_decode_sll :
    ∃ ip', decode { Instruction.zero with value := 0x03E41100 } 0 = .ok ip' ∧
      encode ip' 0 = .ok { ip' with value := 0x00041100 } := by
  have hword : decodeWord 0 0x03E41100 =
      some (⟨.opSll, .rtyp, ![.rd, .rt, .extra], "sll $%d,$%d,%d"⟩, ![2, 4, 4]) := by
    decide +kernel
  have hdecode := decode_eq { Instruction.zero with value := 0x03E41100 } 0
  simp only [hword] at hdecode
  obtain ⟨ip', hip, hinfo, -⟩ := hdecode
  exact ⟨ip', hip, encode_decode hip hinfo (Or.inl ⟨rfl, by decide⟩)⟩

end CSE320.Mips
