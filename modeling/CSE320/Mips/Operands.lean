import CSE320.Mips.Field
import Mathlib.Tactic.FinCases

namespace CSE320.Mips

-- A word that is decoded as an instruction with its operands, on any record.
def DecodesBack (info : InstrInfo) (addr value : BitVec 32) (args : Fin 3 → BitVec 32) : Prop :=
  ∀ ip : Instruction, ∃ ip', decode { ip with value } addr = .ok ip' ∧ ip'.info = some info ∧
    ip'.args = args

-- Bits 20:16 of the branches that share an opcode.
def bcondCode : Opcode → Option (BitVec 32)
  | .opBltz => some 0
  | .opBgez => some 1
  | .opBltzal => some 16
  | .opBgezal => some 17
  | _ => none

-- The opcode fields of a word hold the indices of an opcode.
def namesOpcode (opcode : Opcode) (value : BitVec 32) : Bool :=
  match bcondCode opcode with
  | some code =>
      (value >>> 26).toNat = opcodeTable.idxOf .bcond && value.sshiftRight 16 &&& 0x1F = code
  | none =>
    if opcode ∈ specialTable then
      (value >>> 26).toNat = opcodeTable.idxOf .special && (value &&& 0x3F).toNat =
        specialTable.idxOf opcode
    else
      (value >>> 26).toNat = opcodeTable.idxOf opcode

variable {info : InstrInfo} {instr ip : Instruction} {addr value bits target : BitVec 32}
  {args : Fin 3 → BitVec 32}

-- The branches have a target, and the bits that name an instruction are its opcode
-- fields.
theorem instrTable_opcodes : ∀ info ∈ instrTable,
    (isBranch info.opcode = true → info.type = .ityp ∧ ∃ j, info.srcs j = .extra) ∧
      (info.opcode = .opBreak → info.type = .rtyp ∧ info.srcs = ![.extra, .nsrc, .nsrc]) ∧
      (info.type ≠ .ntyp → (opcodeBits info.opcode).all (namesOpcode info.opcode ·) = true) := by
  decide +kernel

theorem decodesBack_iff : DecodesBack info addr value args ↔ decodeWord addr value = some
    (info, args) := by
  constructor
  · intro h
    obtain ⟨ip', hip, hinfo, hargs⟩ := h .zero
    have hdecode := decode_eq { Instruction.zero with value } addr
    cases hword : decodeWord addr value with
    | none =>
        simp only [hword] at hdecode
        rw [hdecode] at hip
        cases hip
    | some entry =>
        simp only [hword] at hdecode
        obtain ⟨ip'', hip', hinfo', hargs'⟩ := hdecode
        obtain rfl := Except.ok.inj (hip.symm.trans hip')
        rw [← hargs, hargs', Option.some.inj (hinfo.symm.trans hinfo')]
  · intro hword ip
    have hdecode := decode_eq { ip with value } addr
    simp only [hword] at hdecode
    exact hdecode

theorem encode_eq_ok (hip : instr.info = some info) :
    encode instr addr = .ok ip ↔ encodeInfo info instr.extra addr instr.args = some ip.value ∧
      ip = { instr with value := ip.value } := by
  have hencode : encode instr addr =
      (encodeInfo info instr.extra addr instr.args).elim (.error .rejected) fun value =>
        .ok { instr with value } := by
    cases hvalue : encodeInfo info instr.extra addr instr.args <;> simp [encode, hip, hvalue]
  rw [hencode]
  cases encodeInfo info instr.extra addr instr.args with
  | none => exact iff_of_false (fun h => by cases h) (fun h => by cases h.1)
  | some value =>
      rw [Option.elim_some, Except.ok.injEq, Option.some.injEq]
      constructor
      · rintro rfl
        exact ⟨rfl, rfl⟩
      · rintro ⟨rfl, h⟩
        exact h.symm

-- The extra field that main sets is the operand.
theorem encodeInfo_transfer (hinfo : info ∈ instrTable) (instr : Instruction) (addr : BitVec 32) :
    (encodeInfo info (transfer instr info).extra addr instr.args).isSome = true ↔
      info.type ≠ .ntyp ∧ (∀ j, operandFits info addr (info.srcs j) (instr.args j) = true) ∧
        Clean info instr.args :=
  encodeInfo_isSome hinfo (fun _ hj => transfer_extra hinfo instr hj) addr

-- An instruction that is encoded comes back if and only if each of its operands fits
-- its field.
theorem decodesBack_of_encode_iff (hinfo : info ∈ instrTable) (instr : Instruction)
    (addr : BitVec 32) :
    (∀ ip, encode (transfer instr info) addr = .ok ip → DecodesBack info addr ip.value instr.args) ↔
      (info.type ≠ .ntyp → (∀ j, operandFits info addr (info.srcs j) (instr.args j) = true) →
        Clean info instr.args → ∀ j, Kept info addr (info.srcs j) (instr.args j)) := by
  have hsome := encodeInfo_transfer hinfo instr addr
  have hback (value : BitVec 32)
      (hvalue : encodeInfo info (transfer instr info).extra addr instr.args = some value) :
      DecodesBack info addr value instr.args ↔
        ∀ j, Kept info addr (info.srcs j) (instr.args j) := by
    rw [decodesBack_iff]
    rcases decodeWord_kept hinfo (fun _ hj => transfer_extra hinfo instr hj) hvalue with
      ⟨hword, hlost⟩ | ⟨args', hword, -, hsame⟩
    · rw [hword]
      exact iff_of_false (fun h => by cases h) hlost
    · rw [hword, ← hsame, Option.some.injEq, Prod.mk.injEq]
      exact and_iff_right rfl
  constructor
  · intro h htype hfits hclean
    obtain ⟨value, hvalue⟩ := Option.isSome_iff_exists.mp (hsome.mpr ⟨htype, hfits, hclean⟩)
    refine (hback value hvalue).mp ?_
    exact h { transfer instr info with value } ((encode_eq_ok rfl).mpr ⟨hvalue, rfl⟩)
  · intro h ip hip
    obtain ⟨hvalue, -⟩ := (encode_eq_ok rfl).mp hip
    obtain ⟨htype, hfits, hclean⟩ := hsome.mp (Option.isSome_iff_exists.mpr ⟨_, hvalue⟩)
    exact (hback ip.value hvalue).mpr (h htype hfits hclean)

def sllInfo : InstrInfo := ⟨.opSll, .rtyp, ![.rd, .rt, .extra], "sll $%d,$%d,%d"⟩

theorem decodesBack_of_sll :
    ∃ ip, encode (transfer { Instruction.zero with args := ![2, 4, 4] } sllInfo) 0x1000 = .ok ip ∧
      DecodesBack sllInfo 0x1000 ip.value ![2, 4, 4] := by
  have hencode : encode (transfer { Instruction.zero with args := ![2, 4, 4] } sllInfo) 0x1000 =
      .ok { transfer { Instruction.zero with args := ![2, 4, 4] } sllInfo with value :=
        0x00041100 } := rfl
  refine ⟨_, hencode, (decodesBack_of_encode_iff (List.mem_of_getElem? (i := 44) rfl) _ _).mpr
    (fun _ _ _ j => ?_)
    _ hencode⟩
  match j with
  | 0 => trivial
  | 1 => trivial
  | 2 => exact (by decide : (4 : BitVec 32).toNat < 32)

-- A shift by 33 is encoded as a shift by one.
theorem not_decodesBack_of_long_shift :
    ¬∀ ip, encode (transfer { Instruction.zero with args := ![2, 4, 33] } sllInfo) 0x1000 = .ok ip →
      DecodesBack sllInfo 0x1000 ip.value ![2, 4, 33] := by
  intro h
  have hkept := (decodesBack_of_encode_iff (List.mem_of_getElem? (i := 44) rfl) _ _).mp h
    (by decide) (by decide)
    (by decide) 2
  exact absurd hkept (by decide : ¬(33 : BitVec 32).toNat < 32)

theorem shifted_range {d : BitVec 32} (hlow : -2 ^ 17 ≤ d.toInt) (hhigh : d.toInt < 2 ^ 17) :
    -2 ^ 15 ≤ (d.sshiftRight 2).toInt ∧ (d.sshiftRight 2).toInt < 2 ^ 15 := by
  rw [BitVec.toInt_sshiftRight, Int.shiftRight_eq_div_pow]
  omega

-- A branch is assembled if and only if its target is equal to its own distance.
theorem branch_assembles_iff (hinfo : info ∈ instrTable) (hbranch : isBranch info.opcode = true)
    (instr : Instruction) (haddr : addr.toNat % 4 = 0) (htarget : target.toNat % 4 = 0)
    (hregs : ∀ j, isRegister (info.srcs j) = true → (instr.args j).toNat < 32)
    (hextra : ∀ j, info.srcs j = .extra → instr.args j = target)
    (hfits : -2 ^ 17 ≤ (target - (addr + 4)).toInt ∧ (target - (addr + 4)).toInt < 2 ^ 17) :
    (∃ ip, encode (transfer instr info) addr = .ok ip ∧ DecodesBack info addr ip.value instr.args) ↔
      (target - (addr + 4)).sshiftRight 2 = target ∧ Clean info instr.args := by
  obtain ⟨htype, j, hj⟩ := (instrTable_opcodes info hinfo).1 hbranch
  have hop : info.opcode ≠ .opBreak := fun h => by
    rw [h] at hbranch
    cases hbranch
  have hsome := encodeInfo_transfer hinfo instr addr
  constructor
  · rintro ⟨ip, hip, -⟩
    obtain ⟨-, hfits, hclean⟩ :=
      hsome.mp (Option.isSome_iff_exists.mpr ⟨_, ((encode_eq_ok rfl).mp hip).1⟩)
    have hfit := hfits j
    simp only [operandFits, hj, htype, hbranch, hextra j hj, Bool.not_true, Bool.false_or,
      decide_eq_true_eq] at hfit
    exact ⟨hfit, hclean⟩
  · rintro ⟨hself, hclean⟩
    have hoperands : ∀ j, operandFits info addr (info.srcs j) (instr.args j) = true := by
      intro j
      have hreg (h : isRegister (info.srcs j) = true) :
          decide (0 ≤ (instr.args j).toInt ∧ (instr.args j).toInt ≤ 31) = true := by
        have hlt := hregs j h
        rw [decide_eq_true_eq, BitVec.toInt_eq_toNat_of_lt (by omega)]
        omega
      cases hsrc : info.srcs j with
      | nsrc => rfl
      | rs => exact hreg (by rw [hsrc]; rfl)
      | rt => exact hreg (by rw [hsrc]; rfl)
      | rd => exact hreg (by rw [hsrc]; rfl)
      | extra =>
          simp only [operandFits, htype, hbranch, hextra j hsrc, hself, Bool.not_true,
            Bool.false_or, decide_true]
    obtain ⟨value, hvalue⟩ :=
      Option.isSome_iff_exists.mp (hsome.mpr ⟨by simp [htype], hoperands, hclean⟩)
    have hencode : encode (transfer instr info) addr = .ok { transfer instr info with value } :=
      (encode_eq_ok rfl).mpr ⟨hvalue, rfl⟩
    refine ⟨_, hencode, (decodesBack_of_encode_iff hinfo instr addr).mpr
      (fun _ _ _ j => ?_) _ hencode⟩
    cases hsrc : info.srcs j with
    | nsrc => trivial
    | rs => trivial
    | rt => trivial
    | rd => trivial
    | extra =>
        simp only [Kept, hop, if_false, htype, hextra j hsrc]
        refine ⟨?_, fun _ => ?_⟩
        · have hrange := shifted_range hfits.1 hfits.2
          rwa [hself] at hrange
        · have hlt := addr.isLt
          have hlt' := target.isLt
          rw [BitVec.toNat_sub, BitVec.toNat_add, show (4 : BitVec 32).toNat = 4 from rfl]
          omega

def beqInfo : InstrInfo := ⟨.opBeq, .ityp, ![.rs, .rt, .extra], "beq $%d,$%d,%d"⟩

-- 0x400 words in front of 0xC00.
theorem branch_assembles_of_own_distance :
    ∃ ip, encode (transfer { Instruction.zero with args := ![1, 2, 0xFFFFFC00] } beqInfo) 0xBFC =
      .ok ip ∧
      DecodesBack beqInfo 0xBFC ip.value ![1, 2, 0xFFFFFC00] := by
  refine (@branch_assembles_iff beqInfo 0xBFC 0xFFFFFC00 (List.mem_of_getElem? (i := 7) rfl) rfl
    { Instruction.zero with args := ![1, 2, 0xFFFFFC00] } (by decide) (by decide) (fun j => ?_)
      (fun j => ?_)
    (by decide)).mpr (by decide)
  · match j with
    | 0 => decide
    | 1 => decide
    | 2 => decide
  · match j with
    | 0 => decide
    | 1 => decide
    | 2 => decide

-- A branch over one instruction is rejected.
theorem not_branch_assembles_of_near :
    ¬∃ ip, encode (transfer { Instruction.zero with args := ![1, 2, 0x1008] } beqInfo) 0x1000 =
      .ok ip ∧
      DecodesBack beqInfo 0x1000 ip.value ![1, 2, 0x1008] := by
  rintro ⟨ip, hip, -⟩
  obtain ⟨hvalue, -⟩ := (encode_eq_ok rfl).mp hip
  cases hvalue

-- The opcode fields depend on the bits that name the instruction only.
theorem namesOpcode_of_bits {opcode : Opcode} (h : value &&& opcodeMask bits = bits)
    (hnames : namesOpcode opcode bits = true) : namesOpcode opcode value = true := by
  obtain ⟨htop, hlow, hmid⟩ := opcodeFields_of_bits h
  have hspecial : opcodeTable.getD (opcodeTable.idxOf .special) .illegl = .special := by decide
  have hbcond : opcodeTable.getD (opcodeTable.idxOf .bcond) .illegl = .bcond := by decide
  unfold namesOpcode at hnames ⊢
  rw [htop]
  cases hcode : bcondCode opcode with
  | some code =>
      simp only [hcode, Bool.and_eq_true, decide_eq_true_eq] at hnames ⊢
      rw [hmid (by rw [hnames.1, hbcond])]
      exact hnames
  | none =>
      simp only [hcode] at hnames ⊢
      by_cases hmem : opcode ∈ specialTable
      · simp only [if_pos hmem, Bool.and_eq_true, decide_eq_true_eq] at hnames ⊢
        rw [hlow (by rw [hnames.1, hspecial])]
        exact hnames
      · simp only [if_neg hmem] at hnames ⊢
        exact hnames

-- The operands stay out of the opcode fields, but for a break code with bit 19 set.
theorem namesOpcode_iff (hinfo : info ∈ instrTable) (hip : instr.info = some info)
    (addr : BitVec 32) :
    (∀ ip, encode instr addr = .ok ip → namesOpcode info.opcode ip.value = true) ↔
      ¬(info.opcode = .opBreak ∧ instr.args 1 = 0 ∧ instr.args 2 = 0 ∧
        (instr.args 0).getLsbD 19 = true) := by
  obtain ⟨-, hbreak, hnames⟩ := instrTable_opcodes info hinfo
  constructor
  · rintro h ⟨hop, hone, htwo, hbit⟩
    obtain ⟨htype, hsrcs⟩ := hbreak hop
    have hvalue : encodeInfo info instr.extra addr instr.args =
        some (13 ||| ((instr.args 0) <<< 12).sshiftRight 6 ||| 0 ||| 0) := by
      refine encodeInfo_eq_some.mpr ⟨by simp [htype], 13, by rw [hop]; decide,
        ![((instr.args 0) <<< 12).sshiftRight 6, 0, 0], fun j => ?_, rfl⟩
      rw [hsrcs]
      fin_cases j
      · exact if_pos hop
      · exact if_neg (not_not_intro hone)
      · exact if_neg (not_not_intro htwo)
    have hnamed := h { instr with value :=
      13 ||| ((instr.args 0) <<< 12).sshiftRight 6 ||| 0 ||| 0 }
      ((encode_eq_ok hip).mpr ⟨hvalue, rfl⟩)
    have htop : (13 ||| ((instr.args 0) <<< 12).sshiftRight 6 ||| 0 ||| 0) >>> 26 =
        (0x3F : BitVec 32) := by
      refine top_of_break ?_ hbit
      ext i hi
      grind
    have hspecial : bcondCode .opBreak = none ∧ Opcode.opBreak ∈ specialTable := by decide
    rw [hop, namesOpcode, hspecial.1] at hnamed
    simp only [if_pos hspecial.2, htop, Bool.and_eq_true, decide_eq_true_eq] at hnamed
    exact absurd hnamed.1 (by decide)
  · intro h ip hencode
    obtain ⟨htype, bits, hbits, fields, hfields, hvalue⟩ :=
      encodeInfo_eq_some.mp ((encode_eq_ok hip).mp hencode).1
    have hclear (j : Fin 3) (hop : info.opcode = .opBreak) (hsrc : info.srcs j = .extra) :
        (instr.args j).getLsbD 19 = false := by
      obtain ⟨-, hsrcs⟩ := hbreak hop
      have hzero (j : Fin 3) (hj : info.srcs j = .nsrc) : instr.args j = 0 := by
        have hfield := hfields j
        rw [hj] at hfield
        by_contra hne
        exact absurd (hfield.symm.trans (if_pos hne)) (by simp)
      obtain rfl : j = 0 := by
        rw [hsrcs] at hsrc
        fin_cases j
        · rfl
        · cases hsrc
        · cases hsrc
      refine Bool.eq_false_iff.mpr fun hbit => h ⟨hop, hzero 1 ?_, hzero 2 ?_, hbit⟩
      · rw [hsrcs]
        rfl
      · rw [hsrcs]
        rfl
    obtain ⟨-, hmasks, hnamed, -⟩ : namesInstruction info bits := by
      have hspec := opcodeBits_spec info hinfo htype
      rw [hbits] at hspec
      simpa using hspec
    have hall := hnames htype
    rw [hbits] at hall
    rw [hvalue]
    exact namesOpcode_of_bits
      (and_mask_bits hnamed (fun j => encodeArg_mask htype (hfields j) (hclear j)) hmasks) hall

def breakInfo : InstrInfo := ⟨.opBreak, .rtyp, ![.extra, .nsrc, .nsrc], "break 0x%x"⟩

theorem namesOpcode_of_break :
    ∃ ip, encode { Instruction.zero with info := some breakInfo, args := ![0xabc, 0, 0] } 0x3000 =
      .ok ip ∧
      namesOpcode .opBreak ip.value = true := by
  have hencode : encode { Instruction.zero with info := some breakInfo, args :=
    ![0xabc, 0, 0] } 0x3000 =
      .ok { Instruction.zero with value := 0x0002af0d, info := some breakInfo, args :=
        ![0xabc, 0, 0] } := rfl
  exact ⟨_, hencode, (namesOpcode_iff (List.mem_of_getElem? (i := 62) rfl) rfl 0x3000).mpr
    (by decide) _ hencode⟩

-- The highest bit of the break code is dragged along.
theorem not_namesOpcode_of_high_break :
    ¬∀ ip, encode { Instruction.zero with info := some breakInfo, args :=
      ![0x80000, 0, 0] } 0x3000 = .ok ip →
      namesOpcode .opBreak ip.value = true := by
  intro h
  exact (namesOpcode_iff (List.mem_of_getElem? (i := 62) rfl) rfl 0x3000).mp h (by decide)

end CSE320.Mips
