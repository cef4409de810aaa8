import CSE320.Mips.Operands
import CSE320.Mips.Reencode
import Mathlib.Tactic.FinCases

namespace CSE320.Mips

-- The entry of an instruction that a word selects through the tables.
def Selects (value : BitVec 32) (info : InstrInfo) : Prop :=
  info ∈ instrTable ∧ info.type ≠ .ntyp ∧
    match opcodeTable[(value.extractLsb' 26 6).toNat]? with
    | some .special => specialTable[(value.extractLsb' 0 6).toNat]? = some info.opcode
    | some .bcond => bcondCode info.opcode = some ((value.extractLsb' 16 5).setWidth 32)
    | some opcode => opcode = info.opcode
    | none => False

-- The field that a source names.
def fieldOf (info : InstrInfo) (addr value : BitVec 32) : Source → BitVec 32
  | .nsrc => 0
  | .rs => (value.extractLsb' 21 5).setWidth 32
  | .rt => (value.extractLsb' 16 5).setWidth 32
  | .rd => (value.extractLsb' 11 5).setWidth 32
  | .extra =>
    if info.opcode = .opBreak then (value.extractLsb' 6 20).setWidth 32
    else
      match info.type with
      | .rtyp => (value.extractLsb' 6 5).setWidth 32
      | .ityp =>
        let immediate := (value.extractLsb' 0 16).signExtend 32
        if isBranch info.opcode then immediate <<< 2 + (addr + 4) else immediate
      | .jtyp => (value.extractLsb' 0 26).setWidth 32 <<< 2 + region (addr + 4)
      | .ntyp => 0

-- decode returns 1 for the words that select an instruction, with its entry and its
-- operands, and 0 for the others.
def DecodesExactly (ip : Instruction) (addr : BitVec 32) : Prop :=
  (∃ info, Selects ip.value info ∧ ∃ ip', decode ip addr = .ok ip' ∧ ip'.info = some info ∧
    ∀ j, ip'.args j = fieldOf info addr ip.value (info.srcs j)) ∨
  ((∀ info, ¬Selects ip.value info) ∧ decode ip addr = .error .rejected)

variable {info : InstrInfo} {ip : Instruction} {addr value : BitVec 32}

theorem decodeArg_eq_fieldOf (htype : info.type ≠ .ntyp) (addr value : BitVec 32) (src : Source) :
    decodeArg info info.opcode addr value src = some (fieldOf info addr value src) := by
  cases src with
  | nsrc => rfl
  | rs =>
      simp only [decodeArg, fieldOf, Option.some.injEq]
      ext i hi
      interval_cases i <;> simp [BitVec.getElem_sshiftRight]
  | rt =>
      simp only [decodeArg, fieldOf, Option.some.injEq]
      ext i hi
      interval_cases i <;> simp [BitVec.getElem_sshiftRight]
  | rd =>
      simp only [decodeArg, fieldOf, Option.some.injEq]
      ext i hi
      interval_cases i <;> simp [BitVec.getElem_sshiftRight]
  | extra =>
      have himmediate : signExtend value = (value.extractLsb' 0 16).signExtend 32 := by
        rw [signExtend_eq]
        congr 1
      simp only [decodeArg, decodeExtra, fieldOf]
      by_cases hop : info.opcode = .opBreak
      · simp only [hop, if_true, Option.some.injEq]
        ext i hi
        interval_cases i <;> simp [BitVec.getElem_sshiftRight]
      · simp only [hop, if_false]
        cases hinfo : info.type with
        | ntyp => exact absurd hinfo htype
        | rtyp =>
            simp only [Option.some.injEq]
            ext i hi
            interval_cases i <;> simp [BitVec.getElem_sshiftRight]
        | ityp => simp only [himmediate]
        | jtyp =>
            have htarget : value &&& 0x03FFFFFF = (value.extractLsb' 0 26).setWidth 32 := by
              ext i hi
              interval_cases i <;> simp
            simp only [htarget]
            rfl

-- The entries that are no instructions have an opcode of their own.
theorem instrTable_ntyp : ∀ info ∈ instrTable,
    info.type = .ntyp ↔ info.opcode = .illegl ∨ info.opcode = .opRfe ∨ info.opcode = .opUnimp := by
  decide +kernel

theorem tables_ntyp : Opcode.opRfe ∉ opcodeTable ∧ Opcode.opRfe ∉ specialTable ∧
    Opcode.opUnimp ∉ specialTable := by
  decide

theorem getElem?_of_lt {table : List Opcode} {i : Nat} (h : i < table.length) :
    table[i]? = some (table.getD i .illegl) := by
  rw [List.getD_eq_getElem?_getD, List.getElem?_eq_getElem h]
  rfl

theorem fields_eq (value : BitVec 32) :
    (value.extractLsb' 26 6).toNat = (value >>> 26).toNat ∧
      (value.extractLsb' 0 6).toNat = (value &&& 0x3F).toNat ∧
      (value.extractLsb' 16 5).setWidth 32 = value.sshiftRight 16 &&& 0x1F := by
  refine ⟨?_, ?_, ?_⟩
  · have hlt := value.isLt
    rw [BitVec.extractLsb'_toNat, BitVec.toNat_ushiftRight, Nat.shiftRight_eq_div_pow]
    omega
  · rw [BitVec.extractLsb'_toNat, BitVec.toNat_and]
    exact (Nat.and_two_pow_sub_one_eq_mod _ 6).symm
  · ext i hi
    interval_cases i <;> simp [BitVec.getElem_sshiftRight]

-- The tables lead to the same entry as the branches of decode.
theorem selects_iff (hinfo : info ∈ instrTable) (htype : info.type ≠ .ntyp) :
    Selects value info ↔ decodeOpcode value = some info.opcode := by
  have hopcode : info.opcode ≠ .illegl :=
    fun h => htype ((instrTable_ntyp info hinfo).mpr (Or.inl h))
  obtain ⟨htop, hlow, hmid⟩ := fields_eq value
  have htable : opcodeTable[(value >>> 26).toNat]? =
      some (opcodeTable.getD (value >>> 26).toNat .illegl) := by
    refine getElem?_of_lt ?_
    rw [← htop]
    exact (value.extractLsb' 26 6).isLt
  have hspecial : specialTable[(value &&& 0x3F).toNat]? =
      some (specialTable.getD (value &&& 0x3F).toNat .illegl) := by
    refine getElem?_of_lt ?_
    rw [← hlow]
    exact (value.extractLsb' 0 6).isLt
  simp only [Selects, hinfo, htype, ne_eq, not_false_eq_true, true_and, htop, hlow, hmid,
    htable, hspecial, Option.some.injEq, decodeOpcode]
  generalize opcodeTable.getD (value >>> 26).toNat .illegl = opcode
  generalize specialTable.getD (value &&& 0x3F).toNat .illegl = function
  generalize value.sshiftRight 16 &&& 0x1F = code
  by_cases hs : opcode = .special
  · subst hs
    by_cases hf : function = .illegl
    · simp only [if_true, hf, reduceCtorEq, iff_false]
      exact hopcode.symm
    · simp only [if_true, hf, if_false, Option.some.injEq]
  · by_cases hb : opcode = .bcond
    · subst hb
      simp only [reduceCtorEq, if_true, if_false]
      have hcode : ∀ opcode : Opcode, bcondCode opcode = some code ↔
          (code = 0 ∧ opcode = .opBltz) ∨ (code = 1 ∧ opcode = .opBgez) ∨
            (code = 16 ∧ opcode = .opBltzal) ∨
            (code = 17 ∧ opcode = .opBgezal) := by
        intro opcode
        unfold bcondCode
        split <;> grind
      rw [hcode]
      split <;> grind
    · have hmatch : (match some opcode with
          | some .special => function = info.opcode
          | some .bcond => bcondCode info.opcode = some code
          | some opcode => opcode = info.opcode
          | none => False) ↔ opcode = info.opcode := by
        cases opcode <;> simp_all
      rw [hmatch, if_neg hs, if_neg hb]
      by_cases hi : opcode = .illegl
      · subst hi
        exact iff_of_false hopcode.symm (by simp)
      · rw [if_pos hi, Option.some.injEq]

theorem lookup_spec {opcode : Opcode} (h : decodeOpcode value = some opcode) :
    ∃ info ∈ instrTable, lookup opcode = some info ∧ info.opcode = opcode := by
  obtain ⟨info, hinfo, hlookup⟩ := lookup_of_decodeOpcode h
  have hfound := List.find?_some hlookup
  exact ⟨info, hinfo, hlookup, (of_decide_eq_true hfound).symm⟩

-- The record of a word that selects an instruction.
theorem decode_of_opcode (ip : Instruction) (addr : BitVec 32) (hinfo : info ∈ instrTable)
    (htype : info.type ≠ .ntyp) (hop : decodeOpcode ip.value = some info.opcode) :
    ∃ ip', decode ip addr = .ok ip' ∧ ip'.info = some info ∧
      ∀ j, ip'.args j = fieldOf info addr ip.value (info.srcs j) := by
  have hdecode := decode_eq ip addr
  have hword : decodeWord addr ip.value = some (info, ![fieldOf info addr ip.value (info.srcs 0),
      fieldOf info addr ip.value (info.srcs 1), fieldOf info addr ip.value (info.srcs 2)]) := by
    simp only [decodeWord, hop, lookup_opcode info hinfo htype, decodeArgs,
      decodeArg_eq_fieldOf htype, Option.bind_eq_bind, Option.bind_some, Option.pure_def]
  simp only [hword] at hdecode
  obtain ⟨ip', hip, hinfo', hargs⟩ := hdecode
  refine ⟨ip', hip, hinfo', fun j => ?_⟩
  rw [hargs]
  fin_cases j
  · rfl
  · rfl
  · rfl

theorem opUnimp_iff (value : BitVec 32) :
    decodeOpcode value = some .opUnimp ↔ opcodeTable[(value.extractLsb' 26 6).toNat]? =
      some .opUnimp := by
  obtain ⟨htop, -, -⟩ := fields_eq value
  have htable : opcodeTable[(value >>> 26).toNat]? =
      some (opcodeTable.getD (value >>> 26).toNat .illegl) := by
    refine getElem?_of_lt ?_
    rw [← htop]
    exact (value.extractLsb' 26 6).isLt
  rw [htop, htable, Option.some.injEq, decodeOpcode]
  constructor
  · intro h
    simp only at h
    split at h
    · split at h
      · cases h
      · rename_i hne
        have hmem := getD_mem hne
        rw [Option.some.inj h] at hmem
        exact absurd hmem tables_ntyp.2.2
    · split at h
      · repeat' split at h
        all_goals cases h
      · split at h
        · exact Option.some.inj h
        · cases h
  · intro h
    simp only [h, reduceCtorEq, if_false, ne_eq, not_false_eq_true, if_true]

-- No word has the opcode rfe.
theorem decodeOpcode_ne {opcode : Opcode} (h : decodeOpcode value = some opcode) :
    ¬(opcode = .illegl ∨ opcode = .opRfe) := by
  unfold decodeOpcode at h
  simp only at h
  split at h
  · split at h
    · cases h
    · rename_i hne
      obtain rfl := Option.some.inj h
      rintro (hopcode | hopcode)
      · exact hne hopcode
      · exact tables_ntyp.2.1 (hopcode ▸ getD_mem hne)
  · split at h
    · repeat' split at h
      all_goals cases h
      all_goals simp
    · split at h
      · rename_i hne
        obtain rfl := Option.some.inj h
        rintro (hopcode | hopcode)
        · exact hne hopcode
        · exact tables_ntyp.1 (hopcode ▸ getD_mem hne)
      · cases h

-- decode is exact but for the words that select the entry of unimplemented
-- instructions.
theorem decodesExactly_iff (ip : Instruction) (addr : BitVec 32) :
    DecodesExactly ip addr ↔ opcodeTable[(ip.value.extractLsb' 26 6).toNat]? ≠ some .opUnimp := by
  rw [ne_eq, ← opUnimp_iff]
  constructor
  · intro h hop
    have hlookup : lookup .opUnimp =
        some ⟨.opUnimp, .ntyp, ![.nsrc, .nsrc, .nsrc], "Unimplemented"⟩ := by
      decide +kernel
    rcases h with ⟨info, hselects, -⟩ | ⟨-, hrejected⟩
    · obtain ⟨hinfo, htype, -⟩ := id hselects
      have hopcode := (selects_iff hinfo htype).mp hselects
      rw [hop] at hopcode
      exact htype ((instrTable_ntyp info hinfo).mpr
        (Or.inr (Or.inr (Option.some.inj hopcode).symm)))
    · have hdecode := decode_eq ip addr
      have hword : decodeWord addr ip.value =
          some (⟨.opUnimp, .ntyp, ![.nsrc, .nsrc, .nsrc], "Unimplemented"⟩, ![0, 0, 0]) := by
        rw [decodeWord, hop]
        simp only [Option.bind_eq_bind, Option.bind_some, hlookup]
        rfl
      simp only [hword, hrejected] at hdecode
      obtain ⟨ip', hip, -⟩ := hdecode
      cases hip
  · intro hop
    cases hdecoded : decodeOpcode ip.value with
    | none =>
        right
        refine ⟨fun info hselects => ?_, ?_⟩
        · have hopcode := (selects_iff hselects.1 hselects.2.1).mp hselects
          rw [hdecoded] at hopcode
          cases hopcode
        · rw [decode, hdecoded]
    | some opcode =>
        left
        obtain ⟨info, hinfo, -, rfl⟩ := lookup_spec hdecoded
        have htype : info.type ≠ .ntyp := by
          intro h
          rcases (instrTable_ntyp info hinfo).mp h with h | h | h
          · rw [h] at hdecoded
            exact decodeOpcode_ne hdecoded (Or.inl rfl)
          · rw [h] at hdecoded
            exact decodeOpcode_ne hdecoded (Or.inr rfl)
          · exact hop (hdecoded.trans (congrArg some h))
        exact ⟨info, (selects_iff hinfo htype).mpr hdecoded,
          decode_of_opcode ip addr hinfo htype hdecoded⟩

-- A coprocessor instruction is accepted and printed as Unimplemented.
theorem not_decodesExactly_of_coprocessor :
    ¬DecodesExactly { Instruction.zero with value := 0x40000000 } 0 :=
  fun h => (decodesExactly_iff _ _).mp h (by decide)

-- The offset that encode makes of a target.
theorem jump_offset (x : BitVec 32) :
    (x.sshiftRight 2 &&& 0x3FFFFFF).toNat = x.toNat % 2 ^ 28 / 4 := by
  have hshift : x.sshiftRight 2 &&& (0x3FFFFFF : BitVec 32) = (x >>> 2) &&& 0x3FFFFFF := by
    ext i hi
    interval_cases i <;> simp [BitVec.getElem_sshiftRight]
  rw [hshift, BitVec.toNat_and, BitVec.toNat_ushiftRight, Nat.shiftRight_eq_div_pow]
  refine (Nat.and_two_pow_sub_one_eq_mod _ 26).trans ?_
  omega

theorem jump_target (value addr : BitVec 32) :
    region ((value &&& 0x03FFFFFF) <<< 2 + region (addr + 4)) = region (addr + 4) ∧
      ((value &&& 0x03FFFFFF) <<< 2 + region (addr + 4) - region (addr - 4)).sshiftRight 2 &&&
        0x3FFFFFF =
        value &&& 0x3FFFFFF := by
  have hfield : ((value &&& 0x03FFFFFF) <<< 2).toNat = value.toNat % 2 ^ 26 * 4 := by
    rw [BitVec.toNat_shiftLeft, BitVec.toNat_and, Nat.shiftLeft_eq]
    have hmod : value.toNat &&& (0x03FFFFFF : BitVec 32).toNat = value.toNat % 2 ^ 26 :=
      Nat.and_two_pow_sub_one_eq_mod _ 26
    rw [hmod]
    omega
  have hnext := region_toNat (addr + 4)
  have hprev := region_toNat (addr - 4)
  have hlt := (addr + 4).isLt
  have hlt' := (addr - 4).isLt
  constructor
  · apply BitVec.eq_of_toNat_eq
    rw [region_toNat, BitVec.toNat_add, hfield, hnext]
    omega
  · apply BitVec.eq_of_toNat_eq
    have hmod : (value &&& 0x3FFFFFF).toNat = value.toNat % 2 ^ 26 := by
      rw [BitVec.toNat_and]
      exact Nat.and_two_pow_sub_one_eq_mod _ 26
    rw [jump_offset, hmod, BitVec.toNat_sub, BitVec.toNat_add, hfield, hnext, hprev]
    omega

theorem region_next {addr : BitVec 32} (haddr : addr.toNat % 4 = 0) :
    region addr = region (addr + 4) ↔ addr.toNat % 2 ^ 28 ≠ 2 ^ 28 - 4 := by
  have hlt := addr.isLt
  rw [← BitVec.toNat_inj, region_toNat, region_toNat, BitVec.toNat_add,
    show (4 : BitVec 32).toNat = 4 from rfl]
  omega

-- A jump that is decoded is encoded as the same word if and only if it is not the
-- last word of its region.
theorem encode_jump_iff (ip : Instruction) (haddr : addr.toNat % 4 = 0)
    (hjump : ip.value >>> 26 = 2 ∨ ip.value >>> 26 = 3) :
    (∃ ip', decode ip addr = .ok ip' ∧ ∃ ip'', encode ip' addr = .ok ip'' ∧ ip''.value = ip.value) ↔
      addr.toNat % 2 ^ 28 ≠ 2 ^ 28 - 4 := by
  obtain ⟨info, hinfo, hop, htype, hsrcs⟩ :
      ∃ info ∈ instrTable, decodeOpcode ip.value = some info.opcode ∧
      info.type = .jtyp ∧ info.srcs = ![.extra, .nsrc, .nsrc] := by
    rcases hjump with h | h
    · exact ⟨_, List.mem_of_getElem? (i := 18) rfl, by rw [decodeOpcode, h]; rfl, rfl, rfl⟩
    · exact ⟨_, List.mem_of_getElem? (i := 19) rfl, by rw [decodeOpcode, h]; rfl, rfl, rfl⟩
  have hmask : opcodeMask ip.value = 0xFC000000 := by
    rcases hjump with h | h
    · rw [opcodeMask, h]
      rfl
    · rw [opcodeMask, h]
      rfl
  have hntyp : info.type ≠ .ntyp := by simp [htype]
  have hbreak : info.opcode ≠ .opBreak := fun h => by
    simp [(instrTable_opcodes info hinfo).2.1 h] at htype
  have hshared : info.opcode ∉ [Opcode.opBltz, .opBgez, .opBltzal, .opBgezal] := fun h => by
    simp [isBranch_of_bcond info hinfo h] at htype
  have hbits := opcodeBits_of_unshared hinfo hntyp hshared hop
  rw [hmask] at hbits
  obtain ⟨ip', hdecode, hinfo', hargs⟩ := decode_of_opcode ip addr hinfo hntyp hop
  obtain ⟨hregion, hoffset⟩ := jump_target ip.value addr
  have htarget : fieldOf info addr ip.value .extra =
      (ip.value &&& 0x03FFFFFF) <<< 2 + region (addr + 4) := by
    have harg := decodeArg_eq_fieldOf hntyp addr ip.value .extra
    simp only [decodeArg, decodeExtra, hbreak, if_false, htype, Option.some.injEq] at harg
    exact harg.symm
  have hextra : ip'.extra = fieldOf info addr ip.value .extra := by
    obtain ⟨info', -, hinfo'', -, -, -, hextra⟩ := decode_eq_ok hdecode
    obtain rfl := Option.some.inj (hinfo'.symm.trans hinfo'')
    have hzero := hextra 0 (by rw [hsrcs]; rfl)
    rw [hzero, hargs, hsrcs]
    rfl
  have hfields (j : Fin 3) : encodeArg info ip'.extra addr (info.srcs j) (ip'.args j) =
      if j = 0 then (if region (addr + 4) = region addr then some (ip.value &&& 0x3FFFFFF)
        else none) else some 0 := by
    rw [hargs, hextra, hsrcs]
    fin_cases j
    · have hpc : (fieldOf info addr ip.value .extra &&& 0xF0000000) = region (addr + 4) := by
        rw [htarget]
        exact hregion
      show encodeArg info (fieldOf info addr ip.value .extra) addr .extra
        (fieldOf info addr ip.value .extra) = _
      simp only [encodeArg, encodeExtra, hbreak, if_false, htype, ne_eq, ite_not]
      rw [hpc, htarget]
      simp only [region] at hoffset ⊢
      rw [hoffset]
      rfl
    · rfl
    · rfl
  have hvalue : encodeInfo info ip'.extra addr ip'.args = some ip.value ↔
      region (addr + 4) = region addr := by
    rw [encodeInfo_eq_some]
    constructor
    · rintro ⟨-, -, -, fields, hfields', -⟩
      have hzero := (hfields 0).symm.trans (hfields' 0)
      by_contra hne
      rw [if_pos rfl, if_neg hne] at hzero
      cases hzero
    · intro hsame
      refine ⟨hntyp, _, hbits, ![ip.value &&& 0x3FFFFFF, 0, 0], fun j => ?_, ?_⟩
      · rw [hfields, if_pos hsame]
        fin_cases j
        · rfl
        · rfl
        · rfl
      · ext i hi
        interval_cases i <;> simp
  rw [← region_next haddr, eq_comm (a := region addr), ← hvalue]
  constructor
  · rintro ⟨ip₁, hip₁, ip'', hencode, hsame⟩
    obtain rfl := Except.ok.inj (hdecode.symm.trans hip₁)
    rw [← hsame]
    exact ((encode_eq_ok hinfo').mp hencode).1
  · intro h
    exact ⟨ip', hdecode, { ip' with value := ip.value }, (encode_eq_ok hinfo').mpr ⟨h, rfl⟩, rfl⟩

theorem encode_jump_of_low : ∃ ip', decode
    { Instruction.zero with value := 0x08000400 } 0x40000000 = .ok ip' ∧
    ∃ ip'', encode ip' 0x40000000 = .ok ip'' ∧ ip''.value = 0x08000400 :=
  (encode_jump_iff { Instruction.zero with value :=
    0x08000400 } (by decide) (Or.inl (by decide))).mpr (by decide)

-- The jump in the last word of a region goes to the next one.
theorem not_encode_jump_of_last :
    ¬∃ ip', decode { Instruction.zero with value := 0x08000400 } 0x4FFFFFFC = .ok ip' ∧
      ∃ ip'', encode ip' 0x4FFFFFFC = .ok ip'' ∧ ip''.value = 0x08000400 := by
  intro h
  exact (encode_jump_iff { Instruction.zero with value :=
    0x08000400 } (by decide) (Or.inl (by decide))).mp h (by decide)

end CSE320.Mips
