import CSE320.Mips.Main
import Mathlib.Tactic.IntervalCases

namespace CSE320.Mips

open Lib (Byte ascii)

theorem strToI_zeros (result : BitVec 32) {num : List Byte} (hne : num ≠ [])
    (h : ∀ c ∈ num, c = 48) :
    strToI result num = result <<< (4 * (num.length - 1)) := by
  have hdigit : Lib.isDigit 16 48 = true ∧ BitVec.ofNat 32 (Lib.digitVal 48) = 0#32 := by decide
  induction num generalizing result with
  | nil => exact absurd rfl hne
  | cons c num ih =>
      obtain rfl : c = 48 := h c List.mem_cons_self
      rw [strToI, if_pos hdigit.1, hdigit.2]
      cases num with
      | nil => simp
      | cons d num =>
          rw [if_neg (List.cons_ne_nil d num),
            ih _ (List.cons_ne_nil d num) fun b hb => h b (List.mem_cons_of_mem _ hb),
            BitVec.add_zero, ← BitVec.shiftLeft_add]
          congr 1
          simp only [List.length_cons]
          omega

-- The digits in front are in the upper bits of the result.
theorem strToI_append (result : BitVec 32) {front back : List Byte} (hback : back ≠ [])
    (h : ∀ c ∈ front, Lib.isDigit 16 c = true) :
    ∃ upper : BitVec 32, strToI result (front ++ back) =
      strToI (if front = [] then result else upper <<< 4) back := by
  induction front generalizing result with
  | nil => exact ⟨0, rfl⟩
  | cons c front ih =>
      obtain ⟨upper, hupper⟩ := ih ((result + BitVec.ofNat 32 (Lib.digitVal c)) <<< 4)
        fun b hb => h b (List.mem_cons_of_mem c hb)
      rw [List.cons_append, strToI, if_pos (h c List.mem_cons_self),
        if_neg (by simp [hback]), hupper]
      split
      · exact ⟨_, rfl⟩
      · exact ⟨_, rfl⟩

-- A base address ends with twelve zero bits.
theorem strToI_validBase {num : List Byte} (h : validBase num = true) :
    strToI 0 num &&& 0xFFF = 0 := by
  simp only [validBase, Bool.and_eq_true, List.all_eq_true] at h
  obtain ⟨⟨-, hdigits⟩, hzeros⟩ := h
  unfold lastThreeZero at hzeros
  split at hzeros
  · cases hzeros
  · rename_i hlen
    simp only [List.all_eq_true, decide_eq_true_eq] at hzeros
    split at hzeros
    · rename_i hlong
      have hback : (num.drop (num.length - 3)).length = 3 := by
        rw [List.length_drop]
        omega
      have hne : num.drop (num.length - 3) ≠ [] := fun hnil => by simp [hnil] at hback
      have hfront : num.take (num.length - 3) ≠ [] := by
        intro hnil
        have hlength := congrArg List.length hnil
        rw [List.length_take, List.length_nil] at hlength
        omega
      obtain ⟨upper, hupper⟩ := strToI_append 0 hne fun c hc => hdigits c (List.mem_of_mem_take hc)
      rw [List.take_append_drop, if_neg hfront, strToI_zeros _ hne hzeros, hback] at hupper
      rw [hupper, ← BitVec.shiftLeft_add]
      apply BitVec.eq_of_toNat_eq
      rw [BitVec.toNat_and, BitVec.toNat_shiftLeft, Nat.shiftLeft_eq]
      refine (Nat.and_two_pow_sub_one_eq_mod _ 12).trans ?_
      show _ = 0
      omega
    · have hne : num ≠ [] := fun hnil => by simp [hnil] at hlen
      rw [strToI_zeros 0 hne hzeros]
      simp

theorem endianness_or (options options' : BitVec 32) (arg : List Byte) :
    endianness (options ||| options') arg = (endianness options' arg).map (options ||| ·) := by
  unfold endianness
  split
  · simp [BitVec.or_assoc]
  · split <;> rfl

theorem baseAddress_or (options options' : BitVec 32) (arg : List Byte) :
    baseAddress (options ||| options') arg = (baseAddress options' arg).map (options ||| ·) := by
  unfold baseAddress
  split
  · simp [BitVec.or_assoc]
  · rfl

-- The option for the mode plays no part in the other arguments.
theorem modeArgs_or (options options' : BitVec 32) (rest : List (List Byte)) :
    modeArgs (options ||| options') rest = (modeArgs options' rest).map (options ||| ·) := by
  unfold modeArgs
  split
  · rfl
  · split
    · exact baseAddress_or ..
    · split
      · exact endianness_or ..
      · rfl
  · split
    · rw [endianness_or]
      cases endianness options' _ with
      | none => rfl
      | some o => exact baseAddress_or ..
    · split
      · rw [baseAddress_or]
        cases baseAddress options' _ with
        | none => rfl
        | some o => exact endianness_or ..
      · rfl
  · rfl

-- Behind the base address there is only the bit for big-endian.
theorem modeArgs_low {rest : List (List Byte)} {options : BitVec 32}
    (h : modeArgs 0 rest = some options) :
    options &&& 0xFFB = 0 := by
  have hendian {o o' : BitVec 32} {arg : List Byte} (ho : o &&& 0xFFB = 0)
      (h : endianness o arg = some o') :
      o' &&& 0xFFB = 0 := by
    unfold endianness at h
    split at h
    · cases h
      rw [BitVec.and_or_distrib_right, ho]
      rfl
    · split at h
      · cases h
        exact ho
      · cases h
  have hbase {o o' : BitVec 32} {arg : List Byte} (ho : o &&& 0xFFB = 0)
      (h : baseAddress o arg = some o') :
      o' &&& 0xFFB = 0 := by
    unfold baseAddress at h
    split at h
    · rename_i hvalid
      have hmask : (0xFFB : BitVec 32) = 0xFFF &&& 0xFFB := by decide
      cases h
      rw [BitVec.and_or_distrib_right, ho, hmask, ← BitVec.and_assoc, strToI_validBase hvalid]
      decide
    · cases h
  have hzero : (0 : BitVec 32) &&& 0xFFB = 0 := by decide
  unfold modeArgs at h
  split at h
  · cases h
    exact hzero
  · split at h
    · exact hbase hzero h
    · split at h
      · exact hendian hzero h
      · cases h
  · split at h
    · obtain ⟨o, ho, h⟩ := Option.bind_eq_some_iff.mp h
      exact hbase (hendian hzero ho) h
    · split at h
      · obtain ⟨o, ho, h⟩ := Option.bind_eq_some_iff.mp h
        exact hendian (hbase hzero ho) h
      · cases h
  · cases h

def baseOf (options : BitVec 32) : BitVec 32 := options &&& 0xFFFFF000

def isBigEndian (options : BitVec 32) : Bool := decide ((options >>> 2) &&& 1 ≠ 0)

-- The same arguments behind -a and -d give the same base and the same byte order.
theorem main_modes {rest : List (List Byte)} {options : BitVec 32}
    (h : validargs (ascii "-a" :: rest) = some options) (stdin : List Byte) :
    main (ascii "-a" :: rest) stdin = assemble (isBigEndian options) (baseOf options) stdin ∧
      main (ascii "-d" :: rest) stdin =
        disassemble (isBigEndian options) (baseOf options) stdin := by
  have hargs : modeArgs 0 rest = some options := by
    rw [← h, validargs, if_neg (by decide +kernel), if_pos rfl]
  have hargs' : validargs (ascii "-d" :: rest) = some (2 ||| options) := by
    have hor := modeArgs_or 2 0 rest
    rw [validargs, if_neg (by decide +kernel), if_neg (by decide +kernel), if_pos rfl]
    rw [hargs] at hor
    exact hor
  have hlow := modeArgs_low hargs
  have hzero : options[0] = false := by
    simpa using congrArg (·.getLsbD 0) hlow
  have hone : options[1] = false := by
    simpa using congrArg (·.getLsbD 1) hlow
  have hhelp : options &&& 1 = 0 ∧ (2 ||| options) &&& 1 = 0 := by
    constructor
    all_goals
      ext i hi
      interval_cases i <;> simp [hzero]
  have hmode : (options >>> 1) &&& 1 = 0 ∧ ((2 ||| options) >>> 1) &&& 1 = 1 := by
    constructor
    all_goals
      ext i hi
      interval_cases i <;> simp [hone]
  have hbase : (2 ||| options) &&& 0xFFFFF000 = options &&& 0xFFFFF000 := by
    ext i hi
    interval_cases i <;> simp
  have hendian : ((2 ||| options) >>> 2) &&& (1 : BitVec 32) = (options >>> 2) &&& 1 := by
    ext i hi
    interval_cases i <;> simp
  constructor
  · simp only [main, h, hhelp.1, hmode.1, ne_eq, not_true_eq_false, if_false]
    rfl
  · have hne : ¬(1 : BitVec 32) = 0 := by decide
    simp only [main, hargs', hhelp.2, hmode.2, hbase, hendian, ne_eq, not_true_eq_false, hne,
      not_false_iff, if_false, if_true]
    rfl

end CSE320.Mips
