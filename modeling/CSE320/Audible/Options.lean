import CSE320.Lib.Format
import Mathlib.Tactic.IntervalCases

namespace CSE320.Audible

open Lib (Byte ascii)

-- A string is the list of its characters without the NUL at its end.
def stringEquals : List Byte → List Byte → Bool
  | [], [] => true
  | c :: word1, d :: word2 => c = d && stringEquals word1 word2
  | _, _ => false

-- The numeral stops at the first character that is no digit.
def decDigits (num : BitVec 32) : List Byte → BitVec 32 × List Byte
  | [] => (num, [])
  | c :: str =>
    if 47 < c.toInt ∧ c.toInt < 58 then decDigits (num * 10 + (c.signExtend 32 - 48)) str
      else (num, c :: str)

def decStrToDec (str : List Byte) : BitVec 32 :=
  let (sign, str) : BitVec 32 × List Byte :=
    match str with
    | c :: rest => if c = 45 then (-1, rest) else (1, c :: rest)
    | [] => (1, [])
  let (num, str) := decDigits 0 str
  if str = [] then num * sign else -1

-- The result of the call and the global_options that it leaves.
def factor (options : BitVec 64) (str : List Byte) : Bool × BitVec 64 :=
  let decimalValue := (decStrToDec str).signExtend 64
  if 0 < decimalValue.toInt ∧ decimalValue.toInt < 1025 then
    (true, options ||| (decimalValue - 1) <<< 48)
  else (false, 0)

def isHexChar (c : Byte) : Bool :=
  (47 < c.toInt && c.toInt < 58) || (64 < c.toInt && c.toInt < 71) ||
    (96 < c.toInt && c.toInt < 103)

def isHex (str : List Byte) : Bool := str.all isHexChar

def hexDigits (num : BitVec 32) : List Byte → BitVec 32
  | [] => num
  | c :: str =>
    if 47 < c.toInt ∧ c.toInt < 58 then hexDigits (num * 16 + (c.signExtend 32 - 48)) str
    else if 64 < c.toInt ∧ c.toInt < 71 then hexDigits (num * 16 + (c.signExtend 32 - 65 + 10)) str
    else if 96 < c.toInt ∧ c.toInt < 103 then hexDigits (num * 16 + (c.signExtend 32 - 97 + 10)) str
    else -1

def hexStrToDec (str : List Byte) : BitVec 32 := hexDigits 0 str

-- An unsigned number is never negative.
def key (options : BitVec 64) (str : List Byte) : Bool × BitVec 64 :=
  let num := hexStrToDec str
  if str.length > 8 || !isHex str then (false, 0) else (true, options ||| num.setWidth 64)

def optionP : BitVec 64 := 0x0800000000000000

-- The arguments behind -u and -d.
def speed (options : BitVec 64) : List (List Byte) → Bool × BitVec 64
  | [arg2] =>
      if stringEquals (ascii "-p") arg2 then (true, options ||| optionP) else (false, options)
  | [arg2, arg3] => if stringEquals (ascii "-f") arg2 then factor options arg3 else (false, options)
  | [arg2, arg3, arg4] =>
    if stringEquals (ascii "-p") arg2 && stringEquals (ascii "-f") arg3 then
      factor (options ||| optionP) arg4
    else if stringEquals (ascii "-p") arg4 && stringEquals (ascii "-f") arg2 then
      factor (options ||| optionP) arg3
    else (false, options)
  | _ => (false, options)

-- The arguments behind -c.
def crypt (options : BitVec 64) : List (List Byte) → Bool × BitVec 64
  | [arg2, arg3] => if stringEquals (ascii "-k") arg2 then key options arg3 else (false, options)
  | [arg2, arg3, arg4] =>
    if stringEquals (ascii "-p") arg2 && stringEquals (ascii "-k") arg3 then
      key (options ||| optionP) arg4
    else if stringEquals (ascii "-p") arg4 && stringEquals (ascii "-k") arg2 then
      key (options ||| optionP) arg3
    else (false, options)
  | _ => (false, options)

def optionH : BitVec 64 := 0x8000000000000000

def optionU : BitVec 64 := 0x4000000000000000

def optionD : BitVec 64 := 0x2000000000000000

def optionC : BitVec 64 := 0x1000000000000000

-- The result and global_options. The first string is the name of the program.
def validargs : List (List Byte) → Bool × BitVec 64
  | _ :: arg1 :: rest =>
    if stringEquals (ascii "-h") arg1 then (true, optionH)
    else if stringEquals (ascii "-u") arg1 then if rest = [] then (true, optionU)
      else speed optionU rest
    else if stringEquals (ascii "-d") arg1 then if rest = [] then (true, optionD)
      else speed optionD rest
    else if stringEquals (ascii "-c") arg1 then crypt optionC rest
    else (false, 0)
  | _ => (false, 0)

-- Exactly one of the three modes is set.
def OneMode (options : BitVec 64) : Prop :=
  (options &&& optionU ≠ 0 ∧ options &&& optionD = 0 ∧ options &&& optionC = 0) ∨
    (options &&& optionU = 0 ∧ options &&& optionD ≠ 0 ∧ options &&& optionC = 0) ∨
    (options &&& optionU = 0 ∧ options &&& optionD = 0 ∧ options &&& optionC ≠ 0)

def optionModes : BitVec 64 := 0x7000000000000000

theorem oneMode_of_and {options : BitVec 64}
    (h : options &&& optionModes = optionU ∨ options &&& optionModes = optionD ∨
      options &&& optionModes = optionC) :
    OneMode options := by
  have hmask (mode : BitVec 64) (hmode : optionModes &&& mode = mode) :
      options &&& mode = options &&& optionModes &&& mode := by
    rw [BitVec.and_assoc, hmode]
  rw [OneMode, hmask optionU (by decide), hmask optionD (by decide), hmask optionC (by decide)]
  rcases h with h | h | h <;> rw [h] <;> decide

-- The factor takes the bits from 48 to 57.
theorem factor_modes {options options' : BitVec 64} {str : List Byte}
    (h : factor options str = (true, options')) :
    options' &&& optionModes = options &&& optionModes := by
  unfold factor at h
  simp only at h
  split at h
  · rename_i hrange
    obtain ⟨-, rfl⟩ := Prod.mk.inj h
    generalize (decStrToDec str).signExtend 64 = value at hrange
    have hlow : (value - 1) &&& 0x3FF = value - 1 := by
      have hlt := value.isLt
      have hvalue : 0 < value.toNat ∧ value.toNat < 1025 := by
        rw [BitVec.toInt_eq_toNat_cond] at hrange
        split at hrange <;> omega
      have hpred : (value - 1).toNat = value.toNat - 1 := by
        rw [BitVec.toNat_sub]
        show (2 ^ 64 - 1 + value.toNat) % 2 ^ 64 = _
        omega
      apply BitVec.eq_of_toNat_eq
      rw [BitVec.toNat_and, hpred]
      exact (Nat.and_two_pow_sub_one_eq_mod _ 10).trans (Nat.mod_eq_of_lt (by omega))
    have hzero : (value - 1) <<< 48 &&& optionModes = 0 := by
      rw [← hlow, optionModes]
      ext i hi
      interval_cases i <;> simp
    rw [BitVec.and_or_distrib_right, hzero]
    exact BitVec.or_zero
  · cases h

theorem key_modes {options options' : BitVec 64} {str : List Byte}
    (h : key options str = (true, options')) :
    options' &&& optionModes = options &&& optionModes := by
  unfold key at h
  simp only at h
  split at h
  · cases h
  · obtain ⟨-, rfl⟩ := Prod.mk.inj h
    have hzero (num : BitVec 32) : num.setWidth 64 &&& optionModes = 0 := by
      unfold optionModes
      ext i hi
      interval_cases i <;> simp
    rw [BitVec.and_or_distrib_right, hzero]
    exact BitVec.or_zero

theorem optionP_modes (options : BitVec 64) :
    (options ||| optionP) &&& optionModes = options &&& optionModes := by
  rw [BitVec.and_or_distrib_right]
  exact BitVec.or_zero

theorem speed_modes {options options' : BitVec 64} {rest : List (List Byte)}
    (h : speed options rest = (true, options')) :
    options' &&& optionModes = options &&& optionModes := by
  unfold speed at h
  split at h
  · split at h
    · obtain ⟨-, rfl⟩ := Prod.mk.inj h
      exact optionP_modes options
    · cases h
  · split at h
    · exact factor_modes h
    · cases h
  · split at h
    · rw [factor_modes h, optionP_modes]
    · split at h
      · rw [factor_modes h, optionP_modes]
      · cases h
  · cases h

theorem crypt_modes {options options' : BitVec 64} {rest : List (List Byte)}
    (h : crypt options rest = (true, options')) :
    options' &&& optionModes = options &&& optionModes := by
  unfold crypt at h
  split at h
  · split at h
    · exact key_modes h
    · cases h
  · split at h
    · rw [key_modes h, optionP_modes]
    · split at h
      · rw [key_modes h, optionP_modes]
      · cases h
  · cases h

theorem oneMode_of_validargs {argv : List (List Byte)} {options : BitVec 64}
    (h : validargs argv = (true, options)) (hhelp : options ≠ optionH) : OneMode options := by
  unfold validargs at h
  refine oneMode_of_and ?_
  split at h
  · rename_i arg1 rest
    split at h
    · exact absurd (Prod.mk.inj h).2.symm hhelp
    · split at h
      · left
        split at h
        · obtain ⟨-, rfl⟩ := Prod.mk.inj h
          decide
        · exact speed_modes h
      · split at h
        · right
          left
          split at h
          · obtain ⟨-, rfl⟩ := Prod.mk.inj h
            decide
          · exact speed_modes h
        · split at h
          · right
            right
            exact crypt_modes h
          · cases h
  · cases h

-- A mode excludes the other ones.
theorem only_mode {argv : List (List Byte)} {options : BitVec 64}
    (h : validargs argv = (true, options)) :
    (options &&& optionU ≠ 0 → options &&& optionD = 0 ∧ options &&& optionC = 0) ∧
      (options &&& optionD ≠ 0 → options &&& optionU = 0 ∧ options &&& optionC = 0) := by
  by_cases hhelp : options = optionH
  · subst hhelp
    exact ⟨fun hu => absurd (by decide) hu, fun hd => absurd (by decide) hd⟩
  · rcases oneMode_of_validargs h hhelp with ⟨hu, hd, hc⟩ | ⟨hu, hd, hc⟩ | ⟨hu, hd, hc⟩
    · exact ⟨fun _ => ⟨hd, hc⟩, fun hne => absurd hd hne⟩
    · exact ⟨fun hne => absurd hu hne, fun _ => ⟨hu, hc⟩⟩
    · exact ⟨fun hne => absurd hu hne, fun hne => absurd hd hne⟩

end CSE320.Audible
