import CSE320.Lib.Format
import Mathlib.Data.List.Induction
import Mathlib.Data.List.TakeWhile
import Mathlib.Tactic.IntervalCases

namespace CSE320.Lib

-- A string of digits and its value.
def digits (base : Nat) (str : List Byte) : Option Nat :=
  if str.all (isDigit base) then some (readNat base str) else none

-- The decimal numbers that are not negative.
def decimal (str : List Byte) : Option Nat := if str = [] then none else digits 10 str

-- Decimal digits behind a minus, or without one. There may be no digits at all.
def numeral (str : List Byte) : Option Int :=
  match str with
  | [] => some 0
  | c :: rest =>
      if c = 45 then (digits 10 rest).map fun (n : Nat) => -(n : Int)
      else (digits 10 (c :: rest)).map Int.ofNat

-- The digits at the front, accumulated in a word, and what is behind them.
def scanDigits (base : Nat) (num : BitVec 32) : List Byte → BitVec 32 × List Byte
  | [] => (num, [])
  | c :: str =>
    if isDigit base c then
      scanDigits base (num * BitVec.ofNat 32 base + BitVec.ofNat 32 (digitVal c)) str
    else (num, c :: str)

-- A minus and the digits behind it, in a word. Other strings give -1.
def scanNumeral (str : List Byte) : BitVec 32 :=
  let (sign, str) : BitVec 32 × List Byte :=
    match str with
    | c :: rest => if c = 45 then (-1, rest) else (1, c :: rest)
    | [] => (1, [])
  let (num, str) := scanDigits 10 0 str
  if str = [] then num * sign else -1

section

variable {base : Nat} {str : List Byte}

theorem digits_eq_some {n : Nat} : digits base str = some n ↔ str.all
    (isDigit base) = true ∧ readNat base str = n := by
  unfold digits
  split
  · rename_i hall
    simp [hall]
  · rename_i hall
    simp [hall]

theorem scanDigits_eq (num : Nat) :
    scanDigits base (BitVec.ofNat 32 num) str =
      (BitVec.ofNat 32 ((str.takeWhile (isDigit base)).foldl
        (fun n c => n * base + digitVal c) num), str.dropWhile (isDigit base)) := by
  induction str generalizing num with
  | nil => rfl
  | cons c str ih =>
      rw [scanDigits]
      split
      · rename_i hdigit
        rw [← BitVec.ofNat_mul, ← BitVec.ofNat_add, ih, List.takeWhile_cons_of_pos hdigit,
          List.dropWhile_cons_of_pos hdigit]
        rfl
      · rename_i hdigit
        rw [List.takeWhile_cons_of_neg hdigit, List.dropWhile_cons_of_neg hdigit]
        rfl

-- Nothing is left behind the digits exactly when there is nothing else.
theorem scanDigits_zero :
    scanDigits base 0 str = (BitVec.ofNat 32 (readNat base (str.takeWhile (isDigit base))),
      str.dropWhile (isDigit base)) := scanDigits_eq 0

theorem dropWhile_isDigit_eq_nil : str.dropWhile (isDigit base) = [] ↔ str.all
    (isDigit base) = true := by
  rw [List.dropWhile_eq_nil_iff, List.all_eq_true]

theorem scanDigits_of_digits {n : Nat} (h : digits base str = some n) :
    scanDigits base 0 str = (BitVec.ofNat 32 n, []) := by
  obtain ⟨hall, rfl⟩ := digits_eq_some.mp h
  rw [scanDigits_zero, dropWhile_isDigit_eq_nil.mpr hall,
    List.takeWhile_eq_self_iff.mpr (List.all_eq_true.mp hall)]

theorem scanDigits_of_not_digits (h : digits base str = none) : (scanDigits base 0 str).2 ≠ [] := by
  intro hnil
  rw [scanDigits_zero] at hnil
  rw [digits, if_pos (dropWhile_isDigit_eq_nil.mp hnil)] at h
  cases h

end

-- The value of a numeral modulo 2 ^ 32.
theorem scanNumeral_eq (str : List Byte) :
    scanNumeral str = match numeral str with | some v => BitVec.ofInt 32 v | none => -1 := by
  have hscan (sign : BitVec 32) (rest : List Byte) :
      (if (scanDigits 10 0 rest).2 = [] then (scanDigits 10 0 rest).1 * sign else -1) =
        match digits 10 rest with | some n => BitVec.ofNat 32 n * sign | none => -1 := by
    cases hdigits : digits 10 rest with
    | some n => rw [scanDigits_of_digits hdigits, if_pos rfl]
    | none => rw [if_neg (scanDigits_of_not_digits hdigits)]
  cases str with
  | nil => rfl
  | cons c rest =>
      unfold scanNumeral numeral
      by_cases hminus : c = 45
      · simp only [if_pos hminus]
        rw [hscan]
        cases digits 10 rest with
        | none => rfl
        | some n =>
            show BitVec.ofNat 32 n * -1#32 = BitVec.ofInt 32 (-(n : Int))
            rw [BitVec.mul_neg, BitVec.mul_one, BitVec.ofInt_neg, BitVec.ofInt_natCast]
      · simp only [if_neg hminus]
        rw [hscan]
        cases digits 10 (c :: rest) with
        | none => rfl
        | some n => simp

theorem scanNumeral_of_digits {str : List Byte} {n : Nat} (h : digits 10 str = some n) :
    (scanNumeral str).toNat = n % 2 ^ 32 := by
  have hvalue : numeral str = some (n : Int) := by
    unfold numeral
    split
    · obtain ⟨-, rfl⟩ := digits_eq_some.mp h
      rfl
    · rename_i c rest
      have hminus : c ≠ 45 := by
        rintro rfl
        have hall := (digits_eq_some.mp h).1
        simp only [List.all_cons, Bool.and_eq_true] at hall
        exact absurd hall.1 (by decide)
      rw [if_neg hminus, h]
      rfl
  rw [scanNumeral_eq, hvalue]
  simp

theorem scanNumeral_of_minus {rest : List Byte} {n : Nat} (h : digits 10 rest = some n) :
    (scanNumeral (45 :: rest)).toNat = (2 ^ 32 - n % 2 ^ 32) % 2 ^ 32 := by
  rw [scanNumeral_eq, numeral, if_pos rfl, h]
  show (BitVec.ofInt 32 (-(n : Int))).toNat = _
  rw [BitVec.ofInt_neg, BitVec.ofInt_natCast, BitVec.toNat_neg, BitVec.toNat_ofNat]

-- The strings whose value modulo 2 ^ 32 is between 1 and a bound.
theorem scanNumeral_range {str : List Byte} {bound : Nat} (hbound : bound < 2 ^ 32 - 1) :
    (1 ≤ (scanNumeral str).toNat ∧ (scanNumeral str).toNat ≤ bound) ↔
      (∃ n, digits 10 str = some n ∧ 1 ≤ n % 2 ^ 32 ∧ n % 2 ^ 32 ≤ bound) ∨
        ∃ rest n, str = 45 :: rest ∧ digits 10 rest = some n ∧ 2 ^ 32 - bound ≤ n % 2 ^ 32 := by
  constructor
  · intro h
    cases hdigits : digits 10 str with
    | some n =>
        rw [scanNumeral_of_digits hdigits] at h
        exact Or.inl ⟨n, rfl, h⟩
    | none =>
        cases hvalue : numeral str with
        | none =>
            rw [scanNumeral_eq, hvalue] at h
            have hall : (-1 : BitVec 32).toNat = 2 ^ 32 - 1 := rfl
            simp only [hall] at h
            omega
        | some v =>
            unfold numeral at hvalue
            split at hvalue
            · cases hdigits
            · split at hvalue
              · rename_i c rest hminus
                subst hminus
                obtain ⟨n, hn, -⟩ := Option.map_eq_some_iff.mp hvalue
                rw [scanNumeral_of_minus hn] at h
                exact Or.inr ⟨rest, n, rfl, hn, by omega⟩
              · rw [hdigits] at hvalue
                cases hvalue
  · rintro (⟨n, hdigits, hrange⟩ | ⟨rest, n, rfl, hdigits, hrange⟩)
    · rwa [scanNumeral_of_digits hdigits]
    · rw [scanNumeral_of_minus hdigits]
      omega

theorem readNat_lt {base : Nat} {str : List Byte} (h : str.all (isDigit base) = true) :
    readNat base str < base ^ str.length := by
  induction str using List.reverseRecOn with
  | nil => exact Nat.one_pos
  | append_singleton str c ih =>
      simp only [List.all_append, List.all_cons, List.all_nil, Bool.and_true, Bool.and_eq_true] at h
      obtain ⟨hall, hdigit⟩ := h
      have hless := ih hall
      have hc : digitVal c < base := of_decide_eq_true hdigit
      have hmul := Nat.mul_le_mul_right base (Nat.succ_le_of_lt hless)
      rw [readNat_append, List.length_append, List.length_singleton, Nat.pow_succ]
      rw [Nat.succ_mul] at hmul
      omega

theorem decimal_eq_some {str : List Byte} {n : Nat} :
    decimal str = some n ↔ str ≠ [] ∧ digits 10 str = some n := by
  unfold decimal
  split
  · rename_i hnil
    simp [hnil]
  · rename_i hne
    simp [hne]

-- A character of the range that strings are tested for, and its value.
theorem isDigit_ten (c : Byte) : (47 < c.toInt ∧ c.toInt < 58) ↔ isDigit 10 c = true := by
  have hlt := c.isLt
  have hval : digitVal c < 10 ↔ 48 ≤ c.toNat ∧ c.toNat ≤ 57 := by
    unfold digitVal
    split
    · omega
    · split
      · omega
      · split <;> omega
  rw [isDigit, decide_eq_true_eq, hval, BitVec.toInt_eq_toNat_cond]
  split <;> omega

theorem digitVal_ten {c : Byte} (h : isDigit 10 c = true) :
    c.signExtend 32 - 48 = BitVec.ofNat 32 (digitVal c) := by
  have hrange := (isDigit_ten c).mpr h
  have hlt := c.isLt
  obtain ⟨k, hk, rfl⟩ : ∃ k, (48 ≤ k ∧ k ≤ 57) ∧ c = BitVec.ofNat 8 k := by
    refine ⟨c.toNat, ?_, by simp⟩
    rw [BitVec.toInt_eq_toNat_cond] at hrange
    split at hrange <;> omega
  obtain ⟨hlow, hhigh⟩ := hk
  interval_cases k <;> rfl

end CSE320.Lib
