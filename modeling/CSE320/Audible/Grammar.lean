import CSE320.Audible.Options
import CSE320.Lib.Numeral

namespace CSE320.Audible

open Lib (Byte ascii)

-- The arguments that the documentation of the program allows.
def IsFactor (str : List Byte) (n : Nat) : Prop := Lib.decimal str = some n ∧ 1 ≤ n ∧ n ≤ 1024

def IsKey (str : List Byte) (n : Nat) : Prop :=
  (1 ≤ str.length ∧ str.length ≤ 8) ∧ Lib.digits 16 str = some n

-- The arguments behind -u and -d, with whether -p is given and the factor.
inductive SpeedArgs : List (List Byte) → Bool → Nat → Prop where
  | none : SpeedArgs [] false 1
  | keeps : SpeedArgs [ascii "-p"] true 1
  | factor {str : List Byte} {n : Nat} (h : IsFactor str n) : SpeedArgs [ascii "-f", str] false n
  | keepsFactor {str : List Byte} {n : Nat} (h : IsFactor str n) : SpeedArgs [ascii "-p",
      ascii "-f", str] true n
  | factorKeeps {str : List Byte} {n : Nat} (h : IsFactor str n) : SpeedArgs [ascii "-f", str,
      ascii "-p"] true n

-- The arguments behind -c, with whether -p is given and the key.
inductive CryptArgs : List (List Byte) → Bool → Nat → Prop where
  | key {str : List Byte} {n : Nat} (h : IsKey str n) : CryptArgs [ascii "-k", str] false n
  | keepsKey {str : List Byte} {n : Nat} (h : IsKey str n) : CryptArgs [ascii "-p",
      ascii "-k", str] true n
  | keyKeeps {str : List Byte} {n : Nat} (h : IsKey str n) : CryptArgs [ascii "-k", str,
      ascii "-p"] true n

def optionsOf (mode : BitVec 64) (keeps : Bool) (factor key : Nat) : BitVec 64 :=
  mode ||| (if keeps then optionP else 0) ||| BitVec.ofNat 64 (factor - 1) <<< 48 |||
    BitVec.ofNat 64 key

-- The first string is the name of the program.
inductive Accepts : List (List Byte) → BitVec 64 → Prop where
  | help (name : List Byte) (rest : List (List Byte)) : Accepts (name :: ascii "-h" :: rest) optionH
  | up (name : List Byte) {rest : List (List Byte)} {keeps : Bool} {n : Nat}
      (h : SpeedArgs rest keeps n) :
      Accepts (name :: ascii "-u" :: rest) (optionsOf optionU keeps n 0)
  | down (name : List Byte) {rest : List (List Byte)} {keeps : Bool} {n : Nat}
      (h : SpeedArgs rest keeps n) :
      Accepts (name :: ascii "-d" :: rest) (optionsOf optionD keeps n 0)
  | crypt (name : List Byte) {rest : List (List Byte)} {keeps : Bool} {n : Nat}
      (h : CryptArgs rest keeps n) :
      Accepts (name :: ascii "-c" :: rest) (optionsOf optionC keeps 1 n)

-- The result and global_options of a call.
def Obeys (result : Bool × BitVec 64) (accepts : BitVec 64 → Prop) : Prop :=
  (∀ options, result = (true, options) ↔ accepts options) ∧ (result.1 = false → result.2 = 0)

def ObeysGrammar (argv : List (List Byte)) : Prop := Obeys (validargs argv) (Accepts argv)

-- A numeral that the sum in 32 bits takes for a factor is one.
def FactorFits (str : List Byte) : Prop :=
  (∀ n, Lib.digits 10 str = some n → 1 ≤ n % 2 ^ 32 → n % 2 ^ 32 ≤ 1024 → n ≤ 1024) ∧
    ∀ rest n, str = 45 :: rest → Lib.digits 10 rest = some n → n % 2 ^ 32 < 2 ^ 32 - 1024

-- The order and the number of the arguments behind the mode are right.
def SpeedFits (rest : List (List Byte)) : Prop :=
  rest = [] ∨ rest = [ascii "-p"] ∨ ∃ str, FactorFits str ∧
    (rest = [ascii "-f", str] ∨ rest = [ascii "-p", ascii "-f", str] ∨
      rest = [ascii "-f", str, ascii "-p"])

def CryptFits (rest : List (List Byte)) : Prop :=
  ∃ str, str ≠ [] ∧
    (rest = [ascii "-k", str] ∨ rest = [ascii "-p", ascii "-k", str] ∨
      rest = [ascii "-k", str, ascii "-p"])

def GrammarFits (argv : List (List Byte)) : Prop :=
  ∀ name mode rest, argv = name :: mode :: rest →
    ((mode = ascii "-u" ∨ mode = ascii "-d") → SpeedFits rest) ∧
      (mode = ascii "-c" → CryptFits rest)

theorem stringEquals_iff (word1 word2 : List Byte) :
    stringEquals word1 word2 = true ↔ word1 = word2 := by
  induction word1 generalizing word2 with
  | nil => cases word2 <;> simp [stringEquals]
  | cons c word1 ih => cases word2 <;> simp [stringEquals, ih]

theorem decDigits_eq (num : BitVec 32) (str : List Byte) :
    decDigits num str = Lib.scanDigits 10 num str := by
  induction str generalizing num with
  | nil => rfl
  | cons c str ih =>
      rw [decDigits, Lib.scanDigits]
      by_cases hdigit : Lib.isDigit 10 c = true
      · rw [if_pos ((Lib.isDigit_ten c).mpr hdigit), if_pos hdigit, ih, Lib.digitVal_ten hdigit]
        rfl
      · rw [if_neg (mt (Lib.isDigit_ten c).mp hdigit), if_neg hdigit]

theorem decStrToDec_eq (str : List Byte) : decStrToDec str = Lib.scanNumeral str := by
  unfold decStrToDec
  simp only [decDigits_eq]
  rfl

theorem factor_eq (options : BitVec 64) (str : List Byte) :
    factor options str =
      if 1 ≤ (Lib.scanNumeral str).toNat ∧ (Lib.scanNumeral str).toNat ≤ 1024 then
        (true, options ||| BitVec.ofNat 64 ((Lib.scanNumeral str).toNat - 1) <<< 48)
      else (false, 0) := by
  unfold factor
  rw [decStrToDec_eq]
  generalize Lib.scanNumeral str = w
  have hlt := w.isLt
  have hint : (w.signExtend 64).toInt = w.toInt := BitVec.toInt_signExtend_of_le (by decide)
  simp only [hint, BitVec.toInt_eq_toNat_cond]
  by_cases hrange : 1 ≤ w.toNat ∧ w.toNat ≤ 1024
  · have hmsb : w.msb = false := by
      rw [BitVec.msb_eq_false_iff_two_mul_lt]
      omega
    have hvalue : w.signExtend 64 - 1 = BitVec.ofNat 64 (w.toNat - 1) := by
      rw [BitVec.signExtend_eq_setWidth_of_msb_false hmsb]
      apply BitVec.eq_of_toNat_eq
      rw [BitVec.toNat_sub, BitVec.toNat_setWidth, BitVec.toNat_ofNat]
      show (2 ^ 64 - 1 + w.toNat % 2 ^ 64) % 2 ^ 64 = _
      omega
    rw [if_pos hrange, if_pos (by split <;> omega), hvalue]
  · rw [if_neg hrange, if_neg (by split <;> omega)]

theorem isFactor_iff {str : List Byte} {n : Nat} :
    IsFactor str n ↔ Lib.digits 10 str = some n ∧ 1 ≤ n ∧ n ≤ 1024 := by
  rw [IsFactor, Lib.decimal_eq_some]
  constructor
  · rintro ⟨⟨-, hdigits⟩, hrange⟩
    exact ⟨hdigits, hrange⟩
  · rintro ⟨hdigits, hrange⟩
    refine ⟨⟨?_, hdigits⟩, hrange⟩
    rintro rfl
    obtain ⟨-, rfl⟩ := Lib.digits_eq_some.mp hdigits
    exact absurd hrange.1 (by decide)

-- A factor that is accepted is the value of a numeral, exactly when no other string is.
theorem factor_obeys (options : BitVec 64) (str : List Byte) :
    Obeys (factor options str)
        (fun options' => ∃ n, IsFactor str n ∧
          options' = options ||| BitVec.ofNat 64 (n - 1) <<< 48) ↔
      FactorFits str := by
  have hrange := @Lib.scanNumeral_range str 1024 (by decide)
  simp only [Obeys, factor_eq, isFactor_iff]
  constructor
  · rintro ⟨hall, -⟩
    have haccepted (h : 1 ≤ (Lib.scanNumeral str).toNat ∧ (Lib.scanNumeral str).toNat ≤ 1024) :
        ∃ n, Lib.digits 10 str = some n ∧ n ≤ 1024 := by
      rw [if_pos h] at hall
      obtain ⟨n, ⟨hdigits, -, hmax⟩, -⟩ := (hall _).mp rfl
      exact ⟨n, hdigits, hmax⟩
    refine ⟨fun n hdigits hlow hhigh => ?_, fun rest n heq hdigits => ?_⟩
    · obtain ⟨n', hdigits', hmax⟩ := haccepted (hrange.mpr (Or.inl ⟨n, hdigits, hlow, hhigh⟩))
      rw [hdigits] at hdigits'
      obtain rfl := Option.some.inj hdigits'
      exact hmax
    · by_contra hwrap
      obtain ⟨n', hdigits', -⟩ :=
        haccepted (hrange.mpr (Or.inr ⟨rest, n, heq, hdigits, Nat.le_of_not_lt hwrap⟩))
      have hminus := (Lib.digits_eq_some.mp hdigits').1
      rw [heq, List.all_cons, Bool.and_eq_true] at hminus
      exact absurd hminus.1 (by decide)
  · rintro ⟨hdigit, hminus⟩
    by_cases hin : 1 ≤ (Lib.scanNumeral str).toNat ∧ (Lib.scanNumeral str).toNat ≤ 1024
    · rcases hrange.mp hin with ⟨n, hdigits, hlow, hhigh⟩ | ⟨rest, n, heq, hdigits, hwrap⟩
      · have hmax := hdigit n hdigits hlow hhigh
        have hvalue : (Lib.scanNumeral str).toNat = n := by
          rw [Lib.scanNumeral_of_digits hdigits, Nat.mod_eq_of_lt (by omega)]
        rw [if_pos hin, hvalue]
        refine ⟨fun options' => ⟨?_, ?_⟩, fun hfalse => absurd hfalse Bool.noConfusion⟩
        · intro h
          exact ⟨n, ⟨hdigits, by omega, hmax⟩, (Prod.mk.inj h).2.symm⟩
        · rintro ⟨n', ⟨hdigits', -⟩, rfl⟩
          rw [hdigits] at hdigits'
          obtain rfl := Option.some.inj hdigits'
          rfl
      · exact absurd hwrap (Nat.not_le_of_lt (hminus rest n heq hdigits))
    · rw [if_neg hin]
      refine ⟨fun options' => ⟨fun h => (nomatch h), ?_⟩, fun _ => rfl⟩
      rintro ⟨n, ⟨hdigits, hlow, hhigh⟩, -⟩
      refine absurd (hrange.mpr (Or.inl ⟨n, hdigits, ?_⟩)) hin
      rw [Nat.mod_eq_of_lt (by omega)]
      exact ⟨hlow, hhigh⟩

theorem toInt_cases (c : Byte) :
    (c.toNat < 128 ∧ c.toInt = c.toNat) ∨ (128 ≤ c.toNat ∧ c.toInt = c.toNat - 256) := by
  rw [BitVec.toInt_eq_toNat_cond]
  split <;> omega

theorem digitVal_lt_sixteen (c : Byte) : Lib.digitVal c < 16 ↔
    (48 ≤ c.toNat ∧ c.toNat ≤ 57) ∨ (97 ≤ c.toNat ∧ c.toNat ≤ 102) ∨
      (65 ≤ c.toNat ∧ c.toNat ≤ 70) := by
  unfold Lib.digitVal
  split
  · omega
  · split
    · omega
    · split <;> omega

theorem isHexChar_eq (c : Byte) : isHexChar c = Lib.isDigit 16 c := by
  have hint := toInt_cases c
  have hvalue := digitVal_lt_sixteen c
  rw [Bool.eq_iff_iff]
  simp only [isHexChar, Lib.isDigit, Bool.or_eq_true, Bool.and_eq_true, decide_eq_true_eq, hvalue]
  omega

-- One of the 22 characters, in the three ranges that the code tests for.
theorem hexDigits_eq {str : List Byte} (h : str.all (Lib.isDigit 16) = true) (num : BitVec 32) :
    hexDigits num str = (Lib.scanDigits 16 num str).1 := by
  induction str generalizing num with
  | nil => rfl
  | cons c str ih =>
      rw [List.all_cons, Bool.and_eq_true] at h
      obtain ⟨hdigit, hrest⟩ := h
      have hvalue : Lib.digitVal c < 16 := of_decide_eq_true hdigit
      have hrange := (digitVal_lt_sixteen c).mp hvalue
      have hsame (k : Nat) (hk : c.toNat = k) : c = BitVec.ofNat 8 k := by
        apply BitVec.eq_of_toNat_eq
        rw [hk, BitVec.toNat_ofNat]
        have hlt := c.isLt
        omega
      have hstep : hexDigits num (c :: str) =
          hexDigits (num * BitVec.ofNat 32 16 + BitVec.ofNat 32 (Lib.digitVal c)) str := by
        rcases hrange with ⟨hlow, hhigh⟩ | ⟨hlow, hhigh⟩ | ⟨hlow, hhigh⟩
        all_goals
          generalize hk : c.toNat = k at hlow hhigh
          rw [hsame k hk]
          interval_cases k <;> rfl
      rw [hstep, Lib.scanDigits, if_pos hdigit, ih hrest]

theorem key_eq (options : BitVec 64) (str : List Byte) :
    key options str = if str.length ≤ 8 ∧ str.all (Lib.isDigit 16) = true then
      (true, options ||| BitVec.ofNat 64 (Lib.readNat 16 str)) else (false, 0) := by
  have hhex : isHex str = str.all (Lib.isDigit 16) := by
    unfold isHex
    congr 1
    funext c
    exact isHexChar_eq c
  unfold key hexStrToDec
  rw [hhex]
  by_cases haccepted : str.length ≤ 8 ∧ str.all (Lib.isDigit 16) = true
  · obtain ⟨hlen, hall⟩ := haccepted
    have hdigits : Lib.digits 16 str = some (Lib.readNat 16 str) :=
      Lib.digits_eq_some.mpr ⟨hall, rfl⟩
    have hsmall : Lib.readNat 16 str < 2 ^ 32 := by
      have hpow : 16 ^ str.length ≤ 16 ^ 8 := Nat.pow_le_pow_right (by decide) hlen
      have hlt := Lib.readNat_lt hall
      omega
    have hvalue : (BitVec.ofNat 32 (Lib.readNat 16 str)).setWidth 64 =
        BitVec.ofNat 64 (Lib.readNat 16 str) := by
      apply BitVec.eq_of_toNat_eq
      rw [BitVec.toNat_setWidth, BitVec.toNat_ofNat, BitVec.toNat_ofNat, Nat.mod_eq_of_lt hsmall]
    have hpassed : (decide (str.length > 8) || !str.all (Lib.isDigit 16)) = false := by
      rw [hall, decide_eq_false (Nat.not_lt.mpr hlen)]
      rfl
    simp only [hpassed, Bool.false_eq_true, if_false]
    rw [if_pos ⟨hlen, hall⟩, hexDigits_eq hall, Lib.scanDigits_of_digits hdigits, hvalue]
  · have hrejected : (decide (str.length > 8) || !str.all (Lib.isDigit 16)) = true := by
      by_contra hno
      simp only [Bool.or_eq_true, decide_eq_true_eq, Bool.not_eq_true', not_or,
        Bool.not_eq_false] at hno
      exact haccepted ⟨by omega, hno.2⟩
    simp only [hrejected, if_true, if_neg haccepted]

-- The empty string is taken for a key, too.
theorem key_obeys (options : BitVec 64) (str : List Byte) :
    Obeys (key options str) (fun options' => ∃ n, IsKey str n ∧
      options' = options ||| BitVec.ofNat 64 n) ↔
      str ≠ [] := by
  simp only [Obeys, key_eq, IsKey, Lib.digits_eq_some]
  constructor
  · rintro ⟨hall, -⟩ rfl
    obtain ⟨n, ⟨⟨hlow, -⟩, -⟩, -⟩ := (hall _).mp rfl
    exact absurd hlow (by decide)
  · intro hne
    have hpos : 1 ≤ str.length := List.length_pos_iff.mpr hne
    by_cases haccepted : str.length ≤ 8 ∧ str.all (Lib.isDigit 16) = true
    · rw [if_pos haccepted]
      refine ⟨fun options' => ⟨?_, ?_⟩, fun hfalse => absurd hfalse Bool.noConfusion⟩
      · intro h
        exact ⟨_, ⟨⟨hpos, haccepted.1⟩, haccepted.2, rfl⟩, (Prod.mk.inj h).2.symm⟩
      · rintro ⟨n, ⟨-, -, rfl⟩, rfl⟩
        rfl
    · rw [if_neg haccepted]
      refine ⟨fun options' => ⟨fun h => (nomatch h), ?_⟩, fun _ => rfl⟩
      rintro ⟨n, ⟨⟨-, hmax⟩, hdigits, -⟩, -⟩
      exact absurd ⟨hmax, hdigits⟩ haccepted

theorem Obeys.congr {result : Bool × BitVec 64} {accepts accepts' : BitVec 64 → Prop}
    (h : ∀ options, accepts options ↔ accepts' options) :
    Obeys result accepts ↔ Obeys result accepts' := by
  simp only [Obeys, h]

-- A mode that is left behind a failure.
theorem not_obeys_of_mode {mode : BitVec 64} (hmode : mode ≠ 0) (accepts : BitVec 64 → Prop) :
    ¬Obeys (false, mode) accepts := fun h => hmode (h.2 rfl)

theorem speedArgs_iff {rest : List (List Byte)} {keeps : Bool} {n : Nat} :
    SpeedArgs rest keeps n ↔ (rest = [] ∧ keeps = false ∧ n = 1) ∨
      (rest = [ascii "-p"] ∧ keeps = true ∧ n = 1) ∨
      ∃ str, IsFactor str n ∧ ((rest = [ascii "-f", str] ∧ keeps = false) ∨
        ((rest = [ascii "-p", ascii "-f", str] ∨ rest = [ascii "-f", str, ascii "-p"]) ∧
          keeps = true)) := by
  constructor
  · intro h
    cases h with
    | none => exact Or.inl ⟨rfl, rfl, rfl⟩
    | keeps => exact Or.inr (Or.inl ⟨rfl, rfl, rfl⟩)
    | factor h => exact Or.inr (Or.inr ⟨_, h, Or.inl ⟨rfl, rfl⟩⟩)
    | keepsFactor h => exact Or.inr (Or.inr ⟨_, h, Or.inr ⟨Or.inl rfl, rfl⟩⟩)
    | factorKeeps h => exact Or.inr (Or.inr ⟨_, h, Or.inr ⟨Or.inr rfl, rfl⟩⟩)
  · rintro (⟨rfl, rfl, rfl⟩ | ⟨rfl, rfl, rfl⟩ | ⟨str, h, ⟨rfl, rfl⟩ | ⟨rfl | rfl, rfl⟩⟩)
    · exact .none
    · exact .keeps
    · exact .factor h
    · exact .keepsFactor h
    · exact .factorKeeps h

theorem cryptArgs_iff {rest : List (List Byte)} {keeps : Bool} {n : Nat} :
    CryptArgs rest keeps n ↔ ∃ str, IsKey str n ∧ ((rest = [ascii "-k", str] ∧ keeps = false) ∨
      ((rest = [ascii "-p", ascii "-k", str] ∨ rest = [ascii "-k", str, ascii "-p"]) ∧
        keeps = true)) := by
  constructor
  · intro h
    cases h with
    | key h => exact ⟨_, h, Or.inl ⟨rfl, rfl⟩⟩
    | keepsKey h => exact ⟨_, h, Or.inr ⟨Or.inl rfl, rfl⟩⟩
    | keyKeeps h => exact ⟨_, h, Or.inr ⟨Or.inr rfl, rfl⟩⟩
  · rintro ⟨str, h, ⟨rfl, rfl⟩ | ⟨rfl | rfl, rfl⟩⟩
    · exact .key h
    · exact .keepsKey h
    · exact .keyKeeps h

theorem flags_ne : ascii "-p" ≠ ascii "-f" ∧ ascii "-p" ≠ ascii "-k" := by decide

section

variable (mode options : BitVec 64) (arg2 arg3 arg4 : List Byte)

def SpeedAccepts (rest : List (List Byte)) (options : BitVec 64) : Prop :=
  ∃ keeps n, SpeedArgs rest keeps n ∧ options = optionsOf mode keeps n 0

theorem speedAccepts_nil : SpeedAccepts mode [] options ↔ options = mode := by
  simp [SpeedAccepts, speedArgs_iff, optionsOf]

theorem speedAccepts_one : SpeedAccepts mode
    [arg2] options ↔ arg2 = ascii "-p" ∧ options = mode ||| optionP := by
  simp [SpeedAccepts, speedArgs_iff, optionsOf]

theorem speedAccepts_two : SpeedAccepts mode [arg2, arg3] options ↔
    arg2 = ascii "-f" ∧ ∃ n, IsFactor arg3 n ∧
      options = mode ||| BitVec.ofNat 64 (n - 1) <<< 48 := by
  simp [SpeedAccepts, speedArgs_iff, optionsOf]
  constructor
  · rintro ⟨n, ⟨hfactor, hflag⟩, heq⟩
    exact ⟨hflag, n, hfactor, heq⟩
  · rintro ⟨hflag, n, hfactor, heq⟩
    exact ⟨n, ⟨hfactor, hflag⟩, heq⟩

theorem speedAccepts_three : SpeedAccepts mode [arg2, arg3, arg4] options ↔
    (arg2 = ascii "-p" ∧ arg3 = ascii "-f" ∧
      ∃ n, IsFactor arg4 n ∧ options = mode ||| optionP ||| BitVec.ofNat 64 (n - 1) <<< 48) ∨
    (arg4 = ascii "-p" ∧ arg2 = ascii "-f" ∧
      ∃ n, IsFactor arg3 n ∧ options = mode ||| optionP ||| BitVec.ofNat 64 (n - 1) <<< 48) := by
  simp [SpeedAccepts, speedArgs_iff, optionsOf]
  constructor
  · rintro ⟨n, ⟨str, hfactor, ⟨h2, h3, rfl⟩ | ⟨h2, rfl, h4⟩⟩, heq⟩
    · exact Or.inl ⟨h2, h3, n, hfactor, heq⟩
    · exact Or.inr ⟨h4, h2, n, hfactor, heq⟩
  · rintro (⟨h2, h3, n, hfactor, heq⟩ | ⟨h4, h2, n, hfactor, heq⟩)
    · exact ⟨n, ⟨arg4, hfactor, Or.inl ⟨h2, h3, rfl⟩⟩, heq⟩
    · exact ⟨n, ⟨arg3, hfactor, Or.inr ⟨h2, rfl, h4⟩⟩, heq⟩

end

section

variable {mode : BitVec 64} (hmode : mode ≠ 0) (rest : List (List Byte))

include hmode

theorem speed_obeys :
    Obeys (if rest = [] then (true, mode) else speed mode rest) (SpeedAccepts mode rest) ↔
      SpeedFits rest := by
  have hflags : ascii "-p" ≠ ascii "-f" := flags_ne.1
  match rest with
  | [] =>
      refine iff_of_true ⟨fun options => ?_,
        fun hfalse => absurd hfalse Bool.noConfusion⟩ (Or.inl rfl)
      rw [speedAccepts_nil, if_pos rfl, Prod.mk.injEq, eq_comm (a := mode)]
      simp
  | [arg2] =>
      simp only [SpeedFits, speed, stringEquals_iff, reduceCtorEq, if_false]
      by_cases hkeeps : ascii "-p" = arg2
      · subst hkeeps
        refine iff_of_true ⟨fun options => ?_, fun hfalse => ?_⟩ (Or.inr (Or.inl rfl))
        · rw [speedAccepts_one, if_pos rfl, Prod.mk.injEq, eq_comm (a := mode ||| optionP)]
          simp
        · rw [if_pos rfl] at hfalse
          cases hfalse
      · rw [if_neg hkeeps]
        refine iff_of_false (not_obeys_of_mode hmode _) ?_
        simp [Ne.symm hkeeps]
  | [arg2, arg3] =>
      simp only [SpeedFits, speed, stringEquals_iff, reduceCtorEq, if_false]
      by_cases hfactor : ascii "-f" = arg2
      · subst hfactor
        rw [if_pos rfl, Obeys.congr (speedAccepts_two mode · _ arg3)]
        simp [factor_obeys]
      · rw [if_neg hfactor]
        refine iff_of_false (not_obeys_of_mode hmode _) ?_
        simp [Ne.symm hfactor]
  | [arg2, arg3, arg4] =>
      simp only [SpeedFits, speed, stringEquals_iff, Bool.and_eq_true, reduceCtorEq, if_false]
      rw [Obeys.congr (speedAccepts_three mode · arg2 arg3 arg4)]
      by_cases hfirst : ascii "-p" = arg2 ∧ ascii "-f" = arg3
      · obtain ⟨rfl, rfl⟩ := hfirst
        rw [if_pos ⟨rfl, rfl⟩]
        simp [factor_obeys, hflags]
      · rw [if_neg hfirst]
        by_cases hsecond : ascii "-p" = arg4 ∧ ascii "-f" = arg2
        · obtain ⟨rfl, rfl⟩ := hsecond
          rw [if_pos ⟨rfl, rfl⟩]
          simp [factor_obeys, hflags.symm]
        · rw [if_neg hsecond]
          refine iff_of_false (not_obeys_of_mode hmode _) ?_
          rintro (hnil | hone | ⟨str, -, htwo | hthree | hthree⟩)
          · cases hnil
          · cases hone
          · cases htwo
          · simp only [List.cons.injEq, and_true] at hthree
            exact hfirst ⟨hthree.1.symm, hthree.2.1.symm⟩
          · simp only [List.cons.injEq, and_true] at hthree
            exact hsecond ⟨hthree.2.2.symm, hthree.1.symm⟩
  | arg2 :: arg3 :: arg4 :: arg5 :: rest =>
      refine iff_of_false (not_obeys_of_mode hmode _) ?_
      simp [SpeedFits]

end

section

variable (mode options : BitVec 64) (arg2 arg3 arg4 : List Byte)

def CryptAccepts (rest : List (List Byte)) (options : BitVec 64) : Prop :=
  ∃ keeps n, CryptArgs rest keeps n ∧ options = optionsOf mode keeps 1 n

theorem cryptAccepts_two : CryptAccepts mode [arg2, arg3] options ↔
    arg2 = ascii "-k" ∧ ∃ n, IsKey arg3 n ∧ options = mode ||| BitVec.ofNat 64 n := by
  simp [CryptAccepts, cryptArgs_iff, optionsOf]
  constructor
  · rintro ⟨n, ⟨hkey, hflag⟩, heq⟩
    exact ⟨hflag, n, hkey, heq⟩
  · rintro ⟨hflag, n, hkey, heq⟩
    exact ⟨n, ⟨hkey, hflag⟩, heq⟩

theorem cryptAccepts_three : CryptAccepts mode [arg2, arg3, arg4] options ↔
    (arg2 = ascii "-p" ∧ arg3 = ascii "-k" ∧ ∃ n, IsKey arg4 n ∧
      options = mode ||| optionP ||| BitVec.ofNat 64 n) ∨
    (arg4 = ascii "-p" ∧ arg2 = ascii "-k" ∧ ∃ n, IsKey arg3 n ∧
      options = mode ||| optionP ||| BitVec.ofNat 64 n) := by
  simp [CryptAccepts, cryptArgs_iff, optionsOf]
  constructor
  · rintro ⟨n, ⟨str, hkey, ⟨h2, h3, rfl⟩ | ⟨h2, rfl, h4⟩⟩, heq⟩
    · exact Or.inl ⟨h2, h3, n, hkey, heq⟩
    · exact Or.inr ⟨h4, h2, n, hkey, heq⟩
  · rintro (⟨h2, h3, n, hkey, heq⟩ | ⟨h4, h2, n, hkey, heq⟩)
    · exact ⟨n, ⟨arg4, hkey, Or.inl ⟨h2, h3, rfl⟩⟩, heq⟩
    · exact ⟨n, ⟨arg3, hkey, Or.inr ⟨h2, rfl, h4⟩⟩, heq⟩

end

theorem crypt_obeys {mode : BitVec 64} (hmode : mode ≠ 0) (rest : List (List Byte)) :
    Obeys (crypt mode rest) (CryptAccepts mode rest) ↔ CryptFits rest := by
  have hflags : ascii "-p" ≠ ascii "-k" := flags_ne.2
  match rest with
  | [] => exact iff_of_false (not_obeys_of_mode hmode _) (by simp [CryptFits])
  | [arg2] => exact iff_of_false (not_obeys_of_mode hmode _) (by simp [CryptFits])
  | [arg2, arg3] =>
      simp only [CryptFits, crypt, stringEquals_iff]
      by_cases hkey : ascii "-k" = arg2
      · subst hkey
        rw [if_pos rfl, Obeys.congr (cryptAccepts_two mode · _ arg3)]
        simp [key_obeys]
      · rw [if_neg hkey]
        refine iff_of_false (not_obeys_of_mode hmode _) ?_
        simp [Ne.symm hkey]
  | [arg2, arg3, arg4] =>
      simp only [CryptFits, crypt, stringEquals_iff, Bool.and_eq_true]
      rw [Obeys.congr (cryptAccepts_three mode · arg2 arg3 arg4)]
      by_cases hfirst : ascii "-p" = arg2 ∧ ascii "-k" = arg3
      · obtain ⟨rfl, rfl⟩ := hfirst
        rw [if_pos ⟨rfl, rfl⟩]
        simp [key_obeys, hflags]
      · rw [if_neg hfirst]
        by_cases hsecond : ascii "-p" = arg4 ∧ ascii "-k" = arg2
        · obtain ⟨rfl, rfl⟩ := hsecond
          rw [if_pos ⟨rfl, rfl⟩]
          simp [key_obeys, hflags.symm]
        · rw [if_neg hsecond]
          refine iff_of_false (not_obeys_of_mode hmode _) ?_
          rintro ⟨str, -, htwo | hthree | hthree⟩
          · cases htwo
          · simp only [List.cons.injEq, and_true] at hthree
            exact hfirst ⟨hthree.1.symm, hthree.2.1.symm⟩
          · simp only [List.cons.injEq, and_true] at hthree
            exact hsecond ⟨hthree.2.2.symm, hthree.1.symm⟩
  | arg2 :: arg3 :: arg4 :: arg5 :: rest =>
      exact iff_of_false (not_obeys_of_mode hmode _) (by simp [CryptFits])

theorem accepts_iff {argv : List (List Byte)} {options : BitVec 64} :
    Accepts argv options ↔ ∃ name mode rest, argv = name :: mode :: rest ∧
      ((mode = ascii "-h" ∧ options = optionH) ∨
        (mode = ascii "-u" ∧ SpeedAccepts optionU rest options) ∨
        (mode = ascii "-d" ∧ SpeedAccepts optionD rest options) ∨
          (mode = ascii "-c" ∧ CryptAccepts optionC rest options)) := by
  constructor
  · intro h
    cases h with
    | help name rest => exact ⟨name, _, rest, rfl, Or.inl ⟨rfl, rfl⟩⟩
    | up name h => exact ⟨name, _, _, rfl, Or.inr (Or.inl ⟨rfl, _, _, h, rfl⟩)⟩
    | down name h => exact ⟨name, _, _, rfl, Or.inr (Or.inr (Or.inl ⟨rfl, _, _, h, rfl⟩))⟩
    | crypt name h => exact ⟨name, _, _, rfl, Or.inr (Or.inr (Or.inr ⟨rfl, _, _, h, rfl⟩))⟩
  · rintro ⟨name, mode, rest, rfl, ⟨rfl, rfl⟩ | ⟨rfl, keeps, n, h, rfl⟩ | ⟨rfl, keeps, n, h, rfl⟩ |
      ⟨rfl, keeps, n, h, rfl⟩⟩
    · exact .help name rest
    · exact .up name h
    · exact .down name h
    · exact .crypt name h

-- The grammar is obeyed exactly where a mode has arguments in one of the right shapes
-- behind it, its numeral does not wrap, and its key is not empty.
theorem obeysGrammar_iff (argv : List (List Byte)) : ObeysGrammar argv ↔ GrammarFits argv := by
  have hmodes : ascii "-u" ≠ ascii "-h" ∧ ascii "-d" ≠ ascii "-h" ∧ ascii "-c" ≠ ascii "-h" ∧
      ascii "-d" ≠ ascii "-u" ∧ ascii "-c" ≠ ascii "-u" ∧ ascii "-c" ≠ ascii "-d" := by decide
  obtain ⟨huh, hdh, hch, hdu, hcu, hcd⟩ := hmodes
  have hnone (h : ∀ options, ¬Accepts argv options) : Obeys (false, 0) (Accepts argv) :=
    ⟨fun options => ⟨fun heq => (nomatch heq), fun haccepts => absurd haccepts (h options)⟩,
      fun _ => rfl⟩
  unfold ObeysGrammar
  match argv with
  | [] => exact iff_of_true (hnone fun options => by simp [accepts_iff]) (by simp [GrammarFits])
  | [name] => exact iff_of_true (hnone fun options => by simp [accepts_iff]) (by simp [GrammarFits])
  | name :: mode :: rest =>
      have hfits : GrammarFits (name :: mode :: rest) ↔
          ((mode = ascii "-u" ∨ mode = ascii "-d") → SpeedFits rest) ∧
            (mode = ascii "-c" → CryptFits rest) := by
        constructor
        · exact fun h => h name mode rest rfl
        · rintro h name' mode' rest' heq
          obtain ⟨-, rfl, rfl⟩ := List.cons.inj heq |>.imp id List.cons.inj
          exact h
      have haccepts (options : BitVec 64) : Accepts (name :: mode :: rest) options ↔
          ((mode = ascii "-h" ∧ options = optionH) ∨
            (mode = ascii "-u" ∧ SpeedAccepts optionU rest options) ∨
            (mode = ascii "-d" ∧ SpeedAccepts optionD rest options) ∨
            (mode = ascii "-c" ∧ CryptAccepts optionC rest options)) := by
        simp [accepts_iff]
      rw [hfits, Obeys.congr haccepts]
      simp only [validargs, stringEquals_iff]
      by_cases hh : ascii "-h" = mode
      · subst hh
        rw [if_pos rfl]
        refine iff_of_true ⟨fun options => ?_, fun hfalse => absurd hfalse Bool.noConfusion⟩ ?_
        · simp [huh.symm, hdh.symm, hch.symm, eq_comm]
        · simp [huh.symm, hdh.symm, hch.symm]
      · rw [if_neg hh]
        by_cases hu : ascii "-u" = mode
        · subst hu
          rw [if_pos rfl]
          simp only [huh, hdu.symm, hcu.symm, false_and, false_or, or_false, true_and, true_imp_iff,
            false_imp_iff, and_true]
          exact speed_obeys (by decide) rest
        · rw [if_neg hu]
          by_cases hd : ascii "-d" = mode
          · subst hd
            rw [if_pos rfl]
            simp only [hdh, hdu, hcd.symm, false_and, false_or, or_false, true_and, or_true,
              true_imp_iff, false_imp_iff, and_true]
            exact speed_obeys (by decide) rest
          · rw [if_neg hd]
            by_cases hc : ascii "-c" = mode
            · subst hc
              rw [if_pos rfl]
              simp only [hch, hcu, hcd, false_and, false_or, true_and, true_imp_iff, false_imp_iff]
              exact crypt_obeys (by decide) rest
            · rw [if_neg hc]
              simp only [Ne.symm hh, Ne.symm hu, Ne.symm hd, Ne.symm hc, false_and, false_or,
                false_imp_iff, and_true, iff_true]
              exact ⟨fun options => ⟨fun heq => (nomatch heq), False.elim⟩, fun _ => rfl⟩

-- A mode is left behind a wrong argument, a factor is taken modulo 2 ^ 32, and a key
-- may be empty.
theorem not_obeysGrammar :
    (validargs [ascii "audible", ascii "-u", ascii "-q"] = (false, optionU) ∧
        ¬ObeysGrammar [ascii "audible", ascii "-u", ascii "-q"]) ∧
      (validargs [ascii "audible", ascii "-u", ascii "-f", ascii "4294967297"] = (true, optionU) ∧
        ¬ObeysGrammar [ascii "audible", ascii "-u", ascii "-f", ascii "4294967297"]) ∧
      validargs [ascii "audible", ascii "-c", ascii "-k", []] = (true, optionC) ∧
        ¬ObeysGrammar [ascii "audible", ascii "-c", ascii "-k", []] := by
  have hquiet : validargs [ascii "audible", ascii "-u", ascii "-q"] = (false, optionU) := by
    decide +kernel
  have hwrap : validargs [ascii "audible", ascii "-u", ascii "-f", ascii "4294967297"] =
      (true, optionU) := by
    decide +kernel
  have hempty : validargs [ascii "audible", ascii "-c", ascii "-k", []] = (true, optionC) := by
    decide +kernel
  refine ⟨⟨hquiet, ?_⟩, ⟨hwrap, ?_⟩, hempty, ?_⟩
  · rintro ⟨-, hreset⟩
    rw [hquiet] at hreset
    exact absurd (hreset rfl) (by decide)
  · rintro ⟨hall, -⟩
    obtain ⟨name, mode, rest, heq, hmode⟩ := accepts_iff.mp ((hall _).mp hwrap)
    obtain ⟨-, rfl, rfl⟩ := List.cons.inj heq |>.imp id List.cons.inj
    rcases hmode with ⟨hh, -⟩ | ⟨-, haccepts⟩ | ⟨hd, -⟩ | ⟨hc, -⟩
    · exact absurd hh (by decide)
    · obtain ⟨-, n, hfactor, -⟩ := (speedAccepts_two _ _ _ _).mp haccepts
      obtain ⟨hdigits, -, hmax⟩ := isFactor_iff.mp hfactor
      have hvalue : Lib.digits 10 (ascii "4294967297") = some 4294967297 := by decide +kernel
      rw [hvalue] at hdigits
      obtain rfl := Option.some.inj hdigits
      exact absurd hmax (by decide)
    · exact absurd hd (by decide)
    · exact absurd hc (by decide)
  · rintro ⟨hall, -⟩
    obtain ⟨name, mode, rest, heq, hmode⟩ := accepts_iff.mp ((hall _).mp hempty)
    obtain ⟨-, rfl, rfl⟩ := List.cons.inj heq |>.imp id List.cons.inj
    rcases hmode with ⟨hh, -⟩ | ⟨hu, -⟩ | ⟨hd, -⟩ | ⟨-, haccepts⟩
    · exact absurd hh (by decide)
    · exact absurd hu (by decide)
    · exact absurd hd (by decide)
    · obtain ⟨-, n, ⟨⟨hlow, -⟩, -⟩, -⟩ := (cryptAccepts_two _ _ _ _).mp haccepts
      exact absurd hlow (by decide)

end CSE320.Audible
