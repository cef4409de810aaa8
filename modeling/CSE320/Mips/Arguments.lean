import CSE320.Lib.Numeral
import CSE320.Mips.Options
import Mathlib.Tactic.Ring

namespace CSE320.Mips

open Lib (Byte ascii)

-- A test that fails returns 0, with or without a reset of global_options.
def refuse (reset : Bool) (options : BitVec 32) : Bool × BitVec 32 :=
  (false, if reset then 0 else options)

-- The branches behind -a and -d. Behind -a the first tests leave global_options as it
-- is, and each test resets it behind -d.
def modeBranches (reset : Bool) (options : BitVec 32) : List (List Byte) → Bool × BitVec 32
  | [] => (true, options)
  | [flag, arg] =>
    if flag = ascii "-b" then
      if !validBase arg then refuse reset options else (true, options ||| strToI 0 arg)
    else if flag = ascii "-e" then
      if arg = ascii "b" then (true, options ||| 4)
      else if arg = ascii "l" then (true, options)
      else refuse reset options
    else
      (false, 0)
  | [flag, arg, flag', arg'] =>
    if flag = ascii "-e" ∧ flag' = ascii "-b" then
      if arg ≠ ascii "b" ∧ arg ≠ ascii "l" then refuse reset options
      else
        let options := if arg = ascii "b" then options ||| 4 else options
        if !validBase arg' then (false, 0) else (true, options ||| strToI 0 arg')
    else if flag = ascii "-b" ∧ flag' = ascii "-e" then
      if !validBase arg then refuse reset options
      else
        let options := options ||| strToI 0 arg
        if arg' = ascii "b" then (true, options ||| 4)
        else if arg' = ascii "l" then (true, options)
        else (false, 0)
    else
      (false, 0)
  | _ => (false, 0)

-- What validargs returns, and what it leaves in global_options.
def validargsOptions : List (List Byte) → Bool × BitVec 32
  | [] => (false, 0)
  | mode :: rest =>
    if mode = ascii "-h" then (true, 1)
    else if mode = ascii "-a" then modeBranches false 0 rest
    else if mode = ascii "-d" then modeBranches true 2 rest
    else (false, 0)

-- The options when the arguments are valid.
def accepted (result : Bool × BitVec 32) : Option (BitVec 32) :=
  if result.1 then some result.2 else none

-- One to eight hexadecimal digits of a multiple of 4096.
structure IsBase (num : List Byte) : Prop where
  pos : 1 ≤ num.length
  short : num.length ≤ 8
  digits : ∀ c ∈ num, Lib.isDigit 16 c = true
  aligned : 4096 ∣ Lib.readNat 16 num

def baseValue (num : List Byte) : BitVec 32 := BitVec.ofNat 32 (Lib.readNat 16 num)

inductive Endianness : List Byte → BitVec 32 → Prop where
  | big : Endianness (ascii "b") 4
  | little : Endianness (ascii "l") 0

-- The options behind a mode and their part of global_options.
inductive ModeGrammar : List (List Byte) → BitVec 32 → Prop where
  | plain : ModeGrammar [] 0
  | base {num : List Byte} (hnum : IsBase num) : ModeGrammar [ascii "-b", num] (baseValue num)
  | endian {e : List Byte} {bit : BitVec 32} (he : Endianness e bit) : ModeGrammar
      [ascii "-e", e] bit
  | endianBase {e num : List Byte} {bit : BitVec 32} (he : Endianness e bit) (hnum : IsBase num) :
      ModeGrammar [ascii "-e", e, ascii "-b", num] (baseValue num ||| bit)
  | baseEndian {e num : List Byte} {bit : BitVec 32} (hnum : IsBase num) (he : Endianness e bit) :
      ModeGrammar [ascii "-b", num, ascii "-e", e] (baseValue num ||| bit)

inductive Grammar : List (List Byte) → BitVec 32 → Prop where
  | help (rest : List (List Byte)) : Grammar (ascii "-h" :: rest) 1
  | assemble {rest : List (List Byte)} {options : BitVec 32} (h : ModeGrammar rest options) :
      Grammar (ascii "-a" :: rest) options
  | disassemble {rest : List (List Byte)} {options : BitVec 32} (h : ModeGrammar rest options) :
      Grammar (ascii "-d" :: rest) (2 ||| options)

variable {num : List Byte}

theorem strToI_ofNat (n : Nat) (hne : num ≠ []) (h : ∀ c ∈ num, Lib.isDigit 16 c = true) :
    strToI (BitVec.ofNat 32 (n * 16)) num =
      BitVec.ofNat 32 (num.foldl (fun n c => n * 16 + Lib.digitVal c) n) := by
  induction num generalizing n with
  | nil => exact absurd rfl hne
  | cons c num ih =>
      rw [strToI, if_pos (h c List.mem_cons_self), List.foldl_cons, ← BitVec.ofNat_add]
      cases num with
      | nil => rfl
      | cons d num =>
          have hshift : BitVec.ofNat 32 (n * 16 + Lib.digitVal c) <<< 4 =
              BitVec.ofNat 32 ((n * 16 + Lib.digitVal c) * 16) := by
            apply BitVec.eq_of_toNat_eq
            rw [BitVec.toNat_shiftLeft, BitVec.toNat_ofNat, BitVec.toNat_ofNat, Nat.shiftLeft_eq]
            omega
          rw [if_neg (List.cons_ne_nil d num), hshift]
          exact ih _ (List.cons_ne_nil d num) fun b hb => h b (List.mem_cons_of_mem c hb)

theorem strToI_eq_baseValue (h : IsBase num) : strToI 0 num = baseValue num := by
  have hne : num ≠ [] := List.ne_nil_of_length_pos h.pos
  exact strToI_ofNat 0 hne h.digits

theorem readNat_append_list (front back : List Byte) :
    Lib.readNat 16 (front ++ back) = Lib.readNat 16 front * 16 ^ back.length +
      Lib.readNat 16 back := by
  have hfold (n : Nat) : back.foldl (fun n c => n * 16 + Lib.digitVal c) n =
      n * 16 ^ back.length + Lib.readNat 16 back := by
    induction back generalizing n with
    | nil => simp [Lib.readNat]
    | cons c back ih =>
        have hcons : Lib.readNat 16 (c :: back) =
            Lib.digitVal c * 16 ^ back.length + Lib.readNat 16 back :=
          (ih (0 * 16 + Lib.digitVal c)).trans (by rw [Nat.zero_mul, Nat.zero_add])
        rw [List.foldl_cons, ih, List.length_cons, hcons, Nat.pow_succ]
        ring
  have happend := hfold (Lib.readNat 16 front)
  rwa [Lib.readNat, ← List.foldl_append] at happend

theorem readNat_eq_zero : Lib.readNat 16 num = 0 ↔ ∀ c ∈ num, c = 48 := by
  induction num with
  | nil => simp [Lib.readNat]
  | cons c num ih =>
      have happend := readNat_append_list [c] num
      have hone : Lib.readNat 16 [c] = Lib.digitVal c := Nat.zero_add _
      rw [List.singleton_append, hone] at happend
      have hpow : 16 ^ num.length ≠ 0 := by simp
      have hdigit : Lib.digitVal c = 0 ↔ c = 48 := by
        rw [← BitVec.toNat_inj, show (48 : Byte).toNat = 48 from rfl]
        unfold Lib.digitVal
        split
        · omega
        · split
          · omega
          · split <;> omega
      rw [happend, Nat.add_eq_zero_iff, Nat.mul_eq_zero, ih, List.forall_mem_cons, hdigit,
        or_iff_left hpow]

-- The last three digits decide whether the number is a multiple of 4096.
theorem lastThreeZero_iff (h : ∀ c ∈ num, Lib.isDigit 16 c = true) :
    lastThreeZero num num.length = true ↔ 1 ≤ num.length ∧ 4096 ∣ Lib.readNat 16 num := by
  unfold lastThreeZero
  by_cases hempty : num.length < 1
  · rw [if_pos hempty]
    exact iff_of_false (by simp) (by omega)
  · rw [if_neg hempty, and_iff_right (by omega), List.all_eq_true]
    simp only [decide_eq_true_eq]
    rw [← readNat_eq_zero]
    by_cases hlong : num.length > 3
    · have hback : (num.drop (num.length - 3)).length = 3 := by
        rw [List.length_drop]
        omega
      have hlt : Lib.readNat 16 (num.drop (num.length - 3)) <
          16 ^ (num.drop (num.length - 3)).length :=
        Lib.readNat_lt (List.all_eq_true.mpr fun c hc => h c (List.mem_of_mem_drop hc))
      have happend := readNat_append_list (num.take (num.length - 3)) (num.drop (num.length - 3))
      rw [List.take_append_drop, hback] at happend
      rw [hback] at hlt
      rw [if_pos hlong, happend]
      omega
    · have hlt := Lib.readNat_lt (List.all_eq_true.mpr h)
      have hpow : 16 ^ num.length ≤ 16 ^ 3 := Nat.pow_le_pow_right (by decide) (by omega)
      rw [if_neg hlong]
      omega

theorem validBase_iff : validBase num = true ↔ IsBase num := by
  simp only [validBase, Bool.and_eq_true, decide_eq_true_eq, List.all_eq_true]
  constructor
  · rintro ⟨⟨hshort, hdigits⟩, hzeros⟩
    obtain ⟨hpos, haligned⟩ := (lastThreeZero_iff hdigits).mp hzeros
    exact ⟨hpos, Nat.le_of_lt_succ hshort, hdigits, haligned⟩
  · intro h
    exact ⟨⟨Nat.lt_succ_of_le h.short, h.digits⟩,
      (lastThreeZero_iff h.digits).mpr ⟨h.pos, h.aligned⟩⟩

theorem modeBranches_of_grammar {rest : List (List Byte)} {options : BitVec 32}
    (h : ModeGrammar rest options) (reset : Bool) (mode : BitVec 32) :
    modeBranches reset mode rest = (true, mode ||| options) := by
  have hflags : ascii "-e" ≠ ascii "-b" ∧ ascii "l" ≠ ascii "b" := by decide
  have hvalue {num : List Byte} (hnum : IsBase num) : strToI 0#32 num = baseValue num :=
    strToI_eq_baseValue hnum
  cases h with
  | plain => simp [modeBranches]
  | base hnum => simp [modeBranches, validBase_iff.mpr hnum, hvalue hnum]
  | endian he =>
      cases he with
      | big => simp [modeBranches, hflags.1]
      | little => simp [modeBranches, hflags.1, hflags.2]
  | endianBase he hnum =>
      cases he with
      | big =>
          simp [modeBranches, validBase_iff.mpr hnum, hvalue hnum, BitVec.or_assoc, BitVec.or_comm]
      | little =>
          simp [modeBranches, validBase_iff.mpr hnum, hvalue hnum, hflags.2]
  | baseEndian hnum he =>
      cases he with
      | big =>
          simp [modeBranches, validBase_iff.mpr hnum, hvalue hnum, hflags.1.symm, BitVec.or_assoc]
      | little =>
          simp [modeBranches, validBase_iff.mpr hnum, hvalue hnum, hflags.1.symm, hflags.2]

-- The branches accept nothing else, and leave nothing behind where they fail.
theorem modeBranches_cases (reset : Bool) (mode : BitVec 32) (hmode : reset = true ∨ mode = 0)
    (rest : List (List Byte)) :
    (∃ options, ModeGrammar rest options) ∨ modeBranches reset mode rest = (false, 0) := by
  have hrefuse : refuse reset mode = (false, 0) := by
    rcases hmode with rfl | rfl
    · rfl
    · cases reset <;> rfl
  have hendian (e : List Byte) : (∃ bit, Endianness e bit) ∨ (e ≠ ascii "b" ∧ e ≠ ascii "l") := by
    by_cases hb : e = ascii "b"
    · exact Or.inl ⟨4, hb ▸ .big⟩
    · by_cases hl : e = ascii "l"
      · exact Or.inl ⟨0, hl ▸ .little⟩
      · exact Or.inr ⟨hb, hl⟩
  match rest with
  | [] => exact Or.inl ⟨_, .plain⟩
  | [flag] => exact Or.inr rfl
  | [flag, arg] =>
      by_cases hb : flag = ascii "-b"
      · subst hb
        by_cases hbase : validBase arg = true
        · exact Or.inl ⟨_, .base (validBase_iff.mp hbase)⟩
        · exact Or.inr (by simp [modeBranches, hbase, hrefuse])
      · by_cases he : flag = ascii "-e"
        · subst he
          rcases hendian arg with ⟨bit, h⟩ | ⟨hnb, hnl⟩
          · exact Or.inl ⟨_, .endian h⟩
          · exact Or.inr (by simp [modeBranches, hb, hnb, hnl, hrefuse])
        · exact Or.inr (by simp [modeBranches, hb, he])
  | [flag, arg, flag'] => exact Or.inr rfl
  | [flag, arg, flag', arg'] =>
      by_cases heb : flag = ascii "-e" ∧ flag' = ascii "-b"
      · obtain ⟨rfl, rfl⟩ := heb
        rcases hendian arg with ⟨bit, h⟩ | ⟨hnb, hnl⟩
        · by_cases hbase : validBase arg' = true
          · exact Or.inl ⟨_, .endianBase h (validBase_iff.mp hbase)⟩
          · right
            cases h <;> simp [modeBranches, hbase]
        · exact Or.inr (by simp [modeBranches, hnb, hnl, hrefuse])
      · by_cases hbe : flag = ascii "-b" ∧ flag' = ascii "-e"
        · obtain ⟨rfl, rfl⟩ := hbe
          by_cases hbase : validBase arg = true
          · rcases hendian arg' with ⟨bit, h⟩ | ⟨hnb, hnl⟩
            · exact Or.inl ⟨_, .baseEndian (validBase_iff.mp hbase) h⟩
            · right
              simp only [modeBranches, if_neg heb, and_self, if_true, hbase, Bool.not_true,
                Bool.false_eq_true, if_false, hnb, hnl]
          · right
            simp only [modeBranches, if_neg heb, and_self, if_true, hbase, Bool.not_false, hrefuse]
        · exact Or.inr (by simp only [modeBranches, if_neg heb, if_neg hbe])
  | _ :: _ :: _ :: _ :: _ :: _ => exact Or.inr rfl

-- The arguments are accepted if and only if they follow the grammar, with the options
-- that it gives them, and global_options is 0 otherwise.
theorem validargsOptions_grammar (args : List (List Byte)) :
    (∃ options, Grammar args options ∧ validargsOptions args = (true, options)) ∨
      ((∀ options, ¬Grammar args options) ∧ validargsOptions args = (false, 0)) := by
  have hmodes : ascii "-a" ≠ ascii "-h" ∧ ascii "-d" ≠ ascii "-h" ∧ ascii "-d" ≠ ascii "-a" := by
    decide
  cases args with
  | nil => exact Or.inr ⟨fun _ h => (by cases h), rfl⟩
  | cons mode rest =>
      by_cases hh : mode = ascii "-h"
      · subst hh
        exact Or.inl ⟨1, .help rest, by rw [validargsOptions, if_pos rfl]⟩
      · by_cases ha : mode = ascii "-a"
        · subst ha
          have hrun : validargsOptions (ascii "-a" :: rest) = modeBranches false 0 rest := by
            rw [validargsOptions, if_neg hmodes.1, if_pos rfl]
          by_cases hrest : ∃ options, ModeGrammar rest options
          · obtain ⟨options, h⟩ := hrest
            refine Or.inl ⟨options, .assemble h, ?_⟩
            rw [hrun, modeBranches_of_grammar h]
            exact congrArg (Prod.mk true) BitVec.zero_or
          · refine Or.inr ⟨fun options h => ?_, ?_⟩
            · generalize hargs : ascii "-a" :: rest = args at h
              cases h with
              | help => exact hmodes.1 (List.cons.inj hargs).1
              | assemble h => exact hrest ⟨_, (List.cons.inj hargs).2 ▸ h⟩
              | disassemble h => exact hmodes.2.2 (List.cons.inj hargs).1.symm
            · rw [hrun]
              exact (modeBranches_cases false 0 (Or.inr rfl) rest).resolve_left hrest
        · by_cases hd : mode = ascii "-d"
          · subst hd
            have hrun : validargsOptions (ascii "-d" :: rest) = modeBranches true 2 rest := by
              rw [validargsOptions, if_neg hmodes.2.1, if_neg hmodes.2.2, if_pos rfl]
            by_cases hrest : ∃ options, ModeGrammar rest options
            · obtain ⟨options, h⟩ := hrest
              refine Or.inl ⟨2 ||| options, .disassemble h, ?_⟩
              rw [hrun, modeBranches_of_grammar h]
            · refine Or.inr ⟨fun options h => ?_, ?_⟩
              · generalize hargs : ascii "-d" :: rest = args at h
                cases h with
                | help => exact hmodes.2.1 (List.cons.inj hargs).1
                | assemble h => exact hmodes.2.2 (List.cons.inj hargs).1
                | disassemble h => exact hrest ⟨_, (List.cons.inj hargs).2 ▸ h⟩
              · rw [hrun]
                exact (modeBranches_cases true 2 (Or.inl rfl) rest).resolve_left hrest
          · refine Or.inr ⟨fun options h => ?_, ?_⟩
            · cases h with
              | help => exact hh rfl
              | assemble h => exact ha rfl
              | disassemble h => exact hd rfl
            · rw [validargsOptions, if_neg hh, if_neg ha, if_neg hd]

theorem modeArgs_eq (reset : Bool) (options : BitVec 32) (rest : List (List Byte)) :
    modeArgs options rest = accepted (modeBranches reset options rest) := by
  match rest with
  | [] => rfl
  | [flag] => rfl
  | [flag, arg] =>
      simp only [modeArgs, modeBranches, baseAddress, endianness, refuse, accepted]
      grind
  | [flag, arg, flag'] => rfl
  | [flag, arg, flag', arg'] =>
      simp only [modeArgs, modeBranches, baseAddress, endianness, refuse, accepted]
      grind
  | _ :: _ :: _ :: _ :: _ :: _ => rfl

-- The program runs with the options that are accepted.
theorem validargs_eq (args : List (List Byte)) :
    validargs args = accepted (validargsOptions args) := by
  cases args with
  | nil => rfl
  | cons mode rest =>
      rw [validargs, validargsOptions, modeArgs_eq false, modeArgs_eq true]
      repeat' split
      all_goals rfl

end CSE320.Mips
