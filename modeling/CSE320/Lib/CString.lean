import CSE320.Lib.Numeral

namespace CSE320.Lib

-- The string at the front of a piece of memory. A list that ends without a NUL stands
-- for a string whose NUL has been left out.
def cstr (mem : List Byte) : List Byte := mem.takeWhile (· ≠ 0)

-- The lower case of the C locale.
def tolower (c : Byte) : Byte := if 65 ≤ c.toNat ∧ c.toNat ≤ 90 then c + 32 else c

-- At most n characters are mapped and compared, up to the end of the strings.
def compareBy (f : Byte → Byte) : Nat → List Byte → List Byte → Int
  | 0, _, _ => 0
  | n + 1, s, t =>
    let a := f (s.headD 0)
    let b := f (t.headD 0)
    if a ≠ b then (a.toNat : Int) - b.toNat
    else if a = 0 then 0
    else compareBy f n s.tail t.tail

def strncmp (s t : List Byte) (n : Nat) : Int := compareBy id n s t

def strcasecmp (s t : List Byte) : Int := compareBy tolower (s.length + t.length + 1) s t

-- At most n characters are copied, and the rest of n is filled with NULs.
def strncpy (s : List Byte) (n : Nat) : List Byte :=
  (cstr s).take n ++ List.replicate (n - (cstr s).length) 0

-- The place of the first character of its kind.
def strchr (s : List Byte) (c : Byte) : Option Nat := (cstr s).findIdx? (· = c)

-- The value of a decimal number, or the nearest one that a long can have.
def strtol (s : List Byte) : Int :=
  let (negative, s) := Conversion.sign (s.dropWhile isSpace)
  let n := readNat 10 (s.takeWhile (isDigit 10))
  max (-2 ^ 63) (min (2 ^ 63 - 1) (if negative then -(n : Int) else n))

def atoi (s : List Byte) : BitVec 32 := BitVec.ofInt 32 (strtol s)

section

variable {s t : List Byte}

theorem cstr_eq (s : List Byte) :
    cstr s = if s.headD 0 = 0 then [] else s.headD 0 :: cstr s.tail := by
  cases s with
  | nil => rfl
  | cons a s =>
      show List.takeWhile _ (a :: s) = if a = 0 then [] else a :: cstr s
      by_cases ha : a = 0
      · rw [if_pos ha, List.takeWhile_cons_of_neg (by simpa using ha)]
      · rw [if_neg ha, List.takeWhile_cons_of_pos (by simpa using ha)]
        rfl

theorem headD_cstr (s : List Byte) : (cstr s).headD 0 = s.headD 0 := by
  rw [cstr_eq s]
  split
  · rename_i hzero
    exact hzero.symm
  · rfl

theorem cstr_eq_self (h : ∀ c ∈ s, c ≠ 0) : cstr s = s :=
  List.takeWhile_eq_self_iff.mpr fun c hc => decide_eq_true (h c hc)

-- A string in front of its NUL.
theorem cstr_append (h : ∀ c ∈ s, c ≠ 0) (rest : List Byte) : cstr (s ++ 0 :: rest) = s := by
  rw [cstr, List.takeWhile_append_of_pos fun c hc => decide_eq_true (h c hc)]
  exact List.append_nil s

-- A NUL that is added leaves the string and its first character.
theorem cstr_append_nul (s : List Byte) : cstr (s ++ [0]) = cstr s := by
  induction s with
  | nil => rfl
  | cons c s ih =>
      rw [List.cons_append, cstr_eq, cstr_eq (c :: s)]
      simp only [List.headD_cons, List.tail_cons, ih]
      rfl

theorem headD_append_nul (s : List Byte) : (s ++ [0]).headD 0 = s.headD 0 := by
  rw [← headD_cstr, cstr_append_nul, headD_cstr]

theorem length_cstr_le (s : List Byte) : (cstr s).length ≤ s.length :=
  (List.takeWhile_prefix _).length_le

-- A text without NULs is copied as it is.
theorem strncpy_length (h : ∀ c ∈ s, c ≠ 0) : strncpy s s.length = s := by
  rw [strncpy, cstr_eq_self h, List.take_length, Nat.sub_self, List.replicate_zero, List.append_nil]

-- The comparison finds no difference exactly when there is none in front of the NULs.
theorem compareBy_eq_zero {f : Byte → Byte} (hf : ∀ c, f c = 0 ↔ c = 0) (n : Nat) :
    compareBy f n s t = 0 ↔ ((cstr s).map f).take n = ((cstr t).map f).take n := by
  induction n generalizing s t with
  | zero => simp [compareBy]
  | succ n ih =>
      rw [compareBy, cstr_eq s, cstr_eq t]
      generalize s.headD 0 = a
      generalize t.headD 0 = b
      by_cases hab : f a = f b
      · have hzero : a = 0 ↔ b = 0 := by rw [← hf a, ← hf b, hab]
        rw [if_neg (not_not.mpr hab)]
        by_cases ha : a = 0
        · rw [if_pos ((hf a).mpr ha), if_pos ha, if_pos (hzero.mp ha)]
          exact iff_of_true rfl rfl
        · rw [if_neg (mt (hf a).mp ha), if_neg ha, if_neg (mt hzero.mpr ha), ih]
          simp only [List.map_cons, List.take_succ_cons, hab, List.cons.injEq, true_and]
      · have hnat : (f a).toNat ≠ (f b).toNat := mt BitVec.eq_of_toNat_eq hab
        rw [if_pos hab]
        refine iff_of_false (by omega) fun h => ?_
        by_cases ha : a = 0
        · have hb : b ≠ 0 := fun hb => hab (by rw [ha, hb])
          rw [if_pos ha, if_neg hb] at h
          cases h
        · rw [if_neg ha] at h
          by_cases hb : b = 0
          · rw [if_pos hb] at h
            cases h
          · rw [if_neg hb] at h
            injection h with h
            exact hab h

theorem strncmp_eq_zero (n : Nat) : strncmp s t n = 0 ↔ (cstr s).take n = (cstr t).take n := by
  have hid (c : Byte) : id c = 0 ↔ c = 0 := Iff.rfl
  rw [strncmp, compareBy_eq_zero hid, List.map_id, List.map_id]

theorem tolower_eq_zero (c : Byte) : tolower c = 0 ↔ c = 0 := by
  revert c
  decide

theorem strcasecmp_eq_zero :
    strcasecmp s t = 0 ↔ (cstr s).map tolower = (cstr t).map tolower := by
  have hs := length_cstr_le s
  have ht := length_cstr_le t
  rw [strcasecmp, compareBy_eq_zero tolower_eq_zero, List.take_of_length_le, List.take_of_length_le]
  · rw [List.length_map]
    omega
  · rw [List.length_map]
    omega

-- The first character of its kind has only others in front of it.
theorem strchr_append {front rest : List Byte} {c : Byte} (hc : c ≠ 0)
    (h : ∀ a ∈ front, a ≠ 0 ∧ a ≠ c) : strchr (front ++ c :: rest) c = some front.length := by
  have hfront : cstr (front ++ c :: rest) = front ++ c :: cstr rest := by
    rw [cstr, List.takeWhile_append_of_pos fun a ha => decide_eq_true (h a ha).1,
      List.takeWhile_cons_of_pos (by simpa using hc)]
    rfl
  have hnone : front.findIdx? (· = c) = none := by
    rw [List.findIdx?_eq_none_iff]
    exact fun a ha => decide_eq_false (h a ha).2
  rw [strchr, hfront, List.findIdx?_append, hnone, List.findIdx?_cons]
  simp

-- A number without a sign in front of it.
theorem atoi_of_digits {n : Nat} (h : decimal s = some n) (hlt : n < 2 ^ 31) :
    (atoi s).toInt = n := by
  obtain ⟨hne, hdigits⟩ := decimal_eq_some.mp h
  obtain ⟨hall, hread⟩ := digits_eq_some.mp hdigits
  have hsign : Conversion.sign (s.dropWhile isSpace) = (false, s) := by
    cases s with
    | nil => exact absurd rfl hne
    | cons c rest =>
        have hc : isDigit 10 c = true := List.all_eq_true.mp hall c List.mem_cons_self
        have hplain : ∀ c : Byte, isDigit 10 c = true → isSpace c = false ∧ c ≠ 45 ∧ c ≠ 43 := by
          decide
        obtain ⟨hspace, hminus, hplus⟩ := hplain c hc
        rw [List.dropWhile_cons_of_neg (by rw [hspace]; exact Bool.false_ne_true),
          Conversion.sign, if_neg hminus, if_neg hplus]
  rw [atoi, strtol, hsign]
  simp only [Bool.false_eq_true, if_false]
  rw [List.takeWhile_eq_self_iff.mpr (List.all_eq_true.mp hall), hread, min_eq_right (by omega),
    max_eq_right (by omega), BitVec.toInt_ofInt]
  exact Int.bmod_eq_of_le (by omega) (by omega)

end

end CSE320.Lib
