import CSE320.Lib.Bytes
import Mathlib.Algebra.Group.Int.Defs
import Mathlib.Algebra.Group.Nat.Defs

namespace CSE320.Lib

-- The bytes of a string of ASCII characters.
def ascii (s : String) : List Byte := s.toList.map fun c => BitVec.ofNat 8 c.toNat

-- The white space of the C locale.
def isSpace (c : Byte) : Bool := c = 32 || (9 ≤ c.toNat && c.toNat ≤ 13)

-- The value of a digit in a base up to 16. Other characters have a larger value.
def digitVal (c : Byte) : Nat :=
  if 48 ≤ c.toNat ∧ c.toNat ≤ 57 then c.toNat - 48
  else if 97 ≤ c.toNat ∧ c.toNat ≤ 102 then c.toNat - 87
  else if 65 ≤ c.toNat ∧ c.toNat ≤ 70 then c.toNat - 55
  else 16

def isDigit (base : Nat) (c : Byte) : Bool := digitVal c < base

def digitChar (d : Nat) : Byte := BitVec.ofNat 8 (if d < 10 then 48 + d else 87 + d)

-- The digits of a number, with at most the given number of them.
def showDigits (base : Nat) : Nat → Nat → List Byte
  | 0, _ => []
  | k + 1, n =>
      if n < base then [digitChar n] else showDigits base k (n / base) ++ [digitChar (n % base)]

def showNat (base n : Nat) : List Byte := showDigits base (n + 1) n

def readNat (base : Nat) (digits : List Byte) : Nat :=
  digits.foldl (fun n c => n * base + digitVal c) 0

-- The conversions %d and %x for an int.
inductive Conversion where
  | dec
  | hex
deriving DecidableEq, Repr

namespace Conversion

def base : Conversion → Nat
  | dec => 10
  | hex => 16

def print : Conversion → BitVec 32 → List Byte
  | dec, v => if v.toInt < 0 then 45 :: showNat 10 v.toInt.natAbs else showNat 10 v.toNat
  | hex, v => showNat 16 v.toNat

-- The number is read as strtol and strtoul read it, with the value nearest to a
-- number that is too large, and the lower half of the result is stored.
def value : Conversion → Bool → Nat → BitVec 32
  | dec, negative, n =>
    BitVec.ofInt 32 (max (-2 ^ 63) (min (2 ^ 63 - 1) (if negative then -(n : Int) else n)))
  | hex, negative, n =>
    if n < 2 ^ 64 then (if negative then -BitVec.ofNat 32 n else BitVec.ofNat 32 n) else -1

def sign : List Byte → Bool × List Byte
  | [] => (false, [])
  | c :: s => if c = 45 then (true, s) else if c = 43 then (false, s) else (false, c :: s)

-- The characters 0x in front of a hexadecimal number.
def skipMark : Conversion → List Byte → List Byte
  | hex, c :: d :: s => if c = 48 ∧ (d = 120 ∨ d = 88) then s else c :: d :: s
  | _, s => s

-- The longest number at the front of the input. Characters that start a number
-- but are none, such as a sign alone, match nothing.
def scan (k : Conversion) (s : List Byte) : Option (BitVec 32 × List Byte) :=
  let (negative, s) := sign s
  let s := k.skipMark s
  let digits := s.takeWhile (isDigit k.base)
  if digits = [] then none
  else some (k.value negative (readNat k.base digits), s.dropWhile (isDigit k.base))

end Conversion

inductive Directive where
  | space (c : Byte)
  | lit (c : Byte)
  | conv (k : Conversion)
deriving DecidableEq, Repr

-- The formats that are modelled hold no other conversion than %d and %x.
def directives : List Byte → List Directive
  | [] => []
  | [c] => [if isSpace c then .space c else .lit c]
  | c :: d :: s =>
    if c = 37 ∧ d = 100 then .conv .dec :: directives s
    else if c = 37 ∧ d = 120 then .conv .hex :: directives s
    else (if isSpace c then .space c else .lit c) :: directives (d :: s)

def print : List Directive → List (BitVec 32) → List Byte
  | [], _ => []
  | .space c :: ds, vs | .lit c :: ds, vs => c :: print ds vs
  | .conv k :: ds, v :: vs => k.print v ++ print ds vs
  | .conv _ :: ds, [] => print ds []

def printf (format : List Byte) (vs : List (BitVec 32)) : List Byte := print (directives format) vs

-- The result of sscanf and the values that it has stored.
structure Scan where
  count : Int
  values : List (BitVec 32)
deriving DecidableEq, Repr

-- The input ends: the result is EOF when nothing has been stored.
def Scan.ended (vs : List (BitVec 32)) : Scan := ⟨if vs = [] then -1 else vs.length, vs⟩

def Scan.matched (vs : List (BitVec 32)) : Scan := ⟨vs.length, vs⟩

def scan : List Directive → List Byte → List (BitVec 32) → Scan
  | [], _, vs => .matched vs
  | .space _ :: ds, s, vs => scan ds (s.dropWhile isSpace) vs
  | .lit c :: ds, s, vs =>
    match s with
    | [] => .ended vs
    | b :: s => if b = c then scan ds s vs else .matched vs
  | .conv k :: ds, s, vs =>
    let s := s.dropWhile isSpace
    if s = [] then .ended vs
    else
      match k.scan s with
      | none => .matched vs
      | some (v, s) => scan ds s (vs ++ [v])

def sscanf (s format : List Byte) : Scan := scan (directives format) s []

-- A character that neither continues a number nor marks one as hexadecimal.
def stops (c : Byte) : Bool := !isDigit 16 c && c ≠ 120 && c ≠ 88

-- Text that cannot continue a number in front of it.
def Stops (s : List Byte) : Prop := ∀ c ∈ s.head?, stops c = true

-- Formats that can be read back: a blank is followed by something else, a literal
-- is no blank, and a number is followed by a literal that ends it, or by nothing.
def readable : List Directive → Bool
  | [] => true
  | .space c :: ds =>
      isSpace c && (match ds with | .space _ :: _ | [] => false | _ => true) && readable ds
  | .lit c :: ds => !isSpace c && readable ds
  | .conv _ :: ds =>
      (match ds with | [] => true | .lit c :: _ => stops c | _ => false) && readable ds

-- The number of values that a format takes.
def arity (ds : List Directive) : Nat :=
  ds.countP fun d => match d with | .conv _ => true | _ => false

-- The input differs from the format before the first conversion and before its
-- own end, whatever follows it.
def mismatch : List Directive → List Byte → Bool
  | .space _ :: ds, s => s.dropWhile isSpace ≠ [] && mismatch ds (s.dropWhile isSpace)
  | .lit c :: ds, b :: s => b ≠ c || mismatch ds s
  | _, _ => false

theorem digit_spec : ∀ d < 16, digitVal (digitChar d) = d ∧ isSpace (digitChar d) = false ∧
    digitChar d ≠ 45 ∧ digitChar d ≠ 43 ∧ digitChar d ≠ 120 ∧ digitChar d ≠ 88 := by
  decide

section

variable {base k n : Nat}

theorem readNat_append (digits : List Byte) (c : Byte) :
    readNat base (digits ++ [c]) = readNat base digits * base + digitVal c := by
  rw [readNat, List.foldl_append]
  rfl

theorem showDigits_spec (hbase : 2 ≤ base ∧ base ≤ 16) (hk : n < k) :
    showDigits base k n ≠ [] ∧ (∀ c ∈ showDigits base k n, ∃ d < base, c = digitChar d) ∧
      readNat base (showDigits base k n) = n := by
  induction k generalizing n with
  | zero => omega
  | succ k ih =>
      unfold showDigits
      by_cases hn : n < base
      · rw [if_pos hn]
        refine ⟨List.cons_ne_nil _ _, fun c hc => ⟨n, hn, List.mem_singleton.mp hc⟩, ?_⟩
        have hval := (digit_spec n (by omega)).1
        simp [readNat, hval]
      · rw [if_neg hn]
        have hdiv : n / base < n := Nat.div_lt_self (by omega) (by omega)
        have hmod : n % base < base := Nat.mod_lt _ (by omega)
        obtain ⟨-, hdigits, hread⟩ := ih (show n / base < k by omega)
        refine ⟨by simp, fun c hc => ?_, ?_⟩
        · rcases List.mem_append.mp hc with hc | hc
          · exact hdigits c hc
          · exact ⟨n % base, hmod, List.mem_singleton.mp hc⟩
        · rw [readNat_append, hread, (digit_spec (n % base) (by omega)).1, Nat.mul_comm]
          exact Nat.div_add_mod n base

theorem showNat_spec (hbase : 2 ≤ base ∧ base ≤ 16) (n : Nat) :
    showNat base n ≠ [] ∧ (∀ c ∈ showNat base n, ∃ d < base, c = digitChar d) ∧
      readNat base (showNat base n) = n := showDigits_spec hbase (Nat.lt_succ_self n)

-- The digits of a number are what is taken of the text it starts.
theorem span_showNat (hbase : 2 ≤ base ∧ base ≤ 16) (n : Nat) {rest : List Byte}
    (hrest : Stops rest) :
    (showNat base n ++ rest).takeWhile (isDigit base) = showNat base n ∧
      (showNat base n ++ rest).dropWhile (isDigit base) = rest := by
  have hall : ∀ c ∈ showNat base n, isDigit base c = true := by
    intro c hc
    obtain ⟨d, hd, rfl⟩ := (showNat_spec hbase n).2.1 c hc
    simp [isDigit, (digit_spec d (by omega)).1, hd]
  have hstop : rest.takeWhile (isDigit base) = [] ∧ rest.dropWhile (isDigit base) = rest := by
    cases rest with
    | nil => exact ⟨rfl, rfl⟩
    | cons c rest =>
        have hc := hrest c rfl
        simp only [stops, isDigit, Bool.and_eq_true, Bool.not_eq_true',
          decide_eq_false_iff_not] at hc
        have hno : isDigit base c = false := by
          simp only [isDigit, decide_eq_false_iff_not]
          omega
        simp [hno]
  rw [List.takeWhile_append_of_pos hall, List.dropWhile_append_of_pos hall, hstop.1, hstop.2,
    List.append_nil]
  exact ⟨rfl, rfl⟩

end

namespace Conversion

theorem base_bounds (k : Conversion) : 2 ≤ k.base ∧ k.base ≤ 16 := by
  cases k <;> decide

-- A number without a sign starts with a digit, so no sign and no mark is skipped.
theorem scan_showNat (k : Conversion) (n : Nat) {rest : List Byte} (hrest : Stops rest) :
    k.scan (showNat k.base n ++ rest) = some (k.value false n, rest) := by
  obtain ⟨hne, hdigits, hread⟩ := showNat_spec k.base_bounds n
  obtain ⟨htake, hdrop⟩ := span_showNat k.base_bounds n hrest
  have hk := k.base_bounds
  obtain ⟨c, s, hcs⟩ := List.exists_cons_of_ne_nil hne
  have hc : ∃ d < k.base, c = digitChar d := hdigits c (by simp [hcs])
  obtain ⟨d, hd, rfl⟩ := hc
  obtain ⟨-, -, hminus, hplus, -, -⟩ := digit_spec d (by omega)
  have hsign : sign (showNat k.base n ++ rest) = (false, showNat k.base n ++ rest) := by
    rw [hcs, List.cons_append, sign, if_neg hminus, if_neg hplus]
  have hmark : k.skipMark (showNat k.base n ++ rest) = showNat k.base n ++ rest := by
    cases k with
    | dec => cases (showNat dec.base n ++ rest) <;> rfl
    | hex =>
        rw [hcs]
        cases hs : s ++ rest with
        | nil => rw [List.cons_append, hs]; rfl
        | cons b s' =>
            rw [List.cons_append, hs, skipMark, if_neg]
            rintro ⟨-, hb⟩
            cases s with
            | nil =>
                have hstop := hrest b (by simpa using congrArg List.head? hs)
                simp only [stops, Bool.and_eq_true, decide_eq_true_eq] at hstop
                rcases hb with rfl | rfl
                · exact hstop.1.2 rfl
                · exact hstop.2 rfl
            | cons b' s =>
                obtain ⟨rfl, -⟩ := List.cons.inj hs
                obtain ⟨d', hd', hb'⟩ := hdigits b' (by simp [hcs])
                obtain ⟨-, -, -, -, hx, hX⟩ := digit_spec d' (by omega)
                rcases hb with rfl | rfl
                · exact hx hb'.symm
                · exact hX hb'.symm
  unfold scan
  rw [hsign]
  simp only [hmark, htake, hdrop, if_neg hne, hread]

theorem value_dec (v : BitVec 32) :
    (v.toInt < 0 → dec.value true v.toInt.natAbs = v) ∧
      (¬v.toInt < 0 → dec.value false v.toNat = v) := by
  have hlow := BitVec.le_toInt v
  have hhigh := BitVec.toInt_lt (x := v)
  constructor
  · intro hneg
    have habs : -(v.toInt.natAbs : Int) = v.toInt := by omega
    simp only [value, if_true, habs]
    rw [Int.min_eq_right (by omega), Int.max_eq_right (by omega), BitVec.ofInt_toInt]
  · intro hpos
    have heq : (v.toNat : Int) = v.toInt := by
      rw [BitVec.toInt_eq_toNat_cond] at hpos ⊢
      split at hpos
      · rw [if_pos (by assumption)]
      · omega
    simp only [value, Bool.false_eq_true, if_false, heq]
    rw [Int.min_eq_right (by omega), Int.max_eq_right (by omega), BitVec.ofInt_toInt]

-- What is printed is read back.
theorem scan_print (k : Conversion) (v : BitVec 32) {rest : List Byte} (hrest : Stops rest) :
    k.scan (k.print v ++ rest) = some (v, rest) := by
  cases k with
  | hex =>
      have hscan := hex.scan_showNat v.toNat hrest
      have hvalue : hex.value false v.toNat = v := by
        have hlt := v.isLt
        simp only [value, Bool.false_eq_true, if_false]
        rw [if_pos (by omega), BitVec.ofNat_toNat, BitVec.setWidth_eq]
      rw [hvalue] at hscan
      exact hscan
  | dec =>
      by_cases hneg : v.toInt < 0
      · obtain ⟨htake, hdrop⟩ := span_showNat dec.base_bounds v.toInt.natAbs hrest
        obtain ⟨hne, -, hread⟩ := showNat_spec dec.base_bounds v.toInt.natAbs
        have hprint : dec.print v ++ rest = 45 :: (showNat dec.base v.toInt.natAbs ++ rest) := by
          simp [print, hneg, base]
        have hmark (s : List Byte) : dec.skipMark s = s := by
          cases s <;> rfl
        rw [hprint, scan, sign, if_pos rfl]
        simp only [hmark, htake, hdrop, if_neg hne, hread, (value_dec v).1 hneg]
      · have hscan := dec.scan_showNat v.toNat hrest
        rw [(value_dec v).2 hneg] at hscan
        have hprint : dec.print v = showNat dec.base v.toNat := by
          simp [print, hneg, base]
        rw [hprint]
        exact hscan

-- The text of a number consists of digits and a sign.
theorem print_chars (k : Conversion) (v : BitVec 32) :
    k.print v ≠ [] ∧ ∀ c ∈ k.print v, c = 45 ∨ ∃ d < 16, c = digitChar d := by
  have hchars (n : Nat) : ∀ c ∈ showNat k.base n, ∃ d < 16, c = digitChar d := by
    intro c hc
    have hk := k.base_bounds
    obtain ⟨d, hd, rfl⟩ := (showNat_spec k.base_bounds n).2.1 c hc
    exact ⟨d, by omega, rfl⟩
  cases k with
  | hex => exact ⟨(showNat_spec hex.base_bounds _).1, fun c hc => Or.inr (hchars _ c hc)⟩
  | dec =>
      by_cases hneg : v.toInt < 0
      · simp only [print, hneg, if_true]
        refine ⟨List.cons_ne_nil _ _, fun c hc => ?_⟩
        rcases List.mem_cons.mp hc with rfl | hc
        · exact Or.inl rfl
        · exact Or.inr (hchars _ c hc)
      · simp only [print, hneg, if_false]
        exact ⟨(showNat_spec dec.base_bounds _).1, fun c hc => Or.inr (hchars _ c hc)⟩

-- The text of a number is not empty and holds no blank.
theorem print_solid (k : Conversion) (v : BitVec 32) :
    k.print v ≠ [] ∧ ∀ c ∈ k.print v, isSpace c = false := by
  obtain ⟨hne, hchars⟩ := k.print_chars v
  refine ⟨hne, fun c hc => ?_⟩
  rcases hchars c hc with rfl | ⟨d, hd, rfl⟩
  · decide
  · exact (digit_spec d hd).2.1

end Conversion

theorem dropWhile_of_head {s : List Byte} (h : ∀ c ∈ s.head?, isSpace c = false) :
    s.dropWhile isSpace = s := by
  cases s with
  | nil => rfl
  | cons c s => simp [h c rfl]

-- Text that starts with a number.
theorem print_append_solid (k : Conversion) (v : BitVec 32) (s : List Byte) :
    k.print v ++ s ≠ [] ∧ ∀ c ∈ (k.print v ++ s).head?, isSpace c = false := by
  obtain ⟨hne, hsolid⟩ := k.print_solid v
  obtain ⟨b, s', hb⟩ := List.exists_cons_of_ne_nil hne
  rw [hb] at hsolid ⊢
  refine ⟨by simp, fun c hc => ?_⟩
  obtain rfl : b = c := by simpa using hc
  exact hsolid b List.mem_cons_self

-- What stands behind a blank in a readable format is not printed as a blank.
theorem print_head {ds : List Directive} (hds : readable ds = true) (hne : ds ≠ [])
    (hspace : ∀ c ds', ds ≠ .space c :: ds') {vs : List (BitVec 32)} (hvs : arity ds = vs.length)
    (rest : List Byte) :
    ∀ c ∈ (print ds vs ++ rest).head?, isSpace c = false := by
  cases ds with
  | nil => exact absurd rfl hne
  | cons d ds =>
      cases d with
      | space c => exact absurd rfl (hspace c ds)
      | lit b =>
          intro c hc
          obtain rfl : b = c := by simpa [print] using hc
          simp only [readable, Bool.and_eq_true, Bool.not_eq_true'] at hds
          exact hds.1
      | conv k =>
          cases vs with
          | nil => simp [arity] at hvs
          | cons v vs =>
              rw [print, List.append_assoc]
              exact (print_append_solid k v _).2

-- The values that a readable format prints are read back from the text.
theorem scan_print {ds : List Directive} (hds : readable ds = true) {vs : List (BitVec 32)}
    (hvs : arity ds = vs.length) {rest : List Byte} (hrest : Stops rest) (acc : List (BitVec 32)) :
    scan ds (print ds vs ++ rest) acc = .matched (acc ++ vs) := by
  induction ds generalizing vs acc with
  | nil =>
      obtain rfl : vs = [] := List.length_eq_zero_iff.mp hvs.symm
      simp [scan]
  | cons d ds ih =>
      cases d with
      | space c =>
          simp only [readable, Bool.and_eq_true] at hds
          obtain ⟨⟨hc, hnext⟩, hds⟩ := hds
          have hhead : ∀ c ∈ (print ds vs ++ rest).head?, isSpace c = false := by
            refine print_head hds ?_ ?_ hvs rest
            · rintro rfl
              cases hnext
            · rintro c' ds' rfl
              cases hnext
          rw [print, List.cons_append, scan, List.dropWhile_cons_of_pos hc, dropWhile_of_head hhead]
          exact ih hds hvs acc
      | lit c =>
          simp only [readable, Bool.and_eq_true] at hds
          rw [print, List.cons_append, scan, if_pos rfl]
          exact ih hds.2 hvs acc
      | conv k =>
          cases vs with
          | nil => simp [arity] at hvs
          | cons v vs =>
              simp only [readable, Bool.and_eq_true] at hds
              have hvs' : arity ds = vs.length := by simpa [arity] using hvs
              have hstops : Stops (print ds vs ++ rest) := by
                cases ds with
                | nil => simpa [print] using hrest
                | cons d ds =>
                    cases d with
                    | lit c =>
                        intro b hb
                        obtain rfl : c = b := by simpa [print] using hb
                        exact hds.1
                    | space c => cases hds.1
                    | conv k => cases hds.1
              obtain ⟨hne, hsolid⟩ := print_append_solid k v (print ds vs ++ rest)
              rw [print, List.append_assoc, scan]
              simp only [dropWhile_of_head hsolid, if_neg hne, k.scan_print v hstops]
              rw [ih hds.2 hvs' (acc ++ [v]), List.append_assoc]
              rfl

-- The characters of a text come from its format or from a number.
theorem mem_print {ds : List Directive} {vs : List (BitVec 32)} {c : Byte} (h : c ∈ print ds vs) :
    Directive.space c ∈ ds ∨ Directive.lit c ∈ ds ∨ c = 45 ∨ ∃ d < 16, c = digitChar d := by
  induction ds generalizing vs with
  | nil => cases h
  | cons d ds ih =>
      have hrest {vs : List (BitVec 32)} (h : c ∈ print ds vs) :
          Directive.space c ∈ d :: ds ∨ Directive.lit c ∈ d :: ds ∨ c = 45 ∨
            ∃ d < 16, c = digitChar d :=
        (ih h).imp (List.mem_cons_of_mem d) (Or.imp_left (List.mem_cons_of_mem d))
      cases d with
      | space b =>
          rcases List.mem_cons.mp h with rfl | h
          · exact Or.inl List.mem_cons_self
          · exact hrest h
      | lit b =>
          rcases List.mem_cons.mp h with rfl | h
          · exact Or.inr (Or.inl List.mem_cons_self)
          · exact hrest h
      | conv k =>
          cases vs with
          | nil => exact hrest h
          | cons v vs =>
              rcases List.mem_append.mp h with h | h
              · exact Or.inr (Or.inr ((k.print_chars v).2 c h))
              · exact hrest h

-- Values that the format does not ask for are not printed.
theorem print_append (ds : List Directive) {vs : List (BitVec 32)} (h : arity ds = vs.length)
    (more : List (BitVec 32)) : print ds (vs ++ more) = print ds vs := by
  induction ds generalizing vs with
  | nil => rfl
  | cons d ds ih =>
      cases d with
      | space c => exact congrArg (c :: ·) (ih h)
      | lit c => exact congrArg (c :: ·) (ih h)
      | conv k =>
          cases vs with
          | nil => simp [arity] at h
          | cons v vs => exact congrArg (k.print v ++ ·) (ih (by simpa [arity] using h))

-- Two lists of values that a readable format prints as the same text are equal.
theorem print_injective {ds : List Directive} (hds : readable ds = true) {vs ws : List (BitVec 32)}
    (hvs : arity ds = vs.length) (hws : arity ds = ws.length) (h : print ds vs = print ds ws) :
    vs = ws := by
  have hstops : Stops [] := fun c hc => by cases hc
  have hscan := scan_print hds hvs hstops []
  rw [h, scan_print hds hws hstops []] at hscan
  exact (congrArg Scan.values hscan).symm

-- The result counts the values that are stored, unless it is EOF.
theorem scan_count (ds : List Directive) (s : List Byte) (vs : List (BitVec 32)) :
    (scan ds s vs).count = (scan ds s vs).values.length ∨ (scan ds s vs).count = -1 := by
  have hended (vs : List (BitVec 32)) :
      (Scan.ended vs).count = (Scan.ended vs).values.length ∨ (Scan.ended vs).count = -1 := by
    unfold Scan.ended
    split
    · exact Or.inr rfl
    · exact Or.inl rfl
  induction ds generalizing s vs with
  | nil => exact Or.inl rfl
  | cons d ds ih =>
      cases d with
      | space c => exact ih _ vs
      | lit c =>
          cases s with
          | nil => exact hended vs
          | cons b s =>
              rw [scan]
              split
              · exact ih s vs
              · exact Or.inl rfl
      | conv k =>
          rw [scan]
          split
          · exact hended vs
          · split
            · exact Or.inl rfl
            · exact ih _ _

-- A difference in the part of the text that is known decides the scan.
theorem scan_mismatch {ds : List Directive} {s : List Byte} (h : mismatch ds s = true)
    (rest : List Byte) (vs : List (BitVec 32)) : scan ds (s ++ rest) vs = .matched vs := by
  induction ds generalizing s with
  | nil => cases s <;> cases h
  | cons d ds ih =>
      cases d with
      | space c =>
          simp only [mismatch, Bool.and_eq_true, decide_eq_true_eq] at h
          have hdrop : (s ++ rest).dropWhile isSpace = s.dropWhile isSpace ++ rest := by
            rw [List.dropWhile_append, if_neg]
            simpa using h.1
          rw [scan, hdrop]
          exact ih h.2
      | lit c =>
          cases s with
          | nil => cases h
          | cons b s =>
              simp only [mismatch, Bool.or_eq_true, decide_eq_true_eq] at h
              rw [List.cons_append, scan]
              split
              · rename_i hbc
                exact ih (h.resolve_left fun hne => hne hbc)
              · rfl
      | conv k => cases s <;> cases h

end CSE320.Lib
