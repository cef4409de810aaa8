import CSE320.Mips.Field
import Mathlib.Data.List.TakeWhile

namespace CSE320.Mips

open Lib (Byte ascii Directive)

-- An instruction as it is printed: an entry of the table and its operands.
structure Line where
  info : InstrInfo
  operands : List (BitVec 32)

namespace Line

def text (line : Line) : List Byte := Lib.printf (ascii line.info.format) line.operands

def args (line : Line) : Fin 3 → BitVec 32 := storeArgs line.operands fun _ => 0

-- The line is an instruction with all its operands, each of them has a place in
-- the word, and the text fits into the buffer.
structure Encodable (addr : BitVec 32) (line : Line) : Prop where
  mem : line.info ∈ instrTable
  typed : line.info.type ≠ .ntyp
  count : countedArg line.info = line.operands.length
  fits : ∀ j, Representable line.info addr (line.info.srcs j) (line.args j)
  short : line.text.length ≤ 28

end Line

def formatOf (info : InstrInfo) : List Directive := Lib.directives (ascii info.format)

-- The text of a format in front of its first conversion.
def literalFront : List Directive → List Byte
  | .space c :: ds | .lit c :: ds => c :: literalFront ds
  | _ => []

-- The two strings differ in a character that both have.
def differs : List Byte → List Byte → Bool
  | c :: word1, d :: word2 => c ≠ d || differs word1 word2
  | _, _ => false

-- The sum of weights of the characters up to the end of the line.
def weigh (weight : Byte → Int) : List Byte → Int
  | [] => 0
  | b :: word => if b = 10 then 0 else weight b + weigh weight word

def weighFormat (weight : Byte → Int) : List Directive → Int
  | [] => 0
  | .space c :: ds | .lit c :: ds => weight c + weighFormat weight ds
  | .conv _ :: ds => weighFormat weight ds

def countWeight (c b : Byte) : Int := if b = c then 1 else 0

def parenthesisWeight (b : Byte) : Int := if b = 40 then 1 else if b = 41 then -1 else 0

def earlier (info : InstrInfo) : List InstrInfo := instrTable.takeWhile (· ≠ info)

-- A character that ends neither a line nor a string.
def inLine : Directive → Bool
  | .space c | .lit c => c ≠ 0 && c ≠ 10
  | .conv _ => true

-- The formats can be read back, ask for the operands of the instruction, and have the
-- counts that the assembler compares. A format without operands is its own text.
theorem formatOf_spec : ∀ info ∈ instrTable, (formatOf info).all inLine = true ∧
    (info.type ≠ .ntyp →
    Lib.readable (formatOf info) = true ∧ (Lib.arity (formatOf info) : Int) = countedArg info ∧
      ((weighFormat (countWeight 44) (formatOf info) < countedArg info ∨ countedArg info = 0) ∧
        weighFormat (countWeight 36) (formatOf info) = countDollaSign (ascii info.format) ∧
        weighFormat (countWeight 32) (formatOf info) = countSpaces (ascii info.format) ∧
        weighFormat parenthesisWeight (formatOf info) = 0) ∧
      (countedArg info = 0 →
        stringEqual (literalFront (formatOf info) ++ [10]) (ascii info.format) = true ∧
        Lib.print (formatOf info) [] = literalFront (formatOf info))) := by
  decide +kernel

theorem format_chars {info : InstrInfo} (hinfo : info ∈ instrTable) {c : Byte}
    (hc : c = 0 ∨ c = 10) :
    Directive.space c ∉ formatOf info ∧ Directive.lit c ∉ formatOf info := by
  have hall := List.all_eq_true.mp (formatOf_spec info hinfo).1
  constructor <;> intro h <;> rcases hc with rfl | rfl <;> exact absurd (hall _ h) (by decide)

-- The text in front of the operands is enough to tell an instruction from those
-- before it in the table.
theorem earlier_differ : ∀ info ∈ instrTable, info.type ≠ .ntyp → ∀ entry ∈ earlier info,
    Lib.mismatch (formatOf entry) (literalFront (formatOf info)) = true ∧
      differs (literalFront (formatOf info)) (ascii entry.format) = true := by
  decide +kernel

theorem literalFront_prefix (ds : List Directive) (vs : List (BitVec 32)) :
    ∃ rest, Lib.print ds vs = literalFront ds ++ rest := by
  induction ds with
  | nil => exact ⟨[], rfl⟩
  | cons d ds ih =>
      obtain ⟨rest, hrest⟩ := ih
      cases d with
      | space c => exact ⟨rest, congrArg (c :: ·) hrest⟩
      | lit c => exact ⟨rest, congrArg (c :: ·) hrest⟩
      | conv k => exact ⟨_, rfl⟩

theorem stringEqual_of_differs {word1 word2 : List Byte} (h : differs word1 word2 = true)
    (rest : List Byte) :
    stringEqual (word1 ++ rest) word2 = false := by
  induction word1 generalizing word2 with
  | nil => cases word2 <;> cases h
  | cons c word1 ih =>
      cases word2 with
      | nil => cases h
      | cons d word2 =>
          rw [differs, Bool.or_eq_true, decide_eq_true_eq] at h
          rw [List.cons_append, stringEqual, Bool.and_eq_false_iff, decide_eq_false_iff_not]
          rcases h with h | h
          · exact Or.inl h
          · exact Or.inr (ih h)

theorem instrTable_split {info : InstrInfo} (hinfo : info ∈ instrTable) :
    ∃ later, instrTable.take numElem = earlier info ++ info :: later := by
  have hne : instrTable.dropWhile (· ≠ info) ≠ [] := by
    intro h
    rw [List.dropWhile_eq_nil_iff] at h
    simpa using h info hinfo
  obtain ⟨entry, later, hdrop⟩ := List.exists_cons_of_ne_nil hne
  have hentry : entry = info := by
    have hnot := List.head?_dropWhile_not (· ≠ info) instrTable
    rw [hdrop] at hnot
    simpa using hnot
  refine ⟨later, ?_⟩
  rw [← hentry, ← hdrop, hentry]
  exact List.takeWhile_append_dropWhile.symm

section

variable {info : InstrInfo} (hinfo : info ∈ instrTable) (htype : info.type ≠ .ntyp)
  {operands : List (BitVec 32)} (hcount : countedArg info = operands.length)

include hinfo htype hcount

theorem arity_eq : Lib.arity (formatOf info) = operands.length := by
  have harity := ((formatOf_spec info hinfo).2 htype).2.1
  omega

theorem sscanf_text : Lib.sscanf (Lib.print (formatOf info) operands ++ [10]) (ascii info.format) =
    .matched operands := by
  have hstops : Lib.Stops [10] := by
    intro c hc
    obtain rfl : (10 : Byte) = c := by simpa using hc
    decide
  exact Lib.scan_print ((formatOf_spec info hinfo).2 htype).1
    (arity_eq hinfo htype hcount) hstops []

-- The format of a canonical line is found.
theorem findFormat_text : findFormat (Lib.print (formatOf info) operands ++ [10]) = some
    (info, .matched operands) := by
  obtain ⟨rest, hfront⟩ := literalFront_prefix (formatOf info) operands
  obtain ⟨later, hsplit⟩ := instrTable_split hinfo
  unfold findFormat
  rw [hsplit, List.map_append, List.map_cons, List.find?_append, sscanf_text hinfo htype hcount]
  have hearlier :
      ((earlier info).map fun entry => (entry,
      Lib.sscanf (Lib.print (formatOf info) operands ++ [10])
      (ascii entry.format))).find? (fun entry => entry.2.count ≠ 0 ||
        stringEqual (Lib.print (formatOf info) operands ++ [10]) (ascii entry.1.format)) =
          none := by
    rw [List.find?_eq_none]
    intro entry hentry
    obtain ⟨other, hother, rfl⟩ := List.mem_map.mp hentry
    obtain ⟨hmismatch, hdiffers⟩ := earlier_differ info hinfo htype other hother
    have hscan : Lib.sscanf (Lib.print (formatOf info) operands ++ [10]) (ascii other.format) =
        .matched [] := by
      rw [hfront, List.append_assoc]
      exact Lib.scan_mismatch hmismatch _ []
    have hequal : stringEqual (Lib.print (formatOf info) operands ++ [10]) (ascii other.format) =
        false := by
      rw [hfront, List.append_assoc]
      exact stringEqual_of_differs hdiffers _
    rw [hscan, hequal]
    exact Bool.false_ne_true
  have hself : ((Lib.Scan.matched operands).count ≠ 0 ||
      stringEqual (Lib.print (formatOf info) operands ++ [10]) (ascii info.format)) = true := by
    cases operands with
    | nil =>
        obtain ⟨hequal, hprint⟩ := ((formatOf_spec info hinfo).2 htype).2.2.2 hcount
        rw [hprint, hequal, Bool.or_true]
    | cons v vs =>
        exact Bool.or_eq_true_iff.mpr (Or.inl (decide_eq_true (Int.natCast_ne_zero.mpr (by simp))))
  rw [hearlier, Option.none_or]
  exact List.find?_cons_of_pos hself

end

theorem countChar_eq_weigh (c : Byte) (word : List Byte) :
    countChar c word = weigh (countWeight c) word := by
  induction word with
  | nil => rfl
  | cons b word ih =>
      rw [countChar, weigh, countWeight]
      split
      · rfl
      · split <;> rw [ih]

theorem sameParenthesis_eq_weigh (word : List Byte) :
    sameParenthesis word = weigh parenthesisWeight word := by
  induction word with
  | nil => rfl
  | cons b word ih =>
      rw [sameParenthesis, weigh, parenthesisWeight, ih]
      split
      · rfl
      · split
        · rfl
        · split
          · rfl
          · exact (Int.zero_add _).symm

-- The numbers in a text weigh nothing.
theorem weigh_print {weight : Byte → Int} (hsign : weight 45 = 0)
    (hdigit : ∀ d < 16, weight (Lib.digitChar d) = 0) {ds : List Directive}
    (hline : Directive.space 10 ∉ ds ∧ Directive.lit 10 ∉ ds) (vs : List (BitVec 32)) :
    weigh weight (Lib.print ds vs ++ [10]) = weighFormat weight ds := by
  have hnumber (s rest : List Byte) (hs : ∀ c ∈ s, c = 45 ∨ ∃ d < 16, c = Lib.digitChar d) :
      weigh weight (s ++ rest) = weigh weight rest := by
    have hend : ∀ d < 16, Lib.digitChar d ≠ 10 := by decide
    induction s with
    | nil => rfl
    | cons c s ih =>
        have hc : c ≠ 10 ∧ weight c = 0 := by
          rcases hs c List.mem_cons_self with rfl | ⟨d, hd, rfl⟩
          · exact ⟨by decide, hsign⟩
          · exact ⟨hend d hd, hdigit d hd⟩
        rw [List.cons_append, weigh, if_neg hc.1, hc.2, Int.zero_add]
        exact ih fun b hb => hs b (List.mem_cons_of_mem c hb)
  induction ds generalizing vs with
  | nil => rfl
  | cons d ds ih =>
      have hrest : Directive.space 10 ∉ ds ∧ Directive.lit 10 ∉ ds :=
        ⟨fun h => hline.1 (List.mem_cons_of_mem d h), fun h => hline.2 (List.mem_cons_of_mem d h)⟩
      cases d with
      | space c =>
          have hc : c ≠ 10 := by
            rintro rfl
            exact hline.1 List.mem_cons_self
          rw [Lib.print, List.cons_append, weigh, if_neg hc, ih hrest, weighFormat]
      | lit c =>
          have hc : c ≠ 10 := by
            rintro rfl
            exact hline.2 List.mem_cons_self
          rw [Lib.print, List.cons_append, weigh, if_neg hc, ih hrest, weighFormat]
      | conv k =>
          cases vs with
          | nil => exact ih hrest []
          | cons v vs =>
              rw [Lib.print, List.append_assoc, hnumber _ _ (k.print_chars v).2, ih hrest,
                weighFormat]

theorem wellFormed_text {info : InstrInfo} (hinfo : info ∈ instrTable) (htype : info.type ≠ .ntyp)
    {operands : List (BitVec 32)} (hcount : countedArg info = operands.length) :
    wellFormed info operands.length (Lib.print (formatOf info) operands ++ [10]) = true := by
  obtain ⟨-, -, ⟨hcommas, hdollars, hspaces, hparens⟩, -⟩ := (formatOf_spec info hinfo).2 htype
  have hline := format_chars hinfo (Or.inr rfl)
  have hweigh (c : Byte) (hc : countWeight c 45 = 0 ∧
      ∀ d < 16, countWeight c (Lib.digitChar d) = 0) :
      countChar c (Lib.print (formatOf info) operands ++ [10]) =
        weighFormat (countWeight c) (formatOf info) := by
    rw [countChar_eq_weigh, weigh_print hc.1 hc.2 hline]
  have hcomma := hweigh 44 (by decide)
  have hdollar := hweigh 36 (by decide)
  have hspace := hweigh 32 (by decide)
  have hparen : sameParenthesis (Lib.print (formatOf info) operands ++ [10]) = 0 := by
    rw [sameParenthesis_eq_weigh, weigh_print (by decide) (by decide) hline, hparens]
  have hargs :
      ¬(countCommas (Lib.print (formatOf info) operands ++ [10]) ≥ (operands.length : Int) ∧
      (operands.length : Int) ≠ 0) := by
    rw [countCommas, hcomma, ← hcount]
    omega
  simp only [wellFormed, Bool.and_eq_true, Bool.not_eq_true', Bool.and_eq_false_iff,
    decide_eq_true_eq, decide_eq_false_iff_not]
  refine ⟨⟨⟨not_and_or.mp hargs, ?_⟩, ?_⟩, hparen⟩
  · rw [← hdollars, countDollaSign, hdollar]
  · rw [← hspaces, countSpaces, hspace]

-- fgets stops behind the end of a line that fits.
theorem readLine_text {line : List Byte} (hline : 10 ∉ line) {size : Nat}
    (hsize : line.length < size) (rest : List Byte) :
    readLine size (line ++ 10 :: rest) = (line ++ [10], rest) := by
  induction line generalizing size with
  | nil =>
      cases size with
      | zero => simp at hsize
      | succ n => rfl
  | cons c line ih =>
      cases size with
      | zero => simp at hsize
      | succ n =>
          have hc : c ≠ 10 := fun h => hline (h ▸ List.mem_cons_self)
          have hrest := ih (fun h => hline (List.mem_cons_of_mem c h))
            (Nat.lt_of_succ_lt_succ hsize)
          rw [List.cons_append, readLine, if_neg hc, hrest]
          rfl

-- Lines that fit into the buffer are read one by one.
theorem userInputs_lines {lines : List (List Byte)}
    (hlines : ∀ line ∈ lines, line.length ≤ 28 ∧ 10 ∉ line ∧ 0 ∉ line) {calls : Nat}
    (hcalls : lines.length ≤ calls) :
    userInputs calls (lines.map (· ++ [10])).flatten = lines.map (· ++ [10]) := by
  induction lines generalizing calls with
  | nil => cases calls <;> rfl
  | cons line lines ih =>
      cases calls with
      | zero => simp at hcalls
      | succ calls =>
          obtain ⟨hlen, hend, hnul⟩ := hlines line List.mem_cons_self
          have hrest := ih (fun l hl => hlines l (List.mem_cons_of_mem line hl))
            (Nat.le_of_succ_le_succ hcalls)
          have hread := readLine_text hend (show line.length < 30 - 1 by omega)
            (lines.map (· ++ [10])).flatten
          have hkeep : (line ++ [10]).takeWhile (· ≠ (0 : Byte)) = line ++ [10] := by
            rw [List.takeWhile_eq_self_iff]
            intro c hc
            rw [decide_eq_true_eq]
            rintro rfl
            rcases List.mem_append.mp hc with hc | hc
            · exact hnul hc
            · exact absurd hc (by decide)
          have htext : ((line :: lines).map (· ++ [10])).flatten =
              line ++ 10 :: (lines.map (· ++ [10])).flatten := by
            simp
          rw [htext, userInputs, fgets, if_neg (by simp), hread]
          simp only [hkeep, hrest, List.map_cons]

end CSE320.Mips
