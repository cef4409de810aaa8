import CSE320.Mips.Canonical
import CSE320.Mips.Options

namespace CSE320.Mips

open Lib (Byte ascii)

-- Each line is encodable at its address.
def EncodableFrom (addr : BitVec 32) : List Line → Prop
  | [] => True
  | line :: rest => line.Encodable addr ∧ EncodableFrom (addr + 4) rest

-- The lines that come back: the operands of each survive at its address, and the
-- lines before it have left nothing in the places of operands that it does not have.
def SurviveFrom (args : Fin 3 → BitVec 32) (addr : BitVec 32) : List Line → Prop
  | [] => True
  | line :: rest =>
    (∀ j, Survives line.info addr (line.info.srcs j) (line.args j)) ∧ Clean line.info args ∧
      SurviveFrom (storeArgs line.operands args) (addr + 4) rest

-- The text that the assembler reads.
def textOf (lines : List Line) : List Byte := (lines.map fun line => line.text ++ [10]).flatten

-- A text that is printed holds no character that ends a line or a string.
theorem not_mem_print {info : InstrInfo} (hinfo : info ∈ instrTable) (vs : List (BitVec 32)) :
    10 ∉ Lib.print (formatOf info) vs ∧ 0 ∉ Lib.print (formatOf info) vs := by
  have hchars (c : Byte) (hc : c = 0 ∨ c = 10) : c ∉ Lib.print (formatOf info) vs := by
    have hnumber : c ≠ 45 ∧ ∀ d < 16, c ≠ Lib.digitChar d := by
      rcases hc with rfl | rfl <;> decide
    intro h
    obtain ⟨hspace, hlit⟩ := format_chars hinfo hc
    rcases Lib.mem_print h with h | h | h | ⟨d, hd, h⟩
    · exact hspace h
    · exact hlit h
    · exact hnumber.1 h
    · exact hnumber.2 d hd h
  exact ⟨hchars 10 (Or.inr rfl), hchars 0 (Or.inl rfl)⟩

theorem take_args_iff {operands : List (BitVec 32)} (hlen : operands.length ≤ 3)
    {args : Fin 3 → BitVec 32} (hzero : ∀ j : Fin 3, operands.length ≤ j.val → args j = 0) :
    [args 0, args 1, args 2].take operands.length = operands ↔
      args = storeArgs operands fun _ => 0 := by
  match operands with
  | [] =>
      have h0 := hzero 0 (Nat.zero_le _)
      have h1 := hzero 1 (Nat.zero_le _)
      have h2 := hzero 2 (Nat.zero_le _)
      simp only [funext_iff, Fin.forall_fin_succ, storeArgs]
      simp [h0, h1, h2]
  | [a] =>
      have h1 := hzero 1 (by simp)
      have h2 := hzero 2 (by simp)
      simp only [funext_iff, Fin.forall_fin_succ, storeArgs]
      simp [h1, h2]
  | [a, b] =>
      have h2 := hzero 2 (by simp)
      simp only [funext_iff, Fin.forall_fin_succ, storeArgs]
      simp [h2]
  | [a, b, c] =>
      simp only [funext_iff, Fin.forall_fin_succ, storeArgs]
      simp
  | a :: b :: c :: d :: operands =>
      simp only [List.length_cons] at hlen
      omega

-- Three arguments are printed as a line when they are its operands.
theorem printLine_eq_iff {addr : BitVec 32} {line : Line} (h : line.Encodable addr)
    {args : Fin 3 → BitVec 32} (hzero : ∀ j, line.info.srcs j = .nsrc → args j = 0) :
    printLine line.info args = line.text ++ [10] ↔ args = line.args := by
  have hcount := h.count
  have harity := arity_eq h.mem h.typed hcount
  have hlen : line.operands.length ≤ 3 := by
    have hle : countedArg line.info ≤ 3 := Int.ofNat_le.mpr List.countP_le_length
    omega
  have htake : Lib.arity (formatOf line.info) =
      ([args 0, args 1, args 2].take line.operands.length).length := by
    rw [List.length_take, harity]
    exact (Nat.min_eq_left hlen).symm
  have hprint : printLine line.info args =
      Lib.print (formatOf line.info) ([args 0, args 1, args 2].take line.operands.length) ++
        [10] := by
    have happend := Lib.print_append (formatOf line.info) htake
      ([args 0, args 1, args 2].drop line.operands.length)
    rw [List.take_append_drop] at happend
    rw [← happend]
    rfl
  have hargs : [args 0, args 1, args 2].take line.operands.length = line.operands ↔
      args = line.args := by
    refine take_args_iff hlen fun j hj => hzero j ?_
    refine ((instrTable_sources line.info h.mem).1 j).mpr ?_
    omega
  rw [hprint, List.append_left_inj, ← hargs]
  constructor
  · exact fun heq => Lib.print_injective ((formatOf_spec line.info h.mem).2 h.typed).1
      htake harity heq
  · intro heq
    rw [heq]
    rfl

section

variable {addr : BitVec 32} {line : Line} (h : line.Encodable addr)

include h

theorem findFormat_line : findFormat (line.text ++ [10]) = some
    (line.info, .matched line.operands) :=
  findFormat_text h.mem h.typed h.count

theorem acceptable_line : acceptable addr (line.text ++ [10]) = true ↔
    ∀ j, operandFits line.info addr (line.info.srcs j) (line.args j) = true := by
  have hform := wellFormed_text h.mem h.typed h.count
  have hargs (j : Fin 3) := fits_storeArgs h.mem h.count (fun _ => 0) addr j
  unfold acceptable
  rw [findFormat_line h]
  simp only [Lib.Scan.matched, Bool.and_eq_true, decide_eq_true_eq, List.all_eq_true,
    List.mem_finRange, forall_const, ← hargs]
  exact ⟨fun hall => hall.2, fun hfits => ⟨⟨⟨hform, decide_eq_true h.count⟩, h.typed⟩, hfits⟩⟩

-- The word of a line that is accepted is printed as the line exactly when its
-- operands survive.
theorem lineOf_code_iff (haccept : acceptable addr (line.text ++ [10]) = true) :
    lineOf addr (lineCode addr (line.text ++ [10])) = some (line.text ++ [10]) ↔
      ∀ j, Survives line.info addr (line.info.srcs j) (line.args j) := by
  have hextra : ∀ j, line.info.srcs j = .extra →
      (transfer { Instruction.zero with args := line.args } line.info).extra = line.args j :=
    fun j hj => transfer_extra h.mem _ hj
  have hclean : Clean line.info line.args :=
    (clean_storeArgs h.mem h.count _).mpr fun _ _ => rfl
  have hsome := (encodeInfo_isSome h.mem hextra addr).mpr ⟨h.typed,
    (acceptable_line h).mp haccept, hclean⟩
  obtain ⟨value, hvalue⟩ := Option.isSome_iff_exists.mp hsome
  have hcode : lineCode addr (line.text ++ [10]) = value := by
    unfold lineCode
    rw [findFormat_line h]
    exact congrArg (·.getD 0) hvalue
  rw [hcode, lineOf_eq]
  rcases decodeWord_encodeInfo h.mem hextra h.fits hvalue with ⟨hnone, hlost⟩ |
    ⟨args, hsome, hzero, hsurvive⟩
  · rw [hnone]
    exact iff_of_false (by simp) hlost
  · rw [hsome, Option.map_some, Option.some.injEq, printLine_eq_iff h hzero, hsurvive]

theorem assembleLine_line (endi : Bool) (instr : Instruction) :
    if acceptable addr (line.text ++ [10]) = true ∧ Clean line.info instr.args then
      ∃ next, assembleLine endi instr addr (line.text ++ [10]) =
          .ok (next, outputBytes endi (lineCode addr (line.text ++ [10]))) ∧
        next.args = storeArgs line.operands instr.args
    else
      assembleLine endi instr addr (line.text ++ [10]) = .error .rejected := by
  have hstep := assembleLine_eq endi instr addr (line.text ++ [10])
  have hleft : leftover instr.args [line.text ++ [10]] = storeArgs line.operands instr.args := by
    simp only [leftover, List.foldl_cons, List.foldl_nil, findFormat_line h]
    rfl
  simp only [findFormat_line h, Option.mem_def, Option.some.injEq, forall_eq', hleft] at hstep
  exact hstep

end

theorem words_outputBytes (endi : Bool) (value : BitVec 32) (rest : List Byte) :
    words endi (outputBytes endi value ++ rest) = value :: words endi rest := by
  cases endi with
  | false =>
      show Lib.word _ _ _ _ :: words false rest = _
      rw [Lib.word_bytes]
  | true =>
      show bigEndian (Lib.word _ _ _ _) :: words true rest = _
      rw [bigEndian_word, Lib.word_bytes]

-- A list of lines is assembled, and its words are printed as the lines, exactly
-- when the lines survive.
theorem assembleLoop_survive (endi : Bool) (instr : Instruction) (addr : BitVec 32)
    {lines : List Line} (hlines : EncodableFrom addr lines) :
    (∃ stream, assembleLoop endi instr addr (lines.map fun line => line.text ++ [10]) =
      ⟨.success, stream⟩ ∧
        linesFrom addr (words endi stream) = lines.map fun line => some (line.text ++ [10])) ↔
      SurviveFrom instr.args addr lines := by
  induction lines generalizing instr addr with
  | nil => exact iff_of_true ⟨[], rfl, rfl⟩ trivial
  | cons line lines ih =>
      obtain ⟨hline, hrest⟩ := hlines
      have hstep := assembleLine_line hline endi instr
      rw [List.map_cons, List.map_cons, assembleLoop, SurviveFrom]
      split at hstep
      · rename_i haccept
        obtain ⟨next, heq, hnext⟩ := hstep
        have hrest := ih next (addr + 4) hrest
        rw [heq]
        simp only
        rw [← lineOf_code_iff hline haccept.1, ← hnext, ← hrest]
        constructor
        · rintro ⟨stream, hsuccess, hlines⟩
          obtain ⟨hstatus, rfl⟩ := Outcome.mk.inj hsuccess
          rw [words_outputBytes, linesFrom_cons] at hlines
          obtain ⟨hprinted, hlines⟩ := List.cons.inj hlines
          refine ⟨hprinted, haccept.2, _, ?_, hlines⟩
          rw [← hstatus]
        · rintro ⟨hprinted, -, stream, hsuccess, hlines⟩
          refine ⟨outputBytes endi (lineCode addr (line.text ++ [10])) ++ stream, ?_, ?_⟩
          · rw [hsuccess]
            rfl
          · rw [words_outputBytes, linesFrom_cons, hprinted, hlines]
      · rename_i hreject
        rw [hstep]
        refine iff_of_false ?_ ?_
        · rintro ⟨stream, h, -⟩
          cases h
        · rintro ⟨hsurvives, hclean, -⟩
          refine hreject ⟨(acceptable_line hline).mpr fun j => ?_, hclean⟩
          exact operandFits_of_survives hline.mem (hline.fits j) (hsurvives j)

-- A text tells its lines apart.
theorem flatten_lines_injective {lines lines' : List (List Byte)} (h : ∀ line ∈ lines, 10 ∉ line)
    (h' : ∀ line ∈ lines', 10 ∉ line)
    (heq : (lines.map (· ++ [10])).flatten = (lines'.map (· ++ [10])).flatten) :
    lines = lines' := by
  induction lines generalizing lines' with
  | nil =>
      cases lines' with
      | nil => rfl
      | cons line' lines' => simp at heq
  | cons line lines ih =>
      cases lines' with
      | nil => simp at heq
      | cons line' lines' =>
          have hsplit : line ++ 10 :: (lines.map (· ++ [10])).flatten =
              line' ++ 10 :: (lines'.map (· ++ [10])).flatten := by
            simpa using heq
          have hread := congrArg (readLine (line.length + line'.length + 1)) hsplit
          rw [readLine_text (h line List.mem_cons_self) (by omega),
            readLine_text (h' line' List.mem_cons_self) (by omega)] at hread
          obtain ⟨hline, hrest⟩ := Prod.mk.inj hread
          have hlines := ih (fun l hl => h l (List.mem_cons_of_mem line hl))
            (fun l hl => h' l (List.mem_cons_of_mem line' hl)) hrest
          rw [List.append_cancel_right hline, hlines]

-- Every line of the output ends with a newline and holds no other.
theorem lineOf_line {addr word : BitVec 32} {line : List Byte} (h : lineOf addr word = some line) :
    ∃ text, line = text ++ [10] ∧ 10 ∉ text := by
  rw [lineOf_eq, Option.map_eq_some_iff] at h
  obtain ⟨⟨info, args⟩, hdecode, rfl⟩ := h
  refine ⟨_, rfl, ?_⟩
  simp only [decodeWord, Option.bind_eq_bind, Option.bind_eq_some_iff, Option.pure_def,
    Option.some.injEq, Prod.mk.injEq] at hdecode
  obtain ⟨opcode, -, found, hlookup, -, -, rfl, -⟩ := hdecode
  exact (not_mem_print (List.mem_of_mem_take (List.mem_of_find?_eq_some hlookup)) _).1

-- The disassembler prints a given text exactly when it prints its lines.
theorem ofLines_eq_iff {printed : List (Option (List Byte))} {lines : List (List Byte)}
    (hprinted : ∀ line ∈ printed, ∀ text ∈ line, ∃ s, text = s ++ [10] ∧ 10 ∉ s)
    (hlines : ∀ line ∈ lines, 10 ∉ line) :
    Outcome.ofLines printed = ⟨.success, (lines.map (· ++ [10])).flatten⟩ ↔
      printed = lines.map fun line => some (line ++ [10]) := by
  have hmap (lines : List (List Byte)) :
      Outcome.ofLines (lines.map fun line => some (line ++ [10])) =
      ⟨.success, (lines.map (· ++ [10])).flatten⟩ := by
    induction lines with
    | nil => rfl
    | cons line lines ih =>
        obtain ⟨hstatus, hstdout⟩ := Outcome.mk.inj ih
        simp only [Outcome.ofLines, List.map_cons] at hstatus hstdout ⊢
        simp_all
  constructor
  · intro heq
    obtain ⟨hstatus, hstdout⟩ := Outcome.mk.inj heq
    have hall : printed.all Option.isSome = true := by
      by_contra hnot
      rw [if_neg hnot] at hstatus
      cases hstatus
    have hsome : ∀ line ∈ printed, ∃ s, line = some (s ++ [10]) ∧ 10 ∉ s := by
      intro line hmem
      obtain ⟨text, rfl⟩ := Option.isSome_iff_exists.mp (List.all_eq_true.mp hall line hmem)
      obtain ⟨s, rfl, hs⟩ := hprinted _ hmem text rfl
      exact ⟨s, rfl, hs⟩
    obtain ⟨texts, htexts, rfl⟩ : ∃ texts : List (List Byte), (∀ text ∈ texts, 10 ∉ text) ∧
        printed = texts.map fun text => some (text ++ [10]) := by
      refine ⟨printed.map fun line => (line.getD []).dropLast, fun text htext => ?_, ?_⟩
      · obtain ⟨line, hline, rfl⟩ := List.mem_map.mp htext
        obtain ⟨s, rfl, hs⟩ := hsome line hline
        simpa using hs
      · rw [List.map_map]
        refine (List.map_id printed).symm.trans (List.map_congr_left fun line hline => ?_)
        obtain ⟨s, rfl, -⟩ := hsome line hline
        simp
    rw [hmap] at heq
    rw [flatten_lines_injective htexts hlines (Outcome.mk.inj heq).2]
  · rintro rfl
    exact hmap lines

theorem linesFrom_lines (addr : BitVec 32) (ws : List (BitVec 32)) :
    ∀ line ∈ linesFrom addr ws, ∀ text ∈ line, ∃ s, text = s ++ [10] ∧ 10 ∉ s := by
  induction ws generalizing addr with
  | nil => simp [linesFrom]
  | cons word ws ih =>
      rw [linesFrom_cons]
      intro line hline text htext
      rcases List.mem_cons.mp hline with rfl | hline
      · exact lineOf_line htext
      · exact ih (addr + 4) line hline text htext

theorem EncodableFrom.mem_encodable {addr : BitVec 32} {lines : List Line}
    (h : EncodableFrom addr lines) :
    ∀ line ∈ lines, ∃ addr', line.Encodable addr' := by
  induction lines generalizing addr with
  | nil => simp
  | cons line lines ih =>
      intro l hl
      rcases List.mem_cons.mp hl with rfl | hl
      · exact ⟨addr, h.1⟩
      · exact ih h.2 l hl

theorem length_le_textOf (lines : List Line) : lines.length ≤ (textOf lines).length := by
  induction lines with
  | nil => exact Nat.le_refl 0
  | cons line lines ih =>
      simp only [textOf, List.map_cons, List.flatten_cons, List.length_append, List.length_cons,
        List.length_nil] at ih ⊢
      omega

-- The texts of the lines fit into the buffer and are read one by one.
theorem userInputs_textOf {addr : BitVec 32} {lines : List Line} (h : EncodableFrom addr lines) :
    userInputs (textOf lines).length (textOf lines) = lines.map fun line => line.text ++ [10] := by
  have htext : textOf lines = ((lines.map Line.text).map (· ++ [10])).flatten := by
    rw [List.map_map]
    rfl
  have hlines : ∀ line ∈ lines.map Line.text, line.length ≤ 28 ∧ 10 ∉ line ∧ 0 ∉ line := by
    intro text htext
    obtain ⟨line, hline, rfl⟩ := List.mem_map.mp htext
    obtain ⟨addr', hencodable⟩ := h.mem_encodable line hline
    exact ⟨hencodable.short, not_mem_print hencodable.mem line.operands⟩
  have hcalls : (lines.map Line.text).length ≤ (textOf lines).length := by
    rw [List.length_map]
    exact length_le_textOf lines
  rw [htext] at hcalls ⊢
  rw [userInputs_lines hlines hcalls, List.map_map]
  rfl

-- The round trip through the assembler and the disassembler gives the text back
-- exactly when its lines survive.
theorem roundTrip_iff (rest : List (List Byte)) (options : BitVec 32) (lines : List Line)
    (hargs : validargs (ascii "-a" :: rest) = some options)
    (hlines : EncodableFrom (baseOf options) lines) :
    (∃ stream, main (ascii "-a" :: rest) (textOf lines) = ⟨.success, stream⟩ ∧
        main (ascii "-d" :: rest) stream = ⟨.success, textOf lines⟩) ↔
      SurviveFrom (fun _ => 0) (baseOf options) lines := by
  have hnewline : ∀ line ∈ lines.map Line.text, 10 ∉ line := by
    intro text htext
    obtain ⟨line, hline, rfl⟩ := List.mem_map.mp htext
    obtain ⟨addr, hencodable⟩ := hlines.mem_encodable line hline
    exact (not_mem_print hencodable.mem line.operands).1
  have hprinted (stream : List Byte) : main (ascii "-d" :: rest) stream = ⟨.success, textOf lines⟩ ↔
      linesFrom (baseOf options) (words (isBigEndian options) stream) =
        lines.map fun line => some (line.text ++ [10]) := by
    have hiff :=
      ofLines_eq_iff (linesFrom_lines (baseOf options) (words (isBigEndian options) stream))
      hnewline
    rw [List.map_map, List.map_map] at hiff
    rw [(main_modes hargs stream).2, disassemble, disassembleLoop_eq]
    exact hiff
  have hassemble := assembleLoop_survive (isBigEndian options) .zero (baseOf options) hlines
  simp only [hprinted]
  rw [(main_modes hargs _).1, assemble, userInputs_textOf hlines]
  exact hassemble

def jrLine : Line := ⟨⟨.opJr, .rtyp, ![.rs, .nsrc, .nsrc], "jr $%d"⟩, [31]⟩

def addiLine : Line := ⟨⟨.opAddi, .ityp, ![.rt, .rs, .extra], "addi $%d,$%d,%d"⟩, [4, 29, -8]⟩

theorem roundTrip_of_two :
    textOf [jrLine, addiLine] = ascii "jr $31" ++ [10] ++ ascii "addi $4,$29,-8" ++ [10] ∧
    ∃ stream, main [ascii "-a", ascii "-b", ascii "1000"] (textOf [jrLine, addiLine]) =
      ⟨.success, stream⟩ ∧
      main [ascii "-d", ascii "-b", ascii "1000"] stream =
        ⟨.success, textOf [jrLine, addiLine]⟩ := by
  have hjr : jrLine.Encodable 0x1000 := by
    refine ⟨by decide +kernel, by decide, by decide, fun j => ?_, by decide +kernel⟩
    match j with
    | 0 => exact (by decide : (31 : BitVec 32).toNat < 32)
    | 1 => trivial
    | 2 => trivial
  have haddi : addiLine.Encodable 0x1004 := by
    refine ⟨by decide +kernel, by decide, by decide, fun j => ?_, by decide +kernel⟩
    match j with
    | 0 => exact (by decide : (4 : BitVec 32).toNat < 32)
    | 1 => exact (by decide : (29 : BitVec 32).toNat < 32)
    | 2 => exact (by decide : -2 ^ 15 ≤ (-8 : BitVec 32).toInt ∧ (-8 : BitVec 32).toInt < 2 ^ 16)
  refine ⟨by decide +kernel, (roundTrip_iff [ascii "-b", ascii "1000"] 0x1000 [jrLine, addiLine]
    (by decide +kernel) ⟨hjr, haddi, trivial⟩).mpr ⟨fun j => ?_, by
      decide, fun j => ?_, by decide, trivial⟩⟩
  · match j with
    | 0 => trivial
    | 1 => trivial
    | 2 => trivial
  · match j with
    | 0 => trivial
    | 1 => trivial
    | 2 => exact (by decide : (-8 : BitVec 32).toInt < 2 ^ 15)

def beqLine : Line := ⟨⟨.opBeq, .ityp, ![.rs, .rt, .extra], "beq $%d,$%d,%d"⟩, [1, 2, 0x1008]⟩

-- A branch over one instruction is encodable, and the assembler rejects it.
theorem not_roundTrip_of_branch : textOf [beqLine] = ascii "beq $1,$2,4104" ++ [10] ∧
    EncodableFrom 0x1000 [beqLine] ∧
    ¬∃ stream, main [ascii "-a", ascii "-b", ascii "1000"] (textOf [beqLine]) = ⟨.success, stream⟩ ∧
      main [ascii "-d", ascii "-b", ascii "1000"] stream = ⟨.success, textOf [beqLine]⟩ := by
  have hrejected : main [ascii "-a", ascii "-b", ascii "1000"] (textOf [beqLine]) =
      ⟨.failure, []⟩ := by
    decide +kernel
  refine ⟨by decide +kernel,
    ⟨⟨by decide +kernel, by decide, by decide, fun j => ?_, by decide +kernel⟩, trivial⟩, ?_⟩
  · match j with
    | 0 => exact (by decide : (1 : BitVec 32).toNat < 32)
    | 1 => exact (by decide : (2 : BitVec 32).toNat < 32)
    | 2 => exact ⟨1, by decide⟩
  · rintro ⟨stream, hstream, -⟩
    rw [hrejected] at hstream
    cases hstream

end CSE320.Mips
