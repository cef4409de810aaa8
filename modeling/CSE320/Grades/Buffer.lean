import CSE320.Grades.Accepted

namespace CSE320.Grades.File

open Lib

-- The pointer tokenend minus tokenptr.
def tokensize (r : Reader) : Nat := r.token.length

section

variable (ends : Byte → Bool) (input : List Byte)

-- The characters that are read into the buffer.
def wanted : List Byte := input.takeWhile fun c => decide (c ≠ eof) && !ends c

-- Whether the input ends behind them, and what is left of it.
def behind : Bool × List Byte :=
  match input.dropWhile fun c => decide (c ≠ eof) && !ends c with
  | [] => (true, [])
  | c :: rest => if c = eof then (true, rest) else (false, c :: rest)

end

-- The next token, and the rest of the line.
def tokenOf (input : List Byte) : List Byte := wanted endsToken (skipWhitespace input)

def lineOf (input : List Byte) : List Byte := wanted (· = newline) (skipWhitespace input)

-- The line ends with the file.
def Incomplete (input : List Byte) : Prop := (behind (· = newline) (skipWhitespace input)).1 = true

-- What the buffer holds behind a call that returns.
def Holds (text : List Byte) (result : Except Stop (Unit × Reader)) : Prop :=
  ∃ r, result = .ok ((), r) ∧ r.token = text ++ [0] ∧ tokensize r = text.length + 1

-- The call of advancetoken leaves the token, or an empty buffer if there is none.
def TokenKept (r : Reader) : Prop :=
  if tokenOf r.input = [] then ∃ r', advancetoken r = .ok ((), r') ∧ r'.token = []
  else Holds (tokenOf r.input) (advancetoken r)

-- The call of advanceeol leaves the line, or ends with the error for an incomplete one.
def LineKept (r : Reader) : Prop :=
  (Incomplete r.input → ∃ line text, advanceeol r = .error (.fatal line text)) ∧
  (¬Incomplete r.input → Holds (lineOf r.input) (advanceeol r))

variable {ends : Byte → Bool} {r : Reader}

-- The buffer has room for 64 characters, and it is not made larger before the 65th.
theorem fillToken_eq (ends : Byte → Bool) (input : List Byte) (hsize : r.size = 64)
    (hlength : r.token.length ≤ 64) :
    fillToken ends input 64 r =
      if r.token.length + (wanted ends input).length ≤ 64 then
        .ok ((behind ends input).1,
          { r with input := (behind ends input).2, token := r.token ++ wanted ends input })
      else .error .overflow := by
  induction input generalizing r with
  | nil => simp [fillToken, wanted, behind, hlength]
  | cons c rest ih =>
      by_cases heof : c = eof
      · simp [fillToken, wanted, behind, heof, hlength]
      by_cases hends : ends c = true
      · simp [fillToken, wanted, behind, heof, hends, hlength]
      have hwanted : wanted ends (c :: rest) = c :: wanted ends rest := by
        simp [wanted, heof, hends]
      have hbehind : behind ends (c :: rest) = behind ends rest := by simp [behind, heof, hends]
      rw [fillToken, if_neg heof, if_neg hends, doublesize, if_neg (by omega), hwanted, hbehind]
      by_cases hroom : r.token.length < r.size
      · have hnext : (r.token ++ [c]).length ≤ 64 := by
          rw [List.length_append, List.length_singleton]
          omega
        have hsum : (r.token ++ [c]).length + (wanted ends rest).length =
            r.token.length + (c :: wanted ends rest).length := by
          simp only [List.length_append, List.length_cons, List.length_nil]
          omega
        simp only [store, if_pos hroom, Lib.ok_bind]
        rw [ih (r := { r with token := r.token ++ [c] }) hsize hnext, hsum]
        simp only [List.append_assoc, List.cons_append, List.nil_append]
      · have hfull : ¬r.token.length + (c :: wanted ends rest).length ≤ 64 := by
          rw [List.length_cons]
          omega
        simp only [store, if_neg hroom, Lib.error_bind, if_neg hfull]

-- A token that is still in the buffer is given up.
theorem advance_eq (ends : Byte → Bool) (hsize : r.size = 64) :
    ∃ errors, advance ends r =
      if (wanted ends (skipWhitespace r.input)).length ≤ 64 then
        .ok ((behind ends (skipWhitespace r.input)).1,
          { r with
            input := (behind ends (skipWhitespace r.input)).2
            token := wanted ends (skipWhitespace r.input)
            errors })
      else .error .overflow := by
  obtain ⟨errors, hunread⟩ : ∃ errors, checkunread r = .ok ((), { r with errors }) := by
    rw [checkunread, stateT_bind_of (show (get : Read Reader) r = .ok (r, r) from rfl)]
    by_cases htoken : istoken r = true
    · rw [if_pos htoken]
      exact ⟨_, rfl⟩
    · rw [if_neg htoken]
      exact ⟨r.errors, rfl⟩
  have hgobble : gobblewhitespace { r with errors, token := [] } =
      .ok ((), { r with errors, token := [], input := skipWhitespace r.input }) := rfl
  refine ⟨errors, ?_⟩
  rw [advance, stateT_bind_of hunread, stateT_bind_of (show flushtoken { r with errors } =
    .ok ((), { r with errors, token := [] }) from rfl), stateT_bind_of hgobble]
  simpa using fillToken_eq (r := { r with errors, token := [], input := skipWhitespace r.input })
    ends (skipWhitespace r.input) hsize (by simp)

-- The NUL behind the characters needs the last place.
theorem store_nul (hsize : r.size = 64) :
    (r.token.length ≤ 63 → store 0 r = .ok ((), { r with token := r.token ++ [0] })) ∧
      (63 < r.token.length → store 0 r = .error .overflow) := by
  refine ⟨fun h => ?_, fun h => ?_⟩
  · rw [store, if_pos (by omega)]
  · rw [store, if_neg (by omega)]

theorem not_holds_overflow {text : List Byte} : ¬Holds text (.error .overflow) := by
  rintro ⟨_, h, -⟩
  cases h

theorem tokenKept_iff (hsize : r.size = 64) : TokenKept r ↔ (tokenOf r.input).length ≤ 63 := by
  obtain ⟨errors, hadvance⟩ := advance_eq endsToken hsize
  rw [TokenKept, tokenOf]
  generalize wanted endsToken (skipWhitespace r.input) = word at hadvance ⊢
  by_cases hlength : word.length ≤ 64
  · rw [if_pos hlength] at hadvance
    have hrun := stateT_bind_of
      (f := fun _ => get >>= fun r => if istoken r then store 0 else pure ()) hadvance
    rw [stateT_bind_of (show (get : Read Reader) _ = .ok (_, _) from rfl)] at hrun
    rw [advancetoken, hrun]
    by_cases hnil : word = []
    · rw [if_pos hnil, if_neg (by simp [istoken, hnil])]
      exact ⟨fun _ => by simp [hnil], fun _ => ⟨_, rfl, hnil⟩⟩
    · rw [if_neg hnil, if_pos (by simp [istoken, hnil])]
      obtain ⟨hroom, hfull⟩ := store_nul (r := { r with
        input := (behind endsToken (skipWhitespace r.input)).2, token := word, errors }) hsize
      refine ⟨fun h => ?_, fun h => ⟨_, hroom h, rfl, by simp [tokensize]⟩⟩
      by_contra hlarge
      rw [hfull (Nat.lt_of_not_le hlarge)] at h
      exact not_holds_overflow h
  · rw [if_neg hlength] at hadvance
    have hnil : word ≠ [] := fun h => hlength (by simp [h])
    rw [if_neg hnil, advancetoken, stateT_bind_error hadvance]
    exact ⟨fun h => absurd h not_holds_overflow, fun h => absurd h (by omega)⟩

theorem lineKept_iff (hsize : r.size = 64) : LineKept r ↔
    (lineOf r.input).length ≤ 63 ∨ (lineOf r.input).length = 64 ∧ Incomplete r.input := by
  obtain ⟨errors, hadvance⟩ := advance_eq (· = newline) hsize
  rw [LineKept, lineOf, Incomplete]
  generalize wanted (· = newline) (skipWhitespace r.input) = line at hadvance ⊢
  generalize behind (· = newline) (skipWhitespace r.input) = rest at hadvance ⊢
  obtain ⟨ended, rest⟩ := rest
  by_cases hlength : line.length ≤ 64
  · rw [if_pos hlength] at hadvance
    rw [advanceeol, stateT_bind_of hadvance]
    cases ended with
    | true =>
        refine ⟨fun _ => ?_, fun _ => ⟨fun _ => ⟨_, _, rfl⟩, fun h => absurd rfl h⟩⟩
        simp only [and_true]
        omega
    | false =>
        obtain ⟨hroom, hfull⟩ :=
          store_nul (r := { r with input := rest, token := line, errors }) hsize
        simp only [Bool.false_eq_true, false_implies, true_and, not_false_eq_true, true_implies,
          if_false, and_false, or_false]
        refine ⟨fun h => ?_, fun h => ⟨_, hroom h, rfl, by simp [tokensize]⟩⟩
        by_contra hlarge
        rw [hfull (Nat.lt_of_not_le hlarge)] at h
        exact not_holds_overflow h
  · rw [if_neg hlength] at hadvance
    rw [advanceeol, stateT_bind_error hadvance]
    refine ⟨fun h => ?_, fun h => absurd h (by omega)⟩
    cases ended with
    | true =>
        obtain ⟨_, _, herror⟩ := h.1 rfl
        cases herror
    | false => exact absurd (h.2 (by simp)) not_holds_overflow

-- A token or a line needs a place for the NUL among the 64 that the buffer is made with.
theorem advance_kept_iff (r : Reader) (hsize : r.size = 64) :
    (TokenKept r ↔ (tokenOf r.input).length ≤ 63) ∧
    (LineKept r ↔ (lineOf r.input).length ≤ 63 ∨
      (lineOf r.input).length = 64 ∧ Incomplete r.input) :=
  ⟨tokenKept_iff hsize, lineKept_iff hsize⟩

-- The input of the shortest token that is too long.
def longToken : Reader := ⟨List.replicate 64 97 ++ [newline], [], 64, 1, []⟩

theorem advance_kept_long : (TokenKept longToken ↔ (tokenOf longToken.input).length ≤ 63) ∧
    (LineKept longToken ↔ (lineOf longToken.input).length ≤ 63 ∨
      (lineOf longToken.input).length = 64 ∧ Incomplete longToken.input) :=
  advance_kept_iff longToken rfl

theorem advance_not_kept : ¬TokenKept longToken ∧ ¬LineKept longToken := by
  rw [tokenKept_iff rfl, lineKept_iff rfl, Incomplete]
  decide +kernel

end CSE320.Grades.File
