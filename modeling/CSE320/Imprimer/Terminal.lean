import CSE320.Imprimer.Vscreen
import CSE320.Lib.Run

namespace CSE320.Imprimer

open Lib (Byte)

-- The next line or column, with the first one behind the last.
def following {n : Nat} [NeZero n] (i : Fin n) : Fin n :=
  if h : i.val + 1 < n then ⟨i.val + 1, h⟩ else 0

-- The terminal of the comment at vscreen_putc. A clear cell holds what a fresh screen
-- holds. The cursor is inside the screen by its type.
structure Terminal (LINES COLS : Nat) where
  buffer : Fin LINES → Fin COLS → Byte
  line : Fin LINES
  column : Fin COLS

-- A line that is cleared as a whole is one that had nothing in front of the column.
theorem cleared_iff {COLS : Nat} (column : Fin COLS) (line : Fin COLS → Byte) :
    ((fun _ => 0) = fun c => if column ≤ c then 0 else line c) ↔ ∀ c < column, line c = 0 := by
  rw [funext_iff]
  apply forall_congr'
  intro c
  by_cases hc : column ≤ c
  · rw [if_pos hc]
    exact iff_of_true rfl fun hlt => absurd hlt (not_lt.mpr hc)
  · rw [if_neg hc]
    exact ⟨fun h _ => h.symm, fun h => (h (not_le.mp hc)).symm⟩

section

variable {LINES COLS : Nat} [NeZero LINES] [NeZero COLS]

namespace Terminal

def fresh (LINES COLS : Nat) [NeZero LINES] [NeZero COLS] : Terminal LINES COLS where
  buffer := fun _ _ => 0
  line := 0
  column := 0

def print (t : Terminal LINES COLS) (ch : Byte) : Terminal LINES COLS :=
  { t with
    buffer := Function.update t.buffer t.line (Function.update (t.buffer t.line) t.column ch)
    column := following t.column }

def lineFeed (t : Terminal LINES COLS) : Terminal LINES COLS :=
  let line := following t.line
  let cleared := fun c => if t.column ≤ c then 0 else t.buffer line c
  { t with buffer := Function.update t.buffer line cleared, line }

def carriageReturn (t : Terminal LINES COLS) : Terminal LINES COLS := { t with column := 0 }

def putc (t : Terminal LINES COLS) (ch : Byte) : Terminal LINES COLS :=
  if isprint ch then t.print ch
  else if ch = 10 then t.lineFeed
  else if ch = 13 then t.carriageReturn
  else t

end Terminal

-- The buffer and the cursor of a virtual screen.
def Vscreen.terminal (vscreen : Vscreen LINES COLS) : Terminal LINES COLS :=
  ⟨vscreen.lines, vscreen.curLine, vscreen.curCol⟩

-- Behind each of the characters, the screen is that of the terminal.
def Emulates (LINES COLS : Nat) [NeZero LINES] [NeZero COLS] (chars : List Byte) : Prop :=
  ∀ front, front <+: chars → (front.foldl vscreenPutc (vscreenInit LINES COLS)).terminal =
    front.foldl Terminal.putc (Terminal.fresh LINES COLS)

-- A printing character is not put into the last of several columns, and a line feed finds
-- the next line clear in front of the cursor.
def Fits (vscreen : Vscreen LINES COLS) (ch : Byte) : Prop :=
  (isprint ch = true → vscreen.curCol.val + 1 < COLS ∨ COLS = 1) ∧
    (ch = 10 → ∀ c < vscreen.curCol, vscreen.lines (following vscreen.curLine) c = 0)

instance (vscreen : Vscreen LINES COLS) (ch : Byte) : Decidable (Fits vscreen ch) :=
  inferInstanceAs (Decidable (_ ∧ _))

theorem following_eq_mod {n : Nat} [NeZero n] (i : Fin n) :
    following i = ⟨(i.val + 1) % n, Nat.mod_lt _ (Nat.pos_of_neZero n)⟩ := by
  unfold following
  apply Fin.ext
  by_cases h : i.val + 1 < n
  · rw [dif_pos h]
    exact (Nat.mod_eq_of_lt h).symm
  · have hlast : i.val + 1 = n := by omega
    rw [dif_neg h, Fin.val_zero]
    simp only [hlast, Nat.mod_self]

-- The cursor that stays in the last column is right on a screen with one column.
theorem advance_eq_following_iff (c : Fin COLS) :
    (if h : c.val + 1 < COLS then ⟨c.val + 1, h⟩ else c) = following c ↔
      c.val + 1 < COLS ∨ COLS = 1 := by
  unfold following
  by_cases h : c.val + 1 < COLS
  · rw [dif_pos h, dif_pos h]
    exact iff_of_true rfl (Or.inl h)
  · rw [dif_neg h, dif_neg h, Fin.ext_iff, Fin.val_zero]
    omega

variable {vscreen : Vscreen LINES COLS} {ch : Byte}

theorem print_terminal_iff (hprint : isprint ch = true) :
    (vscreenPutc vscreen ch).terminal = vscreen.terminal.putc ch ↔
      vscreen.curCol.val + 1 < COLS ∨ COLS = 1 := by
  rw [← advance_eq_following_iff]
  unfold vscreenPutc Terminal.putc
  simp only [if_pos hprint]
  by_cases h : vscreen.curCol.val + 1 < COLS
  · simp [dif_pos h, Vscreen.terminal, put, Terminal.print]
  · simp [dif_neg h, Vscreen.terminal, put, Terminal.print]

theorem lineFeed_terminal_iff :
    (vscreenPutc vscreen 10).terminal = vscreen.terminal.putc 10 ↔
      ∀ c < vscreen.curCol, vscreen.lines (following vscreen.curLine) c = 0 := by
  have hprint : ¬isprint 10 = true := by decide
  unfold vscreenPutc Terminal.putc
  simp only [if_neg hprint, if_true, ← following_eq_mod]
  simp only [Vscreen.terminal, put, Terminal.lineFeed, Terminal.mk.injEq, and_true]
  rw [(Function.update_injective _ _).eq_iff]
  exact cleared_iff vscreen.curCol (vscreen.lines (following vscreen.curLine))

theorem other_terminal (hprint : ¬isprint ch = true) (hfeed : ch ≠ 10) :
    (vscreenPutc vscreen ch).terminal = vscreen.terminal.putc ch := by
  unfold vscreenPutc Terminal.putc
  simp only [if_neg hprint, if_neg hfeed]
  by_cases hreturn : ch = 13
  · simp only [if_pos hreturn, Vscreen.terminal, put, Terminal.carriageReturn,
      Function.update_eq_self]
  · simp only [if_neg hreturn, Vscreen.terminal, put, Function.update_eq_self]

-- One character.
theorem vscreenPutc_terminal_iff (vscreen : Vscreen LINES COLS) (ch : Byte) :
    (vscreenPutc vscreen ch).terminal = vscreen.terminal.putc ch ↔ Fits vscreen ch := by
  unfold Fits
  by_cases hprint : isprint ch = true
  · have hfeed : ch ≠ 10 := by
      rintro rfl
      exact absurd hprint (by decide)
    rw [print_terminal_iff hprint]
    exact ⟨fun h => ⟨fun _ => h, fun h' => absurd h' hfeed⟩, fun h => h.1 hprint⟩
  · by_cases hfeed : ch = 10
    · subst hfeed
      rw [lineFeed_terminal_iff]
      exact ⟨fun h => ⟨fun h' => absurd h' hprint, fun _ => h⟩, fun h => h.2 rfl⟩
    · apply iff_of_true (other_terminal hprint hfeed)
      exact ⟨fun h => absurd h hprint, fun h => absurd h hfeed⟩

-- The screen is that of the terminal behind every character exactly when every one fits.
theorem emulates_iff (chars : List Byte) :
    Emulates LINES COLS chars ↔
      Lib.Throughout vscreenPutc Fits chars (vscreenInit LINES COLS) :=
  Lib.foldl_agree_iff Vscreen.terminal vscreenPutc_terminal_iff chars (vscreenInit LINES COLS)

end

theorem emulates_of_two_lines : Emulates 2 3 [97, 98, 13, 10, 99, 7, 13, 10] := by
  rw [emulates_iff]
  simp only [Lib.Throughout]
  decide

-- The cursor stays in the last column, and a line feed clears the whole line.
theorem not_emulates :
    ¬Emulates 1 2 [97, 98] ∧ ¬Emulates 2 3 [97, 10, 10] := by
  constructor
  · intro h
    have hcolumn := congrArg Terminal.column (h [97, 98] (List.prefix_refl _))
    exact absurd hcolumn (by decide)
  · intro h
    have hcell := congrArg (fun t => t.buffer 0 0) (h [97, 10, 10] (List.prefix_refl _))
    exact absurd hcell (by decide)

end CSE320.Imprimer
