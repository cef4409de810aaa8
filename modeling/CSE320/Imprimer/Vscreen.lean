import CSE320.Lib.Bytes
import Mathlib.Algebra.GroupWithZero.Nat
import Mathlib.Data.List.FinRange
import Mathlib.Logic.Function.Basic

namespace CSE320.Imprimer

open Lib (Byte)

def blank : Byte := 32

-- The characters that print in the C locale.
def isprint (ch : Byte) : Bool := 32 ≤ ch.toNat && ch.toNat < 127

-- The operations of curses on a window of LINES rows and COLS columns, as they are
-- documented. Where the cursor stands behind the last column is left open.
structure Curses (LINES COLS : Nat) (Window : Type) where
  cell : Window → Fin LINES → Fin COLS → Byte
  cursor : Window → Fin LINES × Fin COLS
  wmove : Fin LINES → Fin COLS → Window → Window
  waddch : Byte → Window → Window
  wclrtoeol : Window → Window
  wclear : Window → Window
  cell_wmove : ∀ y x w, cell (wmove y x w) = cell w
  cursor_wmove : ∀ y x w, cursor (wmove y x w) = (y, x)
  cell_waddch : ∀ ch w r c, isprint ch = true →
    cell (waddch ch w) r c = if (r, c) = cursor w then ch else cell w r c
  cursor_waddch : ∀ ch w (x : Fin COLS), isprint ch = true → x.val = (cursor w).2.val + 1 →
    cursor (waddch ch w) = ((cursor w).1, x)
  cell_wclrtoeol : ∀ w r c, cell (wclrtoeol w) r c = if r = (cursor w).1 ∧ (cursor w).2 ≤ c then
    blank else cell w r c
  cursor_wclrtoeol : ∀ w, cursor (wclrtoeol w) = cursor w
  cell_wclear : ∀ w r c, cell (wclear w) r c = blank

-- The arrays have one place for each row and column.
structure Vscreen (numLines numCols : Nat) where
  curLine : Fin numLines
  curCol : Fin numCols
  lines : Fin numLines → Fin numCols → Byte
  lineChanged : Fin numLines → Bool

section

variable {LINES COLS : Nat} [NeZero LINES] [NeZero COLS] {Window : Type}
  (curses : Curses LINES COLS Window)

def vscreenInit (LINES COLS : Nat) [NeZero LINES] [NeZero COLS] : Vscreen LINES COLS where
  curLine := 0
  curCol := 0
  lines := fun _ _ => 0
  lineChanged := fun _ => false

-- The cells from left to right.
def row (vscreen : Vscreen LINES COLS) (l : Fin LINES) : List Byte := List.ofFn (vscreen.lines l)

-- The window is what the physical screen shows behind each refresh.
def updateLine (vscreen : Vscreen LINES COLS) (l : Fin LINES) (w : Window) : Window :=
  let w := curses.wclrtoeol (curses.wmove l 0 w)
  let w := (row vscreen l).foldl (fun w ch => if isprint ch then curses.waddch ch w else w) w
  curses.wmove vscreen.curLine vscreen.curCol w

-- The loop over the lines of a virtual screen.
def updateLines (vscreen : Vscreen LINES COLS) (w : Window) : Vscreen LINES COLS × Window :=
  (List.finRange LINES).foldl (fun (vscreen, w) l =>
    if vscreen.lineChanged l then
      ({ vscreen with lineChanged := Function.update vscreen.lineChanged l false },
        updateLine curses vscreen l w)
    else (vscreen, w)) (vscreen, w)

def vscreenSync (vscreen : Vscreen LINES COLS) (w : Window) : Vscreen LINES COLS × Window :=
  let (vscreen, w) := updateLines curses vscreen w
  (vscreen, curses.wmove vscreen.curLine vscreen.curCol w)

def vscreenShow (vscreen : Vscreen LINES COLS) (w : Window) : Vscreen LINES COLS × Window :=
  let (vscreen, w) := updateLines curses vscreen (curses.wclear w)
  (vscreen, curses.wmove vscreen.curLine vscreen.curCol w)

-- A line gets new cells and is flagged.
def put (vscreen : Vscreen LINES COLS) (l : Fin LINES) (line : Fin COLS → Byte) :
    Vscreen LINES COLS :=
  { vscreen with
    lines := Function.update vscreen.lines l line
    lineChanged := Function.update vscreen.lineChanged l true }

def vscreenPutc (vscreen : Vscreen LINES COLS) (ch : Byte) : Vscreen LINES COLS :=
  let l := vscreen.curLine
  let c := vscreen.curCol
  if isprint ch then
    let vscreen := put vscreen l (Function.update (vscreen.lines l) c ch)
    if h : c.val + 1 < COLS then { vscreen with curCol := ⟨c.val + 1, h⟩ } else vscreen
  else if ch = 10 then
    let l : Fin LINES := ⟨(l.val + 1) % LINES, Nat.mod_lt _ (Nat.pos_of_neZero LINES)⟩
    put { vscreen with curLine := l } l fun _ => 0
  else
    let vscreen := put vscreen l (vscreen.lines l)
    if ch = 13 then { vscreen with curCol := 0 } else vscreen

-- The calls that use the virtual screens.
inductive Call (Screen : Type) where
  | vscreenPutc (screen : Screen) (ch : Byte)
  | vscreenSync (screen : Screen)
  | vscreenShow (screen : Screen)

-- The virtual screens and the window, with the screen that it was last rewritten for.
structure State (Screen : Type) (LINES COLS : Nat) (Window : Type) where
  screens : Screen → Vscreen LINES COLS
  window : Window
  displayed : Option Screen

variable {Screen : Type} [DecidableEq Screen]

def State.start (w : Window) : State Screen LINES COLS Window :=
  ⟨fun _ => vscreenInit LINES COLS, curses.wclear w, none⟩

def State.rewrite (s : State Screen LINES COLS Window) (screen : Screen)
    (result : Vscreen LINES COLS × Window) :
    State Screen LINES COLS Window :=
  ⟨Function.update s.screens screen result.1, result.2, some screen⟩

def step (s : State Screen LINES COLS Window) : Call Screen → State Screen LINES COLS Window
  | .vscreenPutc screen ch =>
      { s with screens := Function.update s.screens screen (vscreenPutc (s.screens screen) ch) }
  | .vscreenSync screen => s.rewrite screen (vscreenSync curses (s.screens screen) s.window)
  | .vscreenShow screen => s.rewrite screen (vscreenShow curses (s.screens screen) s.window)

end

end CSE320.Imprimer
